import Mathlib.Data.List.Nodup
import PipelinedProcessor.Proofs.Cache.Moves

namespace PipelinedProcessor

namespace CacheSet

-- The places in a list when an entry is taken out, and when it is put in front.

theorem idxOf?_self (order : List Nat) (way : Nat) : (way :: order).idxOf? way = some 0 := by
  rw [List.idxOf?_cons, if_pos (beq_self_eq_true way)]

theorem idxOf?_of_ne (order : List Nat) {first way : Nat} (hne : first ≠ way) :
    (first :: order).idxOf? way = (order.idxOf? way).map (· + 1) := by
  rw [List.idxOf?_cons, if_neg (by simpa using hne)]

theorem eq_of_idxOf? {order : List Nat} {way other rank : Nat} (h : order.idxOf? way = some rank)
    (h' : order.idxOf? other = some rank) : way = other := by
  obtain ⟨_, hway, _⟩ := List.idxOf?_eq_some_iff.mp h
  obtain ⟨_, hother, _⟩ := List.idxOf?_eq_some_iff.mp h'
  exact hway.symm.trans hother

theorem idxOf?_erase (order : List Nat) {way other : Nat} (hne : way ≠ other) :
    (order.erase way).idxOf? other = (order.idxOf? other).map (sunk (order.idxOf? way)) := by
  induction order with
  | nil => rfl
  | cons first rest ih =>
      by_cases hway : first = way
      · subst hway
        rw [List.erase_cons_head, idxOf?_self, idxOf?_of_ne rest hne, Option.map_map]
        cases rest.idxOf? other <;> simp [sunk]
      · rw [List.erase_cons_tail (by simpa using hway), idxOf?_of_ne rest hway]
        by_cases hother : first = other
        · subst hother
          rw [idxOf?_self, idxOf?_self]
          cases rest.idxOf? way <;> simp [sunk]
        · rw [idxOf?_of_ne _ hother, idxOf?_of_ne rest hother, ih]
          cases rest.idxOf? other with
          | none => rfl
          | some rank =>
              cases rest.idxOf? way with
              | none => rfl
              | some own =>
                  simp only [Option.map_some, sunk, Option.any_some, decide_eq_true_eq]
                  split <;> split <;> simp only [Option.some.injEq] <;> omega

theorem idxOf?_cons_erase (order : List Nat) {way other : Nat} (hne : way ≠ other) :
    (way :: order.erase way).idxOf? other =
      (order.idxOf? other).map (grown (order.idxOf? way)) := by
  rw [idxOf?_of_ne _ hne, idxOf?_erase order hne]
  cases hrank : order.idxOf? other with
  | none => rfl
  | some rank =>
      cases hown : order.idxOf? way with
      | none => rfl
      | some own =>
          have hapart : rank ≠ own := by
            rintro rfl
            exact hne (eq_of_idxOf? hown hrank)
          simp only [Option.map_some, sunk, grown, Option.any_some,
            Option.all_some, decide_eq_true_eq, Option.some.injEq]
          split <;> split <;> omega

-- The good lines of a set are the ways of this order, the one used last first, and their ranks
-- count them.
structure Ranked (set : CacheSet) (order : List Nat) : Prop where
  nodup : order.Nodup
  rank_eq : ∀ way, (set.lineAt way).rank = order.idxOf? way
  valid_eq : ∀ way, (set.lineAt way).valid = (order.idxOf? way).isSome

theorem Ranked.of_marks {before after : CacheSet} {order : List Nat} (h : Ranked before order)
    (hmarks : after.marks = before.marks) : Ranked after order :=
  ⟨h.nodup, fun way => (congrArg Mark.rank (mark_of_marks hmarks way)).trans (h.rank_eq way),
    fun way => (congrArg Mark.valid (mark_of_marks hmarks way)).trans (h.valid_eq way)⟩

-- The way that is used comes to the front.
theorem Used.ranked {before after : CacheSet} {tag way : Nat} {order : List Nat}
    (hused : Used before after tag way) (h : Ranked before order) :
    Ranked after (way :: order.erase way) := by
  refine ⟨List.nodup_cons.mpr ⟨h.nodup.not_mem_erase, h.nodup.erase way⟩, ?_, ?_⟩
  · intro other
    by_cases hother : other = way
    · subst hother
      rw [idxOf?_self]
      exact congrArg Mark.rank hused.mark_eq
    · rw [idxOf?_cons_erase order (Ne.symm hother), ← h.rank_eq, ← h.rank_eq]
      exact congrArg Mark.rank (hused.others other hother)
  · intro other
    by_cases hother : other = way
    · subst hother
      rw [idxOf?_self]
      exact congrArg Mark.valid hused.mark_eq
    · rw [idxOf?_cons_erase order (Ne.symm hother), Option.isSome_map, ← h.valid_eq]
      exact congrArg Mark.valid (hused.others other hother)

theorem Dropped.ranked {before after : CacheSet} {way : Nat} {order : List Nat}
    (hdropped : Dropped before after way) (h : Ranked before order) :
    Ranked after (order.erase way) := by
  have hgone : (order.erase way).idxOf? way = none :=
    List.idxOf?_eq_none_iff.mpr h.nodup.not_mem_erase
  refine ⟨h.nodup.erase way, ?_, ?_⟩
  · intro other
    by_cases hother : other = way
    · subst hother
      rw [hgone]
      exact congrArg Mark.rank hdropped.mark_eq
    · rw [idxOf?_erase order (Ne.symm hother), ← h.rank_eq, ← h.rank_eq]
      exact congrArg Mark.rank (hdropped.others other hother)
  · intro other
    by_cases hother : other = way
    · subst hother
      rw [hgone]
      exact congrArg Mark.valid hdropped.mark_eq
    · rw [idxOf?_erase order (Ne.symm hother), Option.isSome_map, ← h.valid_eq]
      exact congrArg Mark.valid (hdropped.others other hother)

theorem eq_map_lineAt (set : CacheSet) : set = (List.range set.length).map set.lineAt := by
  apply List.ext_getElem
  · simp
  · intro i h₁ h₂
    simp [lineAt, h₁]

-- The ranks are the first numbers, each of them once.
theorem Ranked.perm {set : CacheSet} {order : List Nat} (h : Ranked set order) :
    (set.filterMap CacheLine.rank).Perm (List.range (set.countP CacheLine.valid)) := by
  have hranks : set.filterMap CacheLine.rank = (List.range set.length).filterMap order.idxOf? := by
    conv_lhs => rw [set.eq_map_lineAt, List.filterMap_map]
    exact congrArg (List.filterMap · _) (funext h.rank_eq)
  have hperm : (set.filterMap CacheLine.rank).Perm (List.range order.length) := by
    rw [hranks, List.perm_ext_iff_of_nodup ?_ List.nodup_range]
    · intro rank
      simp only [List.mem_filterMap, List.mem_range]
      constructor
      · rintro ⟨way, -, hway⟩
        exact (List.idxOf?_eq_some_iff.mp hway).1
      · intro hlt
        have hway : order.idxOf? order[rank] = some rank := by
          refine List.idxOf?_eq_some_iff.mpr ⟨hlt, rfl, ?_⟩
          intro earlier hearlier heq
          have hsame := (h.nodup.getElem_inj_iff).mp heq
          omega
        exact ⟨order[rank], lineAt_of_rank ((h.rank_eq _).trans hway), hway⟩
    · exact List.nodup_range.filterMap fun way other rank hway hother => eq_of_idxOf? hway hother
  have hcount : set.countP CacheLine.valid = order.length := by
    have hlength := hperm.length_eq
    rw [List.length_range] at hlength
    rw [← hlength, List.length_filterMap_eq_countP]
    apply List.countP_congr
    intro line hline
    obtain ⟨way, hway, rfl⟩ := List.getElem_of_mem hline
    have hlookup : set.lineAt way = set[way] := by
      simp [lineAt, hway]
    rw [← hlookup, h.valid_eq, h.rank_eq]
  rw [hcount]
  exact hperm

-- An order of ways that goes by their last uses, of which the latest stands first among all.
structure Follows (recent : List (Fin 4 × Nat)) (index : Fin 4) (order : List Nat) : Prop where
  mem : ∀ way ∈ order, (index, way) ∈ recent
  sorted : order.Pairwise fun way other => recent.idxOf (index, way) < recent.idxOf (index, other)

theorem Follows.erase {recent : List (Fin 4 × Nat)} {index : Fin 4} {order : List Nat}
    (h : Follows recent index order) (way : Nat) : Follows recent index (order.erase way) :=
  ⟨fun other hother => h.mem other (List.mem_of_mem_erase hother),
    h.sorted.sublist List.erase_sublist⟩

-- One more use changes nothing in the order of those that it does not concern.
theorem Follows.cons_of_not_mem {recent : List (Fin 4 × Nat)} {index : Fin 4} {order : List Nat}
    (h : Follows recent index order) {used : Fin 4 × Nat}
    (hused : ∀ way ∈ order, used ≠ (index, way)) :
    Follows (used :: recent) index order := by
  refine ⟨fun way hway => List.mem_cons_of_mem _ (h.mem way hway), h.sorted.imp_of_mem ?_⟩
  intro way other hway hother hlt
  rw [List.idxOf_cons_ne _ (hused way hway), List.idxOf_cons_ne _ (hused other hother)]
  exact Nat.succ_lt_succ hlt

theorem Follows.use {recent : List (Fin 4 × Nat)} {index : Fin 4} {order : List Nat}
    (h : Follows recent index order) (hnodup : order.Nodup) (way : Nat) :
    Follows ((index, way) :: recent) index (way :: order.erase way) := by
  have hne : ∀ other ∈ order.erase way, (index, way) ≠ (index, other) := by
    rintro other hother heq
    obtain ⟨-, rfl⟩ := Prod.mk.inj heq
    exact hnodup.not_mem_erase hother
  obtain ⟨hmem, hsorted⟩ := (h.erase way).cons_of_not_mem hne
  refine ⟨?_, List.pairwise_cons.mpr ⟨?_, hsorted⟩⟩
  · intro other hother
    rcases List.mem_cons.mp hother with rfl | hrest
    · exact List.mem_cons_self
    · exact hmem other hrest
  · intro other hother
    rw [List.idxOf_cons_self, List.idxOf_cons_ne _ (hne other hother)]
    exact Nat.succ_pos _

-- A rank says how many good lines of the set were used since.
theorem Ranked.rank_lt_iff {set : CacheSet} {recent : List (Fin 4 × Nat)} {index : Fin 4}
    {order : List Nat} (h : Ranked set order) (hfollows : Follows recent index order)
    {way other rank rank' : Nat} (hway : (set.lineAt way).rank = some rank)
    (hother : (set.lineAt other).rank = some rank') :
    rank < rank' ↔ recent.idxOf (index, way) < recent.idxOf (index, other) := by
  have hsorted := List.pairwise_iff_getElem.mp hfollows.sorted
  rw [h.rank_eq] at hway hother
  obtain ⟨hlt, hplace, -⟩ := List.idxOf?_eq_some_iff.mp hway
  obtain ⟨hlt', hplace', -⟩ := List.idxOf?_eq_some_iff.mp hother
  have hforward (hranks : rank < rank') := hsorted rank rank' hlt hlt' hranks
  have hbackward (hranks : rank' < rank) := hsorted rank' rank hlt' hlt hranks
  rw [hplace, hplace'] at hforward hbackward
  refine ⟨hforward, ?_⟩
  intro hrecent
  rcases Nat.lt_trichotomy rank rank' with hranks | rfl | hranks
  · exact hranks
  · rw [eq_of_idxOf? hway hother] at hrecent
    exact absurd hrecent (Nat.lt_irrefl _)
  · exact absurd hrecent (Nat.lt_asymm (hbackward hranks))

-- The way not used for longest.

theorem foldl_older (entries : List (CacheLine × Nat)) (kept : Nat × Nat) :
    ∃ found, entries.foldl older (some kept) = some found ∧ kept.1 ≤ found.1 ∧
      (found = kept ∨ ∃ entry ∈ entries, found = (entry.1.age, entry.2)) ∧
      ∀ entry ∈ entries, entry.1.age ≤ found.1 := by
  induction entries generalizing kept with
  | nil => exact ⟨kept, rfl, Nat.le_refl _, .inl rfl, by simp⟩
  | cons entry rest ih =>
      rw [List.foldl_cons]
      by_cases hage : kept.1 ≤ entry.1.age
      · have holder : older (some kept) entry = some (entry.1.age, entry.2) := if_pos hage
        obtain ⟨found, hfold, hle, hfrom, hall⟩ := ih (entry.1.age, entry.2)
        rw [holder]
        refine ⟨found, hfold, Nat.le_trans hage hle, ?_, List.forall_mem_cons.mpr ⟨hle, hall⟩⟩
        rcases hfrom with rfl | ⟨other, hother, rfl⟩
        · exact .inr ⟨entry, List.mem_cons_self, rfl⟩
        · exact .inr ⟨other, List.mem_cons_of_mem _ hother, rfl⟩
      · have holder : older (some kept) entry = some kept := if_neg hage
        obtain ⟨found, hfold, hle, hfrom, hall⟩ := ih kept
        have hentry := Nat.le_trans (Nat.le_of_not_le hage) hle
        rw [holder]
        refine ⟨found, hfold, hle, ?_, List.forall_mem_cons.mpr ⟨hentry, hall⟩⟩
        rcases hfrom with rfl | ⟨other, hother, rfl⟩
        · exact .inl rfl
        · exact .inr ⟨other, List.mem_cons_of_mem _ hother, rfl⟩

theorem mem_zipIdx_iff {set : CacheSet} {entry : CacheLine × Nat} :
    entry ∈ set.zipIdx ↔ entry.2 < set.length ∧ entry.1 = set.lineAt entry.2 := by
  rw [List.mem_zipIdx_iff_getElem?, lineAt, List.getElem?_eq_some_iff]
  constructor
  · rintro ⟨hlt, hline⟩
    exact ⟨hlt, by rw [List.getElem?_eq_getElem hlt, hline, Option.getD_some]⟩
  · rintro ⟨hlt, hline⟩
    exact ⟨hlt, by rw [hline, List.getElem?_eq_getElem hlt, Option.getD_some]⟩

theorem oldest?_spec {set : CacheSet} {free : Nat → Bool} {candidate : Nat}
    (hlt : candidate < set.length) (hfree : free candidate = true) :
    ∃ way, set.oldest? free = some way ∧ way < set.length ∧ free way = true ∧
      ∀ other, other < set.length → free other = true →
      (set.lineAt other).age ≤ (set.lineAt way).age := by
  have hmem {entry : CacheLine × Nat} : entry ∈ set.zipIdx.filter (fun entry => free entry.2) ↔
      (entry.2 < set.length ∧ entry.1 = set.lineAt entry.2) ∧ free entry.2 = true := by
    rw [List.mem_filter, mem_zipIdx_iff]
  have hcandidate : (set.lineAt candidate, candidate) ∈
      set.zipIdx.filter fun entry => free entry.2 :=
    hmem.mpr ⟨⟨hlt, rfl⟩, hfree⟩
  unfold oldest?
  cases hentries : set.zipIdx.filter (fun entry => free entry.2) with
  | nil =>
      rw [hentries] at hcandidate
      cases hcandidate
  | cons entry rest =>
      obtain ⟨found, hfold, hle, hfrom, hall⟩ := foldl_older rest (entry.1.age, entry.2)
      have hfound : ∃ chosen ∈ entry :: rest, found = (chosen.1.age, chosen.2) := by
        rcases hfrom with rfl | ⟨chosen, hchosen, rfl⟩
        · exact ⟨entry, List.mem_cons_self, rfl⟩
        · exact ⟨chosen, List.mem_cons_of_mem _ hchosen, rfl⟩
      obtain ⟨chosen, hchosen, rfl⟩ := hfound
      rw [hentries.symm, hmem] at hchosen
      obtain ⟨⟨hway, hline⟩, hchosenFree⟩ := hchosen
      refine ⟨chosen.2, by rw [List.foldl_cons]; exact congrArg (Option.map Prod.snd) hfold,
        hway, hchosenFree, ?_⟩
      intro other hother hotherFree
      have hin : (set.lineAt other, other) ∈ entry :: rest := by
        rw [hentries.symm, hmem]
        exact ⟨⟨hother, rfl⟩, hotherFree⟩
      rw [← hline]
      rcases List.mem_cons.mp hin with rfl | hrest
      · exact hle
      · exact hall _ hrest

-- With no way for the tag and no free way without a good line, the oldest of the free ways is
-- taken.
theorem victim_spec {set : CacheSet} {tag : Nat} (free : Nat → Bool) (habsent : set.way? tag = none)
    (hfull : ∀ way, way < set.length → free way = true → (set.lineAt way).valid = true)
    {candidate : Nat} (hlt : candidate < set.length) (hfree : free candidate = true) :
    set.victim tag free < set.length ∧ free (set.victim tag free) = true ∧
      ∀ other, other < set.length → free other = true →
        (set.lineAt other).age ≤ (set.lineAt (set.victim tag free)).age := by
  have hunused : set.unused? free = none := by
    rw [unused?, Option.map_eq_none_iff, List.find?_eq_none]
    rintro entry hentry
    obtain ⟨hway, hline⟩ := mem_zipIdx_iff.mp hentry
    rw [hline]
    intro hboth
    simp only [Bool.and_eq_true, Bool.not_eq_true'] at hboth
    rw [hfull entry.2 hway hboth.2] at hboth
    cases hboth.1
  obtain ⟨way, holdest, hspec⟩ := oldest?_spec hlt hfree
  have hvictim : set.victim tag free = way := by
    rw [victim, habsent, hunused, holdest]
    rfl
  rw [hvictim]
  exact hspec

end CacheSet

namespace Cache

-- The ranks of all sets go by the uses that there were.
structure InOrder (cache : Cache) (recent : List (Fin 4 × Nat)) : Prop where
  sized : Sized cache
  ordered : ∀ address, ∃ order, CacheSet.Ranked (cache.setOf address) order ∧
    CacheSet.Follows recent (setIndex address) order

section

variable {before after : Cache} {recent : List (Fin 4 × Nat)}

theorem SameMarks.ordered (hsame : SameMarks before after) (h : InOrder before recent)
    (address : Nat) :
    ∃ order, CacheSet.Ranked (after.setOf address) order ∧
    CacheSet.Follows recent (setIndex address) order := by
  obtain ⟨order, hranked, hfollows⟩ := h.ordered address
  exact ⟨order, hranked.of_marks (hsame.marks_eq address), hfollows⟩

theorem Moved.inOrder {used : Option (Fin 4 × Nat)} (hmoved : Moved before after used)
    (h : InOrder before recent) :
    InOrder after (used.toList ++ recent) := by
  refine ⟨hmoved.sized h.sized, ?_⟩
  cases hmoved with
  | rests hsame _ => exact hsame.ordered h
  | reserves _ _ _ _ hsame _ => exact hsame.ordered h
  | uses issuer tag way haligned hplace huses hheld =>
      intro address
      by_cases hindex : setIndex tag = setIndex address
      · obtain ⟨order, hranked, hfollows⟩ := h.ordered tag
        rw [← after.setOf_congr hindex, ← hindex]
        exact ⟨way :: order.erase way, huses.changed.ranked hranked, hfollows.use hranked.nodup way⟩
      · obtain ⟨order, hranked, hfollows⟩ := h.ordered address
        refine ⟨order, hranked.of_marks (huses.others address hindex), hfollows.cons_of_not_mem ?_⟩
        intro other _ heq
        exact hindex (congrArg Prod.fst heq)

theorem Drops.inOrder {tag way : Nat} (hdrops : Drops before after tag way)
    (h : InOrder before recent) :
    InOrder after recent := by
  refine ⟨hdrops.sized h.sized, ?_⟩
  intro address
  by_cases hindex : setIndex tag = setIndex address
  · obtain ⟨order, hranked, hfollows⟩ := h.ordered tag
    rw [← after.setOf_congr hindex, ← hindex]
    exact ⟨order.erase way, hdrops.changes.changed.ranked hranked, hfollows.erase way⟩
  · obtain ⟨order, hranked, hfollows⟩ := h.ordered address
    exact ⟨order, hranked.of_marks (hdrops.changes.others address hindex), hfollows⟩

theorem Step.inOrder {cache : Cache} (h : InOrder cache recent) (step : Step) :
    InOrder (step.perform cache) ((step.used? cache).toList ++ recent) := by
  rcases step.cases h.sized with hmoved | ⟨address, way, rfl, hdrops⟩
  · exact hmoved.inOrder h
  · exact hdrops.inOrder h

end

-- The ways that were used, the last one first.
def usesOf : List Step → Cache → List (Fin 4 × Nat) → List (Fin 4 × Nat)
  | [], _, recent => recent
  | step :: rest, cache, recent =>
    usesOf rest (step.perform cache) ((step.used? cache).toList ++ recent)

theorem inOrder_performSteps {cache : Cache} {recent : List (Fin 4 × Nat)}
    (h : InOrder cache recent) (steps : List Step) :
    InOrder (cache.performSteps steps) (usesOf steps cache recent) := by
  induction steps generalizing cache recent with
  | nil => exact h
  | cons step rest ih => exact ih (step.inOrder h)

theorem inOrder_empty {ways : Nat} (h : 0 < ways) (writeAllocate : Bool) (memory : MainMemory) :
    InOrder (empty ways writeAllocate memory) [] := by
  refine ⟨sized_empty h writeAllocate memory, ?_⟩
  intro address
  have hline (way : Nat) : ((empty ways writeAllocate memory).setOf address).lineAt way = .empty :=
    lineAt_empty ways writeAllocate memory address way
  refine ⟨[], ⟨List.nodup_nil, ?_, ?_⟩, ⟨by simp, .nil⟩⟩
  · intro way
    rw [hline]
    rfl
  · intro way
    rw [hline]
    rfl

-- A line is missing, and there is neither a way of its own for it nor a free one without a good
-- line.
structure Evicts (cache : Cache) (issuer : Stage) (tag : Nat) : Prop where
  unreserved : ∀ held, cache.reservation issuer = some held → held.tag ≠ tag
  absent : (cache.setOf tag).way? tag = none
  full : ∀ way, way < cache.ways → cache.heldByOther issuer tag way = false →
    (cache.lineAt tag way).valid = true
  free : ∃ way, way < cache.ways ∧ cache.heldByOther issuer tag way = false

-- The line that has to go is the free one whose last use came before those of all others.
theorem InOrder.victim {cache : Cache} {recent : List (Fin 4 × Nat)} (h : InOrder cache recent)
    {issuer : Stage} {tag : Nat} (hevicts : Evicts cache issuer tag) :
    (cache.reserve issuer tag).1 < cache.ways ∧
      cache.heldByOther issuer tag (cache.reserve issuer tag).1 = false ∧
      ∀ other, other < cache.ways → cache.heldByOther issuer tag other = false →
        other ≠ (cache.reserve issuer tag).1 →
        recent.idxOf (setIndex tag, other) <
          recent.idxOf (setIndex tag, (cache.reserve issuer tag).1) := by
  have hreserve : (cache.reserve issuer tag).1 =
      (cache.setOf tag).victim tag fun way => !cache.heldByOther issuer tag way := by
    unfold reserve
    split
    · rename_i held hheld
      rw [if_neg (hevicts.unreserved held hheld)]
      rfl
    · rfl
  have hlength := h.sized.length_eq tag
  obtain ⟨candidate, hcandidate, hfree⟩ := hevicts.free
  obtain ⟨hlt, hvictim, holdest⟩ :=
    CacheSet.victim_spec (fun way => !cache.heldByOther issuer tag way)
    hevicts.absent (fun way hway hfree => hevicts.full way (hlength ▸ hway) (by simpa using hfree))
    (hlength.symm ▸ hcandidate) (by simpa using hfree)
  rw [← hreserve] at hlt hvictim holdest
  generalize (cache.reserve issuer tag).1 = way at hlt hvictim holdest ⊢
  have hwayFree : cache.heldByOther issuer tag way = false := by simpa using hvictim
  refine ⟨hlength ▸ hlt, hwayFree, ?_⟩
  intro other hother hotherFree hne
  obtain ⟨order, hranked, hfollows⟩ := h.ordered tag
  have hrank {way : Nat} (hway : way < cache.ways)
      (hfree : cache.heldByOther issuer tag way = false) :
      ∃ rank, ((cache.setOf tag).lineAt way).rank = some rank := by
    rw [hranked.rank_eq]
    exact Option.isSome_iff_exists.mp
      ((hranked.valid_eq way).symm.trans (hevicts.full way hway hfree))
  obtain ⟨rank, hway⟩ := hrank (hlength ▸ hlt) hwayFree
  obtain ⟨rank', hother'⟩ := hrank hother hotherFree
  have hage := holdest other (hlength.symm ▸ hother) (by simpa using hotherFree)
  simp only [CacheLine.age, hway, hother', Option.elim_some] at hage
  have hapart : rank' ≠ rank := by
    rintro rfl
    exact hne (CacheSet.eq_of_idxOf? ((hranked.rank_eq other).symm.trans hother')
      ((hranked.rank_eq way).symm.trans hway))
  exact (hranked.rank_lt_iff hfollows hother' hway).mp (by omega)

-- A way has a rank if its line is good. The ranks of a set count its good lines, the one used last
-- first, and what is missed takes the place of the line whose last use is the longest ago.
theorem ranks_performSteps_of_build {lineCount : Nat} {writeAllocate : Bool} {memory : MainMemory}
    {cache : Cache} (hbuild : Cache.build lineCount writeAllocate memory = .ok cache)
    (steps : List Step) (address : Nat) :
    let after := cache.performSteps steps
    let recent := usesOf steps cache []
    let set := after.setOf address
    let lastUse := fun way => recent.idxOf (setIndex address, way)
    (∀ way, (set.lineAt way).rank.isSome = (set.lineAt way).valid) ∧
      (set.filterMap CacheLine.rank).Perm (List.range (set.countP CacheLine.valid)) ∧
      (∀ way, (set.lineAt way).valid = true → (setIndex address, way) ∈ recent) ∧
      (∀ way other rank rank', (set.lineAt way).rank = some rank →
        (set.lineAt other).rank = some rank' →
        (rank < rank' ↔ lastUse way < lastUse other)) ∧
      ∀ issuer, Evicts after issuer address →
        let victim := (after.reserve issuer address).1
        victim < after.ways ∧ after.heldByOther issuer address victim = false ∧
          ∀ other, other < after.ways → after.heldByOther issuer address other = false →
          other ≠ victim →
            lastUse other < lastUse victim := by
  obtain ⟨ways, hways, rfl⟩ := build_eq_empty hbuild
  intro after recent set lastUse
  have hafter : InOrder after recent :=
    inOrder_performSteps (inOrder_empty hways writeAllocate memory) steps
  obtain ⟨order, hranked, hfollows⟩ := hafter.ordered address
  refine ⟨?_, hranked.perm, ?_, ?_, fun issuer hevicts => hafter.victim hevicts⟩
  · intro way
    rw [hranked.rank_eq, hranked.valid_eq]
  · intro way hvalid
    rw [hranked.valid_eq] at hvalid
    exact hfollows.mem way (List.isSome_idxOf?.mp hvalid)
  · intro way other rank rank' hway hother
    exact hranked.rank_lt_iff hfollows hway hother

-- Two lines of one set are read in turn, and then a third is missed.
theorem ranks_performSteps_of_third_line :
    let cache := empty 2 false (.zeroed 4 1 (by decide))
    let steps : List Step := [.asked (.poll .memory (.read 0)), .asked (.poll .memory (.read 0)),
      .asked (.poll .fetch (.read 4)), .asked (.poll .fetch (.read 4))]
    let after := cache.performSteps steps
    Cache.build 8 false (.zeroed 4 1 (by decide)) = .ok cache ∧
      ((after.setOf 8).filterMap CacheLine.rank).Perm (List.range 2) ∧ Evicts after .memory 8 ∧
      (usesOf steps cache []).idxOf (0, 1) <
        (usesOf steps cache []).idxOf (0, (after.reserve .memory 8).1) := by
  intro cache steps after
  have hbuild : Cache.build 8 false (.zeroed 4 1 (by decide)) = .ok cache := rfl
  have hevicts : Evicts after .memory 8 := by
    have hnone : after.reservation .memory = none := by decide +kernel
    refine ⟨?_, by decide +kernel, by decide +kernel, 0, by decide +kernel, by decide +kernel⟩
    intro held hheld
    rw [hnone] at hheld
    cases hheld
  have hcount : (after.setOf 8).countP CacheLine.valid = 2 := by decide +kernel
  obtain ⟨-, hperm, -, -, hvictim⟩ := ranks_performSteps_of_build hbuild steps 8
  exact ⟨hbuild, hcount ▸ hperm, hevicts,
    (hvictim .memory hevicts).2.2 1 (by decide +kernel) (by decide +kernel) (by decide +kernel)⟩

end Cache

end PipelinedProcessor
