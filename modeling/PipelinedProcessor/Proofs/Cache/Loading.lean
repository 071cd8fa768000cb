import PipelinedProcessor.Machine.Load
import PipelinedProcessor.Proofs.Memory.Storage

namespace PipelinedProcessor

-- Many tries of one access: those that wait change no words, and the last may be served.
theorem MainMemory.repeated_access_cases {α : Type} (issuer : Stage) (address : Nat)
    (serve : MainMemory → α × MainMemory) (tries : Nat) (memory : MainMemory)
    {answer : Option (α × Nat)} {after : MainMemory}
    (hresult : Poll.repeated (fun memory => memory.access issuer address serve) tries memory =
      (answer, after)) :
    answer = none ∧ (∃ pending, after = { memory with pending := pending }) ∨
      ∃ count, answer = some ((serve { memory with pending := none }).1, count) ∧
        after = (serve { memory with pending := none }).2 := by
  induction tries generalizing memory answer after with
  | zero =>
      obtain ⟨rfl, rfl⟩ := Prod.mk.inj hresult
      exact .inl ⟨rfl, memory.pending, rfl⟩
  | succ tries ih =>
      rw [Poll.repeated] at hresult
      rcases memory.access_cases issuer address serve with ⟨pending, haccess⟩ | haccess
      · rw [haccess] at hresult
        rcases hrest : Poll.repeated (fun memory => memory.access issuer address serve) tries
          { memory with pending := pending } with ⟨answer', after'⟩
        simp only [hrest] at hresult
        obtain ⟨rfl, rfl⟩ := Prod.mk.inj hresult
        rcases ih _ hrest with ⟨rfl, hafter⟩ | ⟨count, rfl, hafter⟩
        · exact .inl ⟨rfl, hafter⟩
        · exact .inr ⟨count + 1, rfl, hafter⟩
      · rw [haccess] at hresult
        obtain ⟨rfl, rfl⟩ := Prod.mk.inj hresult
        exact .inr ⟨1, rfl, rfl⟩

namespace Cache

theorem reservation_releaseAll (cache : Cache) (issuer : Stage) :
    cache.releaseAll.reservation issuer = none := by
  simp [releaseAll, changeMemory_eq, reservation]

-- Nobody waits for memory, and no place in the cache is held for anybody.
structure Released (cache : Cache) : Prop where
  pending_eq : cache.memory.pending = none
  reservation_eq : ∀ issuer, cache.reservation issuer = none

theorem released_releaseAll (cache : Cache) : cache.releaseAll.Released where
  pending_eq := by rw [releaseAll, changeMemory_eq]; rfl
  reservation_eq := cache.reservation_releaseAll

-- Who drops a line loses no words of it: those that memory does not have go there first.

section Drop

variable {cache : Cache} (address : Nat)

-- The cache without one line, before the line goes.
def saved (cache : Cache) (tag way : Nat) : Cache :=
  if (cache.lineAt tag way).dirty then
    (cache.changeMemory (·.putLine tag (cache.lineAt tag way).line.words)).countWriteBack
  else cache

theorem invalidate_of_way? {way : Nat}
    (hway : (cache.setOf (cache.memory.lineStart address)).way? (cache.memory.lineStart address) =
      some way) :
    cache.invalidate address = (cache.saved (cache.memory.lineStart address) way).modifySet
      (cache.memory.lineStart address) fun set => set.withdraw way := by
  simp only [invalidate, hway]
  rfl

theorem invalidate_of_none
    (hway : (cache.setOf (cache.memory.lineStart address)).way?
      (cache.memory.lineStart address) = none) :
    cache.invalidate address = cache := by
  simp only [invalidate, hway]

theorem sets_saved (cache : Cache) (tag way : Nat) : (cache.saved tag way).sets = cache.sets ∧
    (cache.saved tag way).ways = cache.ways ∧
    (cache.saved tag way).reservations = cache.reservations ∧
    (cache.saved tag way).memory.lineCount = cache.memory.lineCount := by
  unfold saved
  split <;> exact ⟨rfl, rfl, rfl, rfl⟩

theorem peekWords_saved (cache : Cache) (tag way other : Nat) :
    (cache.saved tag way).memory.peekWords other =
    if (cache.lineAt tag way).dirty ∧ cache.memory.lineStart tag = cache.memory.lineStart other then
      (cache.lineAt tag way).line.words
    else cache.memory.peekWords other := by
  unfold saved
  by_cases hdirty : (cache.lineAt tag way).dirty = true
  · rw [if_pos hdirty]
    show (cache.memory.putLine tag (cache.lineAt tag way).line.words).peekWords other = _
    rw [MainMemory.peekWords_putLine']
    simp only [hdirty, true_and]
  · rw [if_neg hdirty, if_neg fun h => hdirty h.1]

-- No line becomes good.
theorem lineAt_invalidate (cache : Cache) (address line other : Nat) :
    ((cache.invalidate address).lineAt line other).tag = (cache.lineAt line other).tag ∧
      (((cache.invalidate address).lineAt line other).valid = true →
        (cache.lineAt line other).valid = true) := by
  cases hway :
    (cache.setOf (cache.memory.lineStart address)).way? (cache.memory.lineStart address) with
  | none =>
      rw [invalidate_of_none address hway]
      exact ⟨rfl, id⟩
  | some way =>
      have hline (line other : Nat) :
          (cache.saved (cache.memory.lineStart address) way).lineAt line other =
          cache.lineAt line other := by
        simp only [lineAt, setOf, (cache.sets_saved _ way).1]
      rw [invalidate_of_way? address hway, lineAt_modifySet]
      split
      · obtain ⟨hsame, hvalid, -⟩ := CacheSet.lineAt_withdraw
          ((cache.saved (cache.memory.lineStart address) way).setOf line) way other
        rw [CacheLine.tag, hsame, hvalid, Bool.and_eq_true, ← hline]
        exact ⟨rfl, And.right⟩
      · rw [hline]
        exact ⟨rfl, id⟩

variable (h : Coherent cache) (hidle : ∀ issuer, cache.reservation issuer = none)

include h hidle

theorem Coherent.invalidate :
    Shows (cache.invalidate address) cache.memory.lineCount cache.viewLine ∧
    (∀ issuer, (cache.invalidate address).reservation issuer = none) ∧
    ((cache.invalidate address).setOf ((cache.invalidate address).memory.lineStart address)).hit?
      ((cache.invalidate address).memory.lineStart address) = none := by
  cases hway :
    (cache.setOf (cache.memory.lineStart address)).way? (cache.memory.lineStart address) with
  | none =>
      rw [invalidate_of_none address hway]
      exact ⟨h.shows, hidle, by simp only [CacheSet.hit?, hway, Option.filter_none]⟩
  | some way =>
      have hstart : (cache.invalidate address).memory.lineStart address =
          cache.memory.lineStart address := by
        rw [invalidate_of_way? address hway]
        exact lineStart_congr (cache.sets_saved _ way).2.2.2 address
      rw [hstart, invalidate_of_way? address hway]
      generalize htag : cache.memory.lineStart address = tag at hway
      have haligned : cache.memory.lineStart tag = tag := by
        rw [← htag, MainMemory.lineStart_lineStart]
      have htagged : (cache.lineAt tag way).tag = some tag := CacheSet.tag_of_way? hway
      obtain ⟨hsets, hways, hreservations, hcount⟩ := cache.sets_saved tag way
      have hnone (issuer : Stage) : ((cache.saved tag way).modifySet tag fun set =>
          set.withdraw way).reservation issuer = none := by
        have hsame :
            ((cache.saved tag way).modifySet tag fun set => set.withdraw way).reservations =
            cache.reservations := hreservations
        rw [reservation, hsame]
        exact hidle issuer
      have hadmits :
          Admits cache ((cache.saved tag way).modifySet tag fun set => set.withdraw way) tag way
          (cache.lineAt tag way).line false false := by
        refine ⟨changesWay_of_sets (fun set => set.withdraw way) ?_ hways
          (CacheSet.withdraw_changes _ way), ?_,
          htagged, haligned, fun other hother => h.unique hother htagged, ?_, ?_, hcount, ?_, ?_⟩
        · simp only [modifySet, setOf, hsets]
        · rw [← h.length_eq tag]
          exact CacheSet.lt_length_of_tag htagged
        · intro hvalid
          cases hvalid
        · intro hclean
          cases hclean
        · intro other hother hne
          refine (cache.peekWords_saved tag way other).trans (if_neg ?_)
          rintro ⟨-, hline⟩
          rw [haligned, hother] at hline
          exact hne hline.symm
        · intro issuer held hheld
          rw [hnone] at hheld
          cases hheld
      have hcoherent := hadmits.coherent h
      refine ⟨⟨hcoherent, hcount, ?_⟩, hnone, ?_⟩
      · intro other
        rw [hadmits.viewLine h (.inr htagged)]
        by_cases hother : cache.memory.lineStart other = tag
        · rw [if_pos hother, if_neg Bool.false_ne_true]
          refine (cache.peekWords_saved tag way tag).trans ?_
          by_cases hdirty : (cache.lineAt tag way).dirty = true
          · rw [if_pos ⟨hdirty, rfl⟩, h.viewLine_of_valid hother htagged (h.valid hdirty)]
          · rw [if_neg fun hboth => hdirty hboth.1]
            cases hvalid : (cache.lineAt tag way).valid with
            | true =>
                rw [h.viewLine_of_valid hother htagged hvalid,
                  h.clean htagged hvalid (Bool.eq_false_iff.mpr hdirty)]
            | false =>
                rw [viewLine_of_absent hother]
                · exact cache.memory.peekWords_congr (haligned.trans hother.symm)
                · intro way' htag'
                  rw [h.unique htag' htagged]
                  exact hvalid
        · rw [if_neg hother]
      · rw [CacheSet.hit?, hcoherent.way?_eq hadmits.tag_eq, Option.filter_some, if_neg]
        exact Bool.eq_false_iff.mp hadmits.changes.valid_eq

end Drop

-- A word that goes to memory behind a cache that does not hold its line.
theorem Coherent.put {cache : Cache} (h : Coherent cache) {address : Nat}
    (hmiss : (cache.setOf (cache.memory.lineStart address)).hit? (cache.memory.lineStart address) =
      none) (w : Word)
    (pending : Option Pending) :
    Presents cache { cache with memory := { cache.memory.put address w with pending := pending } }
      (MemoryView.put cache.memory.capacity cache.view address w) := by
  have hafter :
      Shows { cache with memory := { cache.memory.put address w with pending := pending } }
      cache.memory.lineCount fun other =>
        if cache.memory.lineStart other = cache.memory.lineStart address then
          (cache.memory.peekWords address).set (cache.memory.offset address) w
        else cache.viewLine other :=
    h.shows.memoryLine address _ pending hmiss
  refine ⟨hafter.coherent, hafter.lineCount_eq, ?_⟩
  funext other
  rw [view_eq, hafter.viewLine_eq other, MemoryView.put_apply]
  show Vector.get _ (cache.memory.offset other) = _
  by_cases hline : cache.memory.lineStart other = cache.memory.lineStart address
  · have hwords : cache.memory.peekWords address = cache.viewLine other := by
      rw [cache.viewLine_congr hline]
      simp only [viewLine, hmiss]
    rw [if_pos hline, get_set, hwords, ← view_eq]
    refine if_congr ?_ rfl rfl
    have hwrap := cache.memory.wrap_eq_iff address other
    rw [cache.memory.lineIndex_eq_iff] at hwrap
    constructor
    · intro hoffset
      exact (hwrap.mpr ⟨hline.symm, hoffset⟩).symm
    · intro heq
      exact (hwrap.mp heq.symm).2
  · rw [if_neg hline, if_neg, ← view_eq]
    intro heq
    refine hline ?_
    show cache.memory.wrap other - cache.memory.wrap other % lineLength = _
    rw [show cache.memory.wrap other = cache.memory.wrap address from heq]
    rfl

-- Loading one word changes it alone, or nothing where memory does not answer.
theorem Coherent.loadWord {cache after : Cache} (h : Coherent cache)
    (hidle : ∀ issuer, cache.reservation issuer = none) {address tries : Nat}
    {w : Word} {answer : Option Unit}
    (hresult : Machine.loadWord cache address tries w = (answer, after)) :
    (∀ issuer, after.reservation issuer = none) ∧ Presents cache after (match answer with
      | none => cache.view
      | some () => MemoryView.put cache.memory.capacity cache.view address w) := by
  obtain ⟨hshows, hnone, hmiss⟩ := h.invalidate address hidle
  have hkept := hshows.presents_view
  have hcapacity : (cache.invalidate address).memory.capacity = cache.memory.capacity :=
    MainMemory.capacity_congr hkept.lineCount_eq
  rcases hwrite : Poll.repeated (fun memory => memory.write .system address w) tries
    (cache.invalidate address).memory with ⟨found, memory⟩
  simp only [Machine.loadWord, onMemory_eq, hwrite] at hresult
  obtain ⟨rfl, rfl⟩ := Prod.mk.inj hresult
  rcases MainMemory.repeated_access_cases .system address _ tries _ hwrite with
    ⟨rfl, pending, rfl⟩ | ⟨count, rfl, rfl⟩
  · exact ⟨hnone,
      (hshows.of_same ((cache.invalidate address).sameLines_withPending pending)).presents_view⟩
  · have hput := hkept.coherent.put hmiss w none
    refine ⟨hnone, hput.coherent, hput.lineCount_eq.trans hkept.lineCount_eq, ?_⟩
    rw [hcapacity, hkept.view_eq] at hput
    exact hput.view_eq

theorem Coherent.loadFrom {cache after : Cache} (h : Coherent cache)
    (hidle : ∀ issuer, cache.reservation issuer = none) {tries start index : Nat}
    {words : List Word} {error : Option LoadError}
    (hresult : Machine.loadFrom tries start index words cache = (error, after)) :
    Coherent after := by
  induction words generalizing cache index with
  | nil =>
      obtain ⟨-, rfl⟩ := Prod.mk.inj hresult
      exact h
  | cons w rest ih =>
      rcases hload :
        Machine.loadWord cache ((start + index) % unsignedBound) tries w with ⟨answer, next⟩
      obtain ⟨hidle', hpresents⟩ := h.loadWord hidle hload
      simp only [Machine.loadFrom, hload] at hresult
      cases answer with
      | none =>
          obtain ⟨-, rfl⟩ := Prod.mk.inj hresult
          exact hpresents.coherent
      | some done => exact ih hpresents.coherent hidle' hresult

-- Loading brings no line in.

section Invalid

variable {cache : Cache} (h : ∀ line way, (cache.lineAt line way).valid = false)

include h

theorem invalid_invalidate (address : Nat) :
    ∀ line way, ((cache.invalidate address).lineAt line way).valid = false := by
  intro line way
  exact Bool.eq_false_iff.mpr fun hvalid =>
    Bool.eq_false_iff.mp (h line way) ((cache.lineAt_invalidate address line way).2 hvalid)

theorem invalid_loadWord (address tries : Nat) (w : Word) :
    ∀ line way, ((Machine.loadWord cache address tries w).2.lineAt line way).valid = false :=
  invalid_invalidate h address

theorem invalid_loadFrom (tries start index : Nat) (words : List Word) :
    ∀ line way, ((Machine.loadFrom tries start index words cache).2.lineAt line way).valid =
      false := by
  induction words generalizing cache index with
  | nil => exact h
  | cons w rest ih =>
      have hnext := invalid_loadWord h ((start + index) % unsignedBound) tries w
      rcases hload :
        Machine.loadWord cache ((start + index) % unsignedBound) tries w with ⟨answer, next⟩
      rw [hload] at hnext
      simp only [Machine.loadFrom, hload]
      cases answer with
      | none => exact hnext
      | some done => exact ih hnext (index + 1)

end Invalid

end Cache

end PipelinedProcessor
