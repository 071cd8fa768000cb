import PipelinedProcessor.Proofs.Cache.Accesses
import PipelinedProcessor.Proofs.Memory.LiveStorage

namespace PipelinedProcessor

theorem CacheSet.hit?_clean (set : CacheSet) (way tag : Nat) :
    CacheSet.hit? (List.modify set way fun line => { line with dirty := false }) tag =
      set.hit? tag := by
  have htags : (List.modify set way fun line => { line with dirty := false }).map CacheLine.tag =
      set.map CacheLine.tag := by
    apply List.ext_getElem
    · simp
    · intro i h₁ h₂
      simp only [List.getElem_map, List.getElem_modify]
      split <;> rfl
  have hway : CacheSet.way? (List.modify set way fun line => { line with dirty := false }) tag =
      set.way? tag := by
    have hfind := congrArg (List.findIdx? fun found => decide (found = some tag)) htags
    rwa [List.findIdx?_map, List.findIdx?_map] at hfind
  have hvalid (other : Nat) :
      (CacheSet.lineAt (List.modify set way fun line => { line with dirty := false }) other).valid =
        (set.lineAt other).valid := by
    rw [lineAt_modify]
    split <;> rfl
  simp only [CacheSet.hit?, hway, hvalid]

namespace Cache

-- Where an issuer that misses a line turns to next, and whether another request follows. Before a
-- way is chosen for the line it turns nowhere.
def aimOfMiss (cache : Cache) (issuer : Stage) (tag : Nat) : Option (Nat × Bool) :=
  match cache.reservation issuer with
  | none => none
  | some held =>
    if held.tag = tag
      then some ((cache.lineAt tag held.way).owed?.elim (tag, false) (·, true)) else none

def bringsIn (cache : Cache) : Access → Bool
  | .read _ => true
  | .store _ _ => cache.writeAllocate
  | .writePartial _ _ => false

def aim (cache : Cache) (issuer : Stage) (access : Access) : Option (Nat × Bool) :=
  let tag := cache.memory.lineStart access.address
  match (cache.setOf tag).hit? tag with
  | some way => (cache.lineAt tag way).owed?.map (·, false)
  | none =>
    if cache.bringsIn access then cache.aimOfMiss issuer tag
    else some (cache.memory.wrap access.address, false)

def requestTries (delay : Nat) : Nat := delay + 2

-- How often an access that aims so has to be tried yet, at most.
def need (cache : Cache) (issuer : Stage) : Option (Nat × Bool) → Nat
  | none => 2 * requestTries cache.memory.delay + cache.memory.pending.elim 0 (·.remaining)
  | some (address, more) =>
    (if more then requestTries cache.memory.delay else 0) + cache.memory.left ⟨issuer, address⟩

-- An issuer waits for memory, and no line has come or gone.
structure Awaits (before after : Cache) (issuer : Stage) (address remaining : Nat) : Prop where
  pending_eq : after.memory.pending = some ⟨⟨issuer, address⟩, remaining⟩
  hit?_eq : ∀ tag, (after.setOf tag).hit? tag = (before.setOf tag).hit? tag
  lineCount_eq : after.memory.lineCount = before.memory.lineCount
  delay_eq : after.memory.delay = before.memory.delay
  writeAllocate_eq : after.writeAllocate = before.writeAllocate

-- What is left of bringing a line in when its way has been chosen.
def fillInto (cache : Cache) (issuer : Stage) (tag way : Nat) : Poll Nat × Cache :=
  match cache.writeBack issuer tag way with
  | (.wait, cache) => (.wait, cache)
  | (.done _, cache) =>
    match cache.onMemory fun memory => (memory.releaseOthers ⟨issuer, tag⟩).readLine issuer tag with
    | (.wait, cache) => (.wait, cache)
    | (.done line, cache) =>
      let filled := cache.modifySet tag fun set => set.install way line false
      (.done way, filled.countMiss.finish issuer)

theorem fill_eq (cache : Cache) (issuer : Stage) (tag : Nat) :
    cache.fill issuer tag =
      (cache.reserve issuer tag).2.fillInto issuer tag (cache.reserve issuer tag).1 := rfl

theorem awaits_withPending (cache : Cache) (issuer : Stage) (address remaining : Nat) :
    Awaits cache (cache.withPending (some ⟨⟨issuer, address⟩, remaining⟩))
      issuer address remaining :=
  ⟨rfl, fun _ => rfl, rfl, rfl, rfl⟩

section

variable {cache after : Cache} {issuer : Stage} {tag way : Nat}

theorem left_le (memory : MainMemory) (request : Request) :
    memory.left request ≤ memory.delay + 1 + memory.pending.elim 0 (·.remaining) := by
  unfold MainMemory.left
  split
  · omega
  · rename_i pending hpending
    rw [hpending, Option.elim_some]
    split <;> omega

theorem reserve_eq (cache : Cache) (issuer : Stage) (tag : Nat) :
    ∃ way, cache.reserve issuer tag = (way, cache.setReservation issuer (some ⟨tag, way⟩)) ∧
      (cache.setReservation issuer (some ⟨tag, way⟩) = cache ∨
        cache.aimOfMiss issuer tag = none) := by
  unfold reserve
  split
  · rename_i held hheld
    split
    · rename_i htag
      have hsame : cache.setReservation issuer (some ⟨tag, held.way⟩) = cache := by
        rw [← htag, ← hheld, setReservation_self]
      exact ⟨held.way, by rw [hsame], .inl hsame⟩
    · rename_i htag
      exact ⟨_, rfl, .inr (by simp only [aimOfMiss, hheld, htag, if_false])⟩
  · rename_i hheld
    exact ⟨_, rfl, .inr (by simp only [aimOfMiss, hheld])⟩

theorem aimOfMiss_of_held (hheld : cache.reservation issuer = some ⟨tag, way⟩) :
    cache.aimOfMiss issuer tag =
      some ((cache.lineAt tag way).owed?.elim (tag, false) (·, true)) := by
  simp only [aimOfMiss, hheld, if_true]

theorem owed?_cleaned (cache : Cache) (tag way old : Nat) :
    ((cache.cleaned tag way old).lineAt tag way).owed? = none := by
  show ((cache.modifySet tag fun set =>
    List.modify set way fun line => { line with dirty := false }).lineAt tag way).owed? = none
  rw [lineAt_modifySet, if_pos rfl, CacheSet.lineAt_modify]
  by_cases hlt : way < (cache.setOf tag).length
  · simp [hlt, CacheLine.owed?]
  · rw [if_neg (fun h => hlt h.2), CacheSet.lineAt_of_le (Nat.le_of_not_lt hlt)]
    rfl

theorem hit?_cleaned (cache : Cache) (tag way old other : Nat) :
    ((cache.cleaned tag way old).setOf other).hit? other = (cache.setOf other).hit? other := by
  show ((cache.modifySet tag fun set =>
    List.modify set way fun line => { line with dirty := false }).setOf other).hit? other = _
  rw [setOf_modifySet]
  split
  · exact CacheSet.hit?_clean _ _ _
  · rfl

-- Memory serves the issuer or nobody.

section

variable (hfree : cache.memory.FreeFor issuer)

include hfree

-- A line that memory has already is done at once. Another is written back before, in as many tries
-- as its request is due.
theorem writeBack_of_free (tag way : Nat) :
    ((cache.lineAt tag way).owed? = none ∧ cache.writeBack issuer tag way = (.done (), cache)) ∨
      ∃ old, (cache.lineAt tag way).owed? = some old ∧
        ((∃ r, cache.memory.due ⟨issuer, old⟩ = r + 1 ∧ cache.writeBack issuer tag way =
            (.wait, cache.withPending (some ⟨⟨issuer, old⟩, r⟩))) ∨
          cache.memory.due ⟨issuer, old⟩ = 0 ∧
            cache.writeBack issuer tag way = (.done (), cache.cleaned tag way old)) := by
  cases howed : (cache.lineAt tag way).owed? with
  | none => exact .inl ⟨rfl, by simp only [writeBack, howed]⟩
  | some old =>
      refine .inr ⟨old, rfl, ?_⟩
      simp only [writeBack, howed, onMemory_eq, MainMemory.writeLine]
      rcases MainMemory.renewed_of_turn issuer old
          (fun memory => ((), memory.putLine old (cache.lineAt tag way).line.words)) hfree with
        ⟨hdue, ha⟩ | ⟨r, hdue, ha⟩
      · exact .inr ⟨hdue, by simp only [ha]; rfl⟩
      · exact .inl ⟨r, hdue, by simp only [ha]; rfl⟩

theorem readLine_of_free (hresult : cache.onMemory (fun memory =>
      (memory.releaseOthers ⟨issuer, tag⟩).readLine issuer tag) = (.wait, after)) :
    ∃ r, cache.memory.due ⟨issuer, tag⟩ = r + 1 ∧
    after = cache.withPending (some ⟨⟨issuer, tag⟩, r⟩) := by
  simp only [onMemory_eq, MainMemory.readLine] at hresult
  rcases MainMemory.renewed_of_turn issuer tag
    (fun memory => (memory.peekLine tag, memory)) hfree with
    ⟨-, ha⟩ | ⟨r, hdue, ha⟩
  · rw [ha] at hresult
    cases (Prod.mk.inj hresult).1
  · rw [ha] at hresult
    obtain ⟨-, rfl⟩ := Prod.mk.inj hresult
    exact ⟨r, hdue, rfl⟩

theorem fillInto_of_free (hheld : cache.reservation issuer = some ⟨tag, way⟩)
    (hresult : cache.fillInto issuer tag way = (.wait, after)) :
    ∃ address more r, Awaits cache after issuer address r ∧
      after.aimOfMiss issuer tag = some (address, more) ∧
      (if more then requestTries cache.memory.delay else 0) + r <
        cache.need issuer (cache.aimOfMiss issuer tag) := by
  have hbefore := aimOfMiss_of_held hheld
  unfold fillInto at hresult
  rcases writeBack_of_free hfree tag way with ⟨howed, hw⟩ | ⟨old, howed, ⟨r, hdue, hw⟩ | ⟨-, hw⟩⟩
  · rw [hw] at hresult
    simp only at hresult
    split at hresult
    · rename_i waiting hread
      obtain ⟨-, rfl⟩ := Prod.mk.inj hresult
      obtain ⟨r, hdue, rfl⟩ := readLine_of_free hfree hread
      rw [howed] at hbefore
      refine ⟨tag, false, r, cache.awaits_withPending issuer _ r, hbefore, ?_⟩
      rw [hbefore]
      simpa [need] using MainMemory.lt_left_of_due hdue
    · cases (Prod.mk.inj hresult).1
  · rw [hw] at hresult
    obtain ⟨-, rfl⟩ := Prod.mk.inj hresult
    rw [howed] at hbefore
    refine ⟨old, true, r, cache.awaits_withPending issuer _ r, hbefore, ?_⟩
    rw [hbefore]
    simpa [need] using MainMemory.lt_left_of_due hdue
  · rw [hw] at hresult
    simp only at hresult
    split at hresult
    · rename_i waiting hread
      obtain ⟨-, rfl⟩ := Prod.mk.inj hresult
      have hidle : (cache.cleaned tag way old).memory.pending = none := rfl
      obtain ⟨r, hdue, rfl⟩ := readLine_of_free (MainMemory.freeFor_of_idle hidle issuer) hread
      refine ⟨tag, false, r, ⟨rfl, cache.hit?_cleaned tag way old, rfl, rfl, rfl⟩, ?_, ?_⟩
      · have hafter :
            ((cache.cleaned tag way old).withPending (some ⟨⟨issuer, tag⟩, r⟩)).reservation issuer =
            some ⟨tag, way⟩ := hheld
        rw [aimOfMiss_of_held hafter]
        show some (Option.elim ((cache.cleaned tag way old).lineAt tag way).owed? _ _) = _
        rw [owed?_cleaned]
        rfl
      · rw [hbefore, howed]
        have hanew : r < cache.memory.delay + 1 := MainMemory.lt_left_of_due hdue
        simp only [need, requestTries, Option.elim_some, if_true]
        simp only [Bool.false_eq_true, if_false]
        omega
    · cases (Prod.mk.inj hresult).1

-- Choosing a way does not put the end off.
omit hfree in
theorem need_reserve_le (cache : Cache) (issuer : Stage) (tag : Nat) :
    (cache.reserve issuer tag).2.need issuer ((cache.reserve issuer tag).2.aimOfMiss issuer tag) ≤
      cache.need issuer (cache.aimOfMiss issuer tag) := by
  obtain ⟨way, hreserve, hsame | hnone⟩ := cache.reserve_eq issuer tag
  · exact Nat.le_of_eq (by rw [hreserve, hsame])
  · have hheld : (cache.setReservation issuer (some ⟨tag, way⟩)).reservation issuer =
        some ⟨tag, way⟩ := by
      rw [reservation_setReservation, if_pos rfl]
    rw [hreserve, hnone, aimOfMiss_of_held hheld]
    have hneed (address : Nat) (more : Bool) :
        (cache.setReservation issuer (some ⟨tag, way⟩)).need issuer (some (address, more)) ≤
          cache.need issuer none := by
      have hleft := left_le cache.memory ⟨issuer, address⟩
      show (if more then requestTries cache.memory.delay else 0) +
        cache.memory.left ⟨issuer, address⟩ ≤ _
      simp only [need, requestTries]
      split <;> omega
    cases ((cache.setReservation issuer (some ⟨tag, way⟩)).lineAt tag way).owed? with
    | none => exact hneed tag false
    | some old => exact hneed old true

theorem fill_of_free (hresult : cache.fill issuer tag = (.wait, after)) :
    ∃ address more r, Awaits cache after issuer address r ∧
      after.aimOfMiss issuer tag = some (address, more) ∧
      (if more then requestTries cache.memory.delay else 0) + r <
        cache.need issuer (cache.aimOfMiss issuer tag) := by
  have hle := cache.need_reserve_le issuer tag
  obtain ⟨way, hreserve, -⟩ := cache.reserve_eq issuer tag
  rw [fill_eq, hreserve] at hresult
  rw [hreserve] at hle
  have hheld : (cache.setReservation issuer (some ⟨tag, way⟩)).reservation issuer =
      some ⟨tag, way⟩ := by
    rw [reservation_setReservation, if_pos rfl]
  have hfree' : (cache.setReservation issuer (some ⟨tag, way⟩)).memory.FreeFor issuer := hfree
  obtain ⟨address, more, r, hawaits, haim, hlt⟩ := fillInto_of_free hfree' hheld hresult
  exact ⟨address, more, r,
    ⟨hawaits.pending_eq, hawaits.hit?_eq, hawaits.lineCount_eq, hawaits.delay_eq,
    hawaits.writeAllocate_eq⟩, haim, Nat.lt_of_lt_of_le hlt hle⟩

theorem writePresent_of_free {offset : Nat} {data : List Word}
    (hresult : cache.writePresent issuer tag way offset data = (.wait, after)) :
    ∃ address r, Awaits cache after issuer address r ∧ (after.lineAt tag way).owed? = some address ∧
      r < cache.need issuer ((cache.lineAt tag way).owed?.map (·, false)) := by
  unfold writePresent at hresult
  rcases writeBack_of_free hfree tag way with ⟨howed, hw⟩ | ⟨old, howed, ⟨r, hdue, hw⟩ | ⟨-, hw⟩⟩
  · rw [hw] at hresult
    cases (Prod.mk.inj hresult).1
  · rw [hw] at hresult
    obtain ⟨-, rfl⟩ := Prod.mk.inj hresult
    refine ⟨old, r, cache.awaits_withPending issuer _ r, howed, ?_⟩
    rw [howed]
    simpa [need] using MainMemory.lt_left_of_due hdue
  · rw [hw] at hresult
    cases (Prod.mk.inj hresult).1

end

-- Memory serves another issuer.

section

variable {other : Stage} (howner : cache.memory.owner = some other) (hne : other ≠ issuer)

include howner hne

theorem renewed_of_owner {α : Type} (address : Nat) (serve : MainMemory → α × MainMemory) :
    (cache.memory.releaseOthers ⟨issuer, address⟩).access issuer address serve =
      (.wait, cache.memory) := by
  obtain ⟨pending, hpending, hissuer⟩ := MainMemory.owner_eq_some.mp howner
  exact MainMemory.renewed_of_busy issuer address serve hpending (hissuer ▸ hne)

theorem writeBack_of_owner (tag way : Nat) :
    ((cache.lineAt tag way).owed? = none ∧ cache.writeBack issuer tag way = (.done (), cache)) ∨
      (∃ old, (cache.lineAt tag way).owed? = some old) ∧
        cache.writeBack issuer tag way = (.wait, cache) := by
  cases howed : (cache.lineAt tag way).owed? with
  | none => exact .inl ⟨rfl, by simp only [writeBack, howed]⟩
  | some old =>
      refine .inr ⟨⟨old, rfl⟩, ?_⟩
      simp only [writeBack, howed, onMemory_eq, MainMemory.writeLine, renewed_of_owner howner hne]

theorem fill_of_owner (tag : Nat) :
    ∃ reservation, cache.fill issuer tag = (.wait, cache.setReservation issuer reservation) := by
  obtain ⟨way, hreserve, -⟩ := cache.reserve_eq issuer tag
  refine ⟨some ⟨tag, way⟩, ?_⟩
  rw [fill_eq, hreserve]
  unfold fillInto
  have howner' : (cache.setReservation issuer (some ⟨tag, way⟩)).memory.owner = some other := howner
  rcases writeBack_of_owner howner' hne tag way with
    ⟨howed, hw⟩ | ⟨-, hw⟩
  · rw [hw]
    simp only [onMemory_eq, MainMemory.readLine]
    rw [show (cache.setReservation issuer (some ⟨tag, way⟩)).memory = cache.memory from rfl,
      renewed_of_owner howner hne]
    rfl
  · rw [hw]

end

-- What an access that is done leaves of its issuer.

theorem owner_release {memory : MainMemory} {stage : Stage}
    (h : (memory.release issuer).owner = some stage) :
    stage ≠ issuer ∧ memory.owner = some stage := by
  unfold MainMemory.release at h
  split at h
  · cases h
  · rename_i hother
    refine ⟨?_, h⟩
    rintro rfl
    obtain ⟨pending, hpending, hissuer⟩ := MainMemory.owner_eq_some.mp h
    simp [hpending, hissuer] at hother

def Leaves (before after : Cache) (issuer : Stage) : Prop :=
  ∀ stage, after.memory.owner = some stage → stage ≠ issuer ∧ before.memory.owner = some stage

theorem leaves_finish (cache : Cache) (issuer : Stage) :
    Leaves cache (cache.finish issuer) issuer :=
  fun _ hstage => owner_release hstage

theorem leaves_of_idle (cache : Cache) (issuer : Stage) (h : after.memory.pending = none) :
    Leaves cache after issuer := by
  intro stage hstage
  rw [MainMemory.owner, h] at hstage
  cases hstage

theorem fill_done (hresult : cache.fill issuer tag = (.done way, after)) :
    Leaves cache after issuer ∧ (after.lineAt tag way).owed? = none := by
  rw [fill_eq] at hresult
  generalize (cache.reserve issuer tag).2 = reserved at hresult
  generalize (cache.reserve issuer tag).1 = chosen at hresult
  unfold fillInto at hresult
  split at hresult
  · cases (Prod.mk.inj hresult).1
  · rename_i written hwrite
    simp only [onMemory_eq, MainMemory.readLine] at hresult
    rcases written.memory.renewed_access_cases issuer tag
        (fun memory => (memory.peekLine tag, memory)) with ⟨pending, ha⟩ | ha
    · rw [ha] at hresult
      cases (Prod.mk.inj hresult).1
    · rw [ha] at hresult
      obtain ⟨hway, rfl⟩ := Prod.mk.inj hresult
      obtain rfl := Poll.done.inj hway
      refine ⟨leaves_of_idle _ _ rfl, ?_⟩
      show (((written.withPending none).modifySet tag fun set =>
        set.install chosen (written.memory.peekLine tag) false).lineAt tag chosen).owed? = none
      rw [lineAt_modifySet, if_pos rfl]
      by_cases hlt : chosen < ((written.withPending none).setOf tag).length
      · have hchanges := CacheSet.install_changes _ hlt (written.memory.peekLine tag) false
        simp [CacheLine.owed?, hchanges.dirty_eq]
      · rw [CacheSet.lineAt_of_le (by simpa using hlt)]
        rfl

theorem writePresent_of_clean (issuer : Stage) (offset : Nat) (data : List Word)
    (hclean : (cache.lineAt tag way).owed? = none) :
    ∃ changed, cache.writePresent issuer tag way offset data =
      (.done (fitting offset data), changed) ∧
      Leaves cache changed issuer := by
  simp only [writePresent, writeBack, hclean]
  exact ⟨_, rfl, leaves_finish _ _⟩

theorem writePresent_done {offset count : Nat} {data : List Word}
    (hresult : cache.writePresent issuer tag way offset data = (.done count, after)) :
    Leaves cache after issuer := by
  unfold writePresent at hresult
  rcases cache.writeBack_cases issuer tag way with ⟨-, hw⟩ | ⟨old, -, ⟨pending, hw⟩ | hw⟩
  · rw [hw] at hresult
    obtain ⟨-, rfl⟩ := Prod.mk.inj hresult
    exact leaves_finish _ _
  · rw [hw] at hresult
    cases (Prod.mk.inj hresult).1
  · rw [hw] at hresult
    obtain ⟨-, rfl⟩ := Prod.mk.inj hresult
    exact leaves_of_idle _ _ rfl

end

-- A try that has to wait does so for a line that is brought in, for one that is written back, or
-- for memory alone.
inductive Waiting (cache : Cache) (issuer : Stage) (access : Access) (after : Cache) : Prop where
  | bringsIn (hmiss : (cache.setOf (cache.memory.lineStart access.address)).hit?
      (cache.memory.lineStart access.address) = none)
      (hbrings : cache.bringsIn access = true)
      (hfill : cache.fill issuer (cache.memory.lineStart access.address) = (.wait, after))
  | writesBack (way offset : Nat) (data : List Word)
      (hhit : (cache.setOf (cache.memory.lineStart access.address)).hit?
        (cache.memory.lineStart access.address) = some way)
      (hwrite : cache.writePresent issuer (cache.memory.lineStart access.address) way offset data =
        (.wait, after))
  | passesOn (data : List Word)
      (hmiss : (cache.setOf (cache.memory.lineStart access.address)).hit?
        (cache.memory.lineStart access.address) = none)
      (hbrings : cache.bringsIn access = false)
      (haccess : cache.onMemory (fun memory =>
        (memory.releaseOthers ⟨issuer, cache.memory.wrap access.address⟩).writePartial issuer
          (cache.memory.wrap access.address) data) = (.wait, after))

-- What a try comes to.
def Tried (cache : Cache) (issuer : Stage) (access : Access) : Bool × Cache → Prop
  | (true, after) => Leaves cache after issuer
  | (false, after) => Waiting cache issuer access after

theorem resolve_done {cache after : Cache} {issuer : Stage} {tag way : Nat}
    (hresult : cache.resolve issuer tag = (.done way, after)) : Leaves cache after issuer := by
  unfold resolve at hresult
  split at hresult
  · obtain ⟨-, rfl⟩ := Prod.mk.inj hresult
    exact leaves_finish _ _
  · exact (fill_done hresult).1

theorem fill_of_resolve {cache after : Cache} {issuer : Stage} {tag : Nat}
    (hresult : cache.resolve issuer tag = (.wait, after)) :
    (cache.setOf tag).hit? tag = none ∧ cache.fill issuer tag = (.wait, after) := by
  unfold resolve at hresult
  split at hresult
  · cases (Prod.mk.inj hresult).1
  · rename_i hmiss
    exact ⟨hmiss, hresult⟩

theorem read_tried (cache : Cache) (issuer : Stage) (address : Nat) :
    Tried cache issuer (.read address)
      ((cache.read issuer address).1.isDone, (cache.read issuer address).2) := by
  rcases hresolve : cache.resolve issuer (cache.memory.lineStart address) with ⟨found, resolved⟩
  cases found with
  | wait =>
      simp only [read, hresolve]
      exact Waiting.bringsIn (fill_of_resolve hresolve).1 rfl (fill_of_resolve hresolve).2
  | done way =>
      simp only [read, hresolve]
      exact resolve_done hresolve

theorem writePartial_tried (cache : Cache) (issuer : Stage) (access : Access) (data : List Word)
    (hbrings : cache.bringsIn access = false) :
    Tried cache issuer access ((cache.writePartial issuer access.address data).1.isDone,
      (cache.writePartial issuer access.address data).2) := by
  unfold writePartial
  simp only
  split
  · rename_i way hhit
    rcases hwrite : cache.writePresent issuer (cache.memory.lineStart access.address) way
      (cache.memory.offset access.address) data with ⟨answer, written⟩
    cases answer with
    | wait => exact Waiting.writesBack way _ data hhit hwrite
    | done count =>
        have hleaves : Leaves cache written issuer := writePresent_done hwrite
        exact hleaves
  · rename_i hmiss
    rw [onMemory_eq]
    rcases cache.memory.renewed_access_cases issuer (cache.memory.wrap access.address)
      (fun memory =>
        (fitting (memory.offset (cache.memory.wrap access.address)) data,
          memory.putLine (cache.memory.wrap access.address) (patch
            (memory.peekWords (cache.memory.wrap access.address))
            (memory.offset (cache.memory.wrap access.address)) data))) with ⟨pending, ha⟩ | ha
    · simp only [MainMemory.writePartial, ha]
      refine Waiting.passesOn data hmiss hbrings ?_
      rw [onMemory_eq, MainMemory.writePartial, ha]
    · simp only [MainMemory.writePartial, ha]
      exact leaves_of_idle _ _ rfl

theorem store_tried (cache : Cache) (issuer : Stage) (address : Nat) (w : Word) :
    Tried cache issuer (.store address w)
      ((cache.store issuer address w).1.isDone, (cache.store issuer address w).2) := by
  rw [store_eq]
  cases hallocate : cache.writeAllocate with
  | false =>
      have htried := writePartial_tried cache issuer (.store address w) [w] hallocate
      rw [if_neg (by decide), write, Poll.isDone_map]
      exact htried
  | true =>
      rw [if_pos rfl, bringIn]
      cases hhit :
        (cache.setOf (cache.memory.lineStart address)).hit? (cache.memory.lineStart address) with
      | some way =>
          simp only [Poll.isDone_map]
          rcases hwrite : cache.writePresent issuer (cache.memory.lineStart address) way
            (cache.memory.offset address) [w] with ⟨answer, written⟩
          cases answer with
          | wait => exact Waiting.writesBack way _ [w] hhit hwrite
          | done count => exact writePresent_done hwrite
      | none =>
          simp only
          rcases hfill : cache.fill issuer (cache.memory.lineStart address) with ⟨found, filled⟩
          cases found with
          | wait => exact Waiting.bringsIn hhit hallocate hfill
          | done way =>
              obtain ⟨hleaves, hclean⟩ := fill_done hfill
              obtain ⟨changed, hwrite, hafter⟩ := writePresent_of_clean issuer
                (cache.memory.offset address) [w] hclean
              simp only [hwrite]
              exact fun stage hstage => hleaves stage (hafter stage hstage).2

theorem tried (cache : Cache) (issuer : Stage) (access : Access) :
    Tried cache issuer access (access.attempt cache issuer) := by
  cases access with
  | read address => exact read_tried cache issuer address
  | store address w => exact store_tried cache issuer address w
  | writePartial address data =>
      exact writePartial_tried cache issuer (.writePartial address data) data rfl

section

variable {cache after : Cache} {issuer : Stage} {access : Access}

theorem need_of_awaits {address remaining : Nat} {more : Bool}
    (h : Awaits cache after issuer address remaining) :
    after.need issuer (some (address, more)) =
      (if more then requestTries cache.memory.delay else 0) + remaining := by
  have hleft : after.memory.left ⟨issuer, address⟩ = remaining := by
    simp only [MainMemory.left, h.pending_eq, if_true]
  rw [need, hleft, h.delay_eq]

-- Memory serves the issuer or nobody, and the end comes nearer.
theorem Waiting.nearer (h : Waiting cache issuer access after)
    (hfree : cache.memory.FreeFor issuer) : after.memory.owner = some issuer ∧
      after.need issuer (after.aim issuer access) <
        cache.need issuer (cache.aim issuer access) := by
  have hsame {address remaining : Nat} (hawaits : Awaits cache after issuer address remaining) :
      after.memory.owner = some issuer ∧
        after.memory.lineStart access.address = cache.memory.lineStart access.address ∧
        (after.setOf (cache.memory.lineStart access.address)).hit?
          (cache.memory.lineStart access.address) =
          (cache.setOf (cache.memory.lineStart access.address)).hit?
            (cache.memory.lineStart access.address) ∧
        after.bringsIn access = cache.bringsIn access := by
    refine ⟨?_, lineStart_congr hawaits.lineCount_eq _, hawaits.hit?_eq _, ?_⟩
    · rw [MainMemory.owner, hawaits.pending_eq]
      rfl
    · cases access with
      | read address => rfl
      | store address w => exact hawaits.writeAllocate_eq
      | writePartial address data => rfl
  cases h with
  | bringsIn hmiss hbrings hfill =>
      obtain ⟨address, more, r, hawaits, haim, hlt⟩ := fill_of_free hfree hfill
      obtain ⟨howner, hline, hhit, hagain⟩ := hsame hawaits
      refine ⟨howner, ?_⟩
      simp only [aim, hline, hhit, hmiss, hagain, hbrings, if_true]
      rw [haim, need_of_awaits hawaits]
      exact hlt
  | writesBack way offset data hhit hwrite =>
      obtain ⟨address, r, hawaits, howed, hlt⟩ := writePresent_of_free hfree hwrite
      obtain ⟨howner, hline, hhit', -⟩ := hsame hawaits
      refine ⟨howner, ?_⟩
      simp only [aim, hline, hhit', hhit]
      rw [howed, Option.map_some, need_of_awaits hawaits]
      simpa using hlt
  | passesOn data hmiss hbrings haccess =>
      rw [onMemory_eq] at haccess
      rcases MainMemory.renewed_of_free issuer (cache.memory.wrap access.address) (fun memory =>
          (fitting (memory.offset (cache.memory.wrap access.address)) data,
            memory.putLine (cache.memory.wrap access.address) (patch
              (memory.peekWords (cache.memory.wrap access.address))
              (memory.offset (cache.memory.wrap access.address)) data)))
              hfree with ⟨r, hlt, ha⟩ | ha
      · rw [MainMemory.writePartial, ha] at haccess
        have hafter := (Prod.mk.inj haccess).2
        have hawaits : Awaits cache after issuer (cache.memory.wrap access.address) r :=
          hafter ▸ cache.awaits_withPending issuer _ r
        have hwrap : after.memory.wrap access.address = cache.memory.wrap access.address := by
          rw [← hafter]
          rfl
        obtain ⟨howner, hline, hhit, hagain⟩ := hsame hawaits
        refine ⟨howner, ?_⟩
        simp only [aim, hline, hhit, hmiss, hagain, hbrings, hwrap, Bool.false_eq_true, if_false]
        rw [need_of_awaits hawaits]
        simpa [need] using hlt
      · rw [MainMemory.writePartial, ha] at haccess
        cases (Prod.mk.inj haccess).1

-- Memory serves another issuer, and nothing changes for that one.
theorem Waiting.unmoved (h : Waiting cache issuer access after) {other : Stage}
    (howner : cache.memory.owner = some other) (hne : other ≠ issuer) :
    ∃ reservation, after = cache.setReservation issuer reservation := by
  have hkept : ∃ reservation, cache = cache.setReservation issuer reservation :=
    ⟨_, (cache.setReservation_self issuer).symm⟩
  cases h with
  | bringsIn hmiss hbrings hfill =>
      obtain ⟨reservation, hwait⟩ :=
        fill_of_owner howner hne (cache.memory.lineStart access.address)
      exact ⟨reservation, (Prod.mk.inj (hfill.symm.trans hwait)).2⟩
  | writesBack way offset data hhit hwrite =>
      unfold writePresent at hwrite
      rcases writeBack_of_owner howner hne (cache.memory.lineStart access.address)
        way with ⟨-, hw⟩ | ⟨-, hw⟩
      · rw [hw] at hwrite
        cases (Prod.mk.inj hwrite).1
      · rw [hw] at hwrite
        obtain ⟨-, rfl⟩ := Prod.mk.inj hwrite
        exact hkept
  | passesOn data hmiss hbrings haccess =>
      rw [onMemory_eq, MainMemory.writePartial, renewed_of_owner howner hne] at haccess
      obtain ⟨-, rfl⟩ := Prod.mk.inj haccess
      exact hkept

theorem aim_setReservation {other : Stage} (hne : other ≠ issuer)
    (reservation : Option Reservation) :
    (cache.setReservation issuer reservation).aim other access = cache.aim other access := by
  have hheld : (cache.setReservation issuer reservation).reservation other =
      cache.reservation other := by
    rw [reservation_setReservation, if_neg (Ne.symm hne)]
  have hmissed (tag : Nat) :
      (cache.setReservation issuer reservation).aimOfMiss other tag =
        cache.aimOfMiss other tag := by
    rw [aimOfMiss, hheld]
    rfl
  rw [aim, hmissed]
  cases access <;> rfl

theorem need_of_idle (howner : cache.memory.owner = none) (target : Option (Nat × Bool)) :
    cache.need issuer target < 2 * requestTries cache.memory.delay + 1 := by
  have hpending := MainMemory.owner_eq_none.mp howner
  cases target with
  | none =>
      rw [need, hpending, Option.elim_none]
      omega
  | some target =>
      have hleft := left_le cache.memory ⟨issuer, target.1⟩
      rw [hpending, Option.elim_none] at hleft
      simp only [need, requestTries]
      split <;> omega

end

end Cache

instance : LiveStorage Cache where
  owner cache := cache.memory.owner
  Attends _ _ _ := True
  idle cache := 2 * Cache.requestTries cache.memory.delay + 1
  patience cache issuer access := cache.need issuer (cache.aim issuer access)
  wait_own := by
    intro cache after issuer access howner hwait
    have htried := cache.tried issuer access
    rw [hwait] at htried
    have hfree : cache.memory.FreeFor issuer := by
      intro pending hpending
      rcases howner with hnone | ⟨hsome, -⟩
      · rw [MainMemory.owner_eq_none, hpending] at hnone
        cases hnone
      · obtain ⟨found, hfound, hissuer⟩ := MainMemory.owner_eq_some.mp hsome
        obtain rfl := Option.some.inj (hpending.symm.trans hfound)
        exact hissuer
    obtain ⟨hafter, hlt⟩ := Cache.Waiting.nearer htried hfree
    refine ⟨hafter, trivial, ?_⟩
    split
    · rename_i hnone
      exact Nat.lt_trans hlt (Cache.need_of_idle hnone _)
    · exact hlt
  wait_other := by
    intro cache after issuer other access howner hne hwait
    have htried := cache.tried issuer access
    rw [hwait] at htried
    obtain ⟨reservation, rfl⟩ := Cache.Waiting.unmoved htried howner hne
    refine ⟨howner, ?_⟩
    intro a _
    rw [Cache.aim_setReservation hne]
    exact ⟨trivial, Nat.le_refl _⟩
  done := by
    intro cache after issuer other access hdone howner
    have htried := cache.tried issuer access
    rw [hdone] at htried
    obtain ⟨hne, hbefore⟩ := htried other howner
    exact ⟨hne, hbefore, fun _ _ => trivial⟩

end PipelinedProcessor
