import PipelinedProcessor.Proofs.Cache.MemoryInvariants
import PipelinedProcessor.Proofs.Memory.Protocol

namespace PipelinedProcessor

namespace Cache

-- How often the words of a way have to wait on their way back to memory.
def saveWaits (cache : Cache) (issuer : Stage) (tag way : Nat) : Nat :=
  (cache.lineAt tag way).owed?.elim 0 fun old => cache.memory.due ⟨issuer, old⟩

-- How often a line has to wait that comes into a way, for the words that are there and for its own.
def intoWaits (cache : Cache) (issuer : Stage) (tag way : Nat) : Nat :=
  match (cache.lineAt tag way).owed? with
  | none => cache.memory.due ⟨issuer, tag⟩
  | some old => cache.memory.due ⟨issuer, old⟩ + cache.memory.delay

def fillWaits (cache : Cache) (issuer : Stage) (tag : Nat) : Nat :=
  cache.intoWaits issuer tag (cache.reserve issuer tag).1

def readWaits (cache : Cache) (issuer : Stage) (address : Nat) : Nat :=
  let tag := cache.memory.lineStart address
  ((cache.setOf tag).hit? tag).elim (cache.fillWaits issuer tag) fun _ => 0

def writeWaits (cache : Cache) (issuer : Stage) (address : Nat) : Nat :=
  let tag := cache.memory.lineStart address
  ((cache.setOf tag).hit? tag).elim (cache.memory.due ⟨issuer, cache.memory.wrap address⟩)
    (cache.saveWaits issuer tag)

def storeWaits (cache : Cache) (issuer : Stage) (address : Nat) : Nat :=
  let tag := cache.memory.lineStart address
  ((cache.setOf tag).hit? tag).elim
    (if cache.writeAllocate then cache.fillWaits issuer tag
      else cache.memory.due ⟨issuer, cache.memory.wrap address⟩) (cache.saveWaits issuer tag)

def putLineWaits (cache : Cache) (issuer : Stage) (address : Nat) : Nat :=
  let tag := cache.memory.lineStart address
  cache.saveWaits issuer tag (cache.placeFor issuer tag).1

-- What a try comes to of an access that has to wait so often. After a try that waits it has to do
-- so once less.
def Counted {α : Type} (cache : Cache) (issuer : Stage) (waits : Cache → Nat) :
    Poll α × Cache → Prop
  | (.wait, after) =>
    (∃ address r, Awaits cache after issuer address r) ∧ waits after + 1 = waits cache
  | (.done _, _) => waits cache = 0

section

variable {cache after : Cache} {issuer : Stage} {tag way address : Nat} {waits : Cache → Nat}

theorem Counted.map {α β : Type} {result : Poll α × Cache} (h : Counted cache issuer waits result)
    (f : α → β) :
    Counted cache issuer waits (result.1.map f, result.2) := by
  obtain ⟨answer, after⟩ := result
  cases answer <;> exact h

-- The number may be told in another way that agrees with it before and after.
theorem Counted.congr {α : Type} {result : Poll α × Cache} (waits' : Cache → Nat)
    (h : Counted cache issuer waits result) (hbefore : waits' cache = waits cache)
    (hafter : ∀ {address r : Nat}, Awaits cache result.2 issuer address r →
      waits' result.2 = waits result.2) :
    Counted cache issuer waits' result := by
  obtain ⟨answer, after⟩ := result
  cases answer with
  | wait =>
      obtain ⟨⟨address, r, hawaits⟩, hwaits⟩ := h
      exact ⟨⟨address, r, hawaits⟩, by rw [hafter hawaits, hbefore, hwaits]⟩
  | done value => exact hbefore.trans h

section

variable (htag : cache.memory.lineStart address = tag)

include htag

theorem readWaits_of_miss (hmiss : (cache.setOf tag).hit? tag = none) :
    cache.readWaits issuer address = cache.fillWaits issuer tag := by
  simp only [readWaits, htag, hmiss, Option.elim_none]

theorem writeWaits_of_hit (hhit : (cache.setOf tag).hit? tag = some way) :
    cache.writeWaits issuer address = cache.saveWaits issuer tag way := by
  simp only [writeWaits, htag, hhit, Option.elim_some]

theorem storeWaits_of_hit (hhit : (cache.setOf tag).hit? tag = some way) :
    cache.storeWaits issuer address = cache.saveWaits issuer tag way := by
  simp only [storeWaits, htag, hhit, Option.elim_some]

theorem storeWaits_of_miss (hallocate : cache.writeAllocate = true)
    (hmiss : (cache.setOf tag).hit? tag = none) :
    cache.storeWaits issuer address = cache.fillWaits issuer tag := by
  simp only [storeWaits, htag, hmiss, Option.elim_none, hallocate, if_true]

end

theorem storeWaits_of_around (hallocate : cache.writeAllocate = false) (issuer : Stage)
    (address : Nat) :
    cache.storeWaits issuer address = cache.writeWaits issuer address := by
  simp only [storeWaits, writeWaits, hallocate, Bool.false_eq_true, if_false]

theorem due_withPending (cache : Cache) (request : Request) (r : Nat) :
    (cache.withPending (some ⟨request, r⟩)).memory.due request = r := MainMemory.due_of_pending rfl

theorem reserve_of_held (h : cache.reservation issuer = some ⟨tag, way⟩) :
    cache.reserve issuer tag = (way, cache) := by
  unfold reserve
  rw [h]
  exact if_pos rfl

section

variable (hfree : cache.memory.FreeFor issuer)

include hfree

theorem writePresent_counted (tag way offset : Nat) (data : List Word) :
    Counted cache issuer (·.saveWaits issuer tag way)
      (cache.writePresent issuer tag way offset data) := by
  unfold writePresent
  rcases writeBack_of_free hfree tag way with ⟨howed, hw⟩ | ⟨old, howed, ⟨r, hdue, hw⟩ | ⟨hdue, hw⟩⟩
  · rw [hw]
    exact congrArg (Option.elim · 0 _) howed
  · rw [hw]
    refine ⟨⟨old, r, cache.awaits_withPending issuer old r⟩, ?_⟩
    have hafter : ((cache.withPending (some ⟨⟨issuer, old⟩, r⟩)).lineAt tag way).owed? = some old :=
      howed
    simp only [saveWaits, howed, hafter, Option.elim_some, due_withPending, hdue]
  · rw [hw]
    show cache.saveWaits issuer tag way = 0
    simp only [saveWaits, howed, Option.elim_some, hdue]

theorem fillInto_wait (hresult : cache.fillInto issuer tag way = (.wait, after)) :
    (∃ address r, Awaits cache after issuer address r) ∧
    after.reservation issuer = cache.reservation issuer ∧
      after.intoWaits issuer tag way + 1 = cache.intoWaits issuer tag way := by
  unfold fillInto at hresult
  rcases writeBack_of_free hfree tag way with ⟨howed, hw⟩ | ⟨old, howed, ⟨r, hdue, hw⟩ | ⟨hdue, hw⟩⟩
  · rw [hw] at hresult
    simp only at hresult
    split at hresult
    · rename_i waiting hread
      obtain ⟨-, rfl⟩ := Prod.mk.inj hresult
      obtain ⟨r, hdue, rfl⟩ := readLine_of_free hfree hread
      refine ⟨⟨tag, r, cache.awaits_withPending issuer _ r⟩, rfl, ?_⟩
      have hafter : ((cache.withPending (some ⟨⟨issuer, tag⟩, r⟩)).lineAt tag way).owed? = none :=
        howed
      simp only [intoWaits, howed, hafter, due_withPending, hdue]
    · cases (Prod.mk.inj hresult).1
  · rw [hw] at hresult
    obtain ⟨-, rfl⟩ := Prod.mk.inj hresult
    refine ⟨⟨old, r, cache.awaits_withPending issuer _ r⟩, rfl, ?_⟩
    have hafter : ((cache.withPending (some ⟨⟨issuer, old⟩, r⟩)).lineAt tag way).owed? = some old :=
      howed
    have hdelay : (cache.withPending (some ⟨⟨issuer, old⟩, r⟩)).memory.delay =
        cache.memory.delay := rfl
    simp only [intoWaits, howed, hafter, due_withPending, hdue, hdelay]
    omega
  · -- The words that were there are saved, and in the same try the line is asked for.
    rw [hw] at hresult
    simp only at hresult
    split at hresult
    · rename_i waiting hread
      obtain ⟨-, rfl⟩ := Prod.mk.inj hresult
      have hidle : (cache.cleaned tag way old).memory.pending = none := rfl
      obtain ⟨r, hbegun, rfl⟩ := readLine_of_free (MainMemory.freeFor_of_idle hidle issuer) hread
      refine ⟨⟨tag, r, rfl, cache.hit?_cleaned tag way old, rfl, rfl, rfl⟩, rfl, ?_⟩
      have hafter :
          (((cache.cleaned tag way old).withPending (some ⟨⟨issuer, tag⟩, r⟩)).lineAt tag
            way).owed? =
          none := cache.owed?_cleaned tag way old
      have hdelay : cache.memory.delay = r + 1 := hbegun
      simp only [intoWaits, howed, hafter, due_withPending, hdue, hdelay, Nat.zero_add]
    · cases (Prod.mk.inj hresult).1

theorem fillInto_done {found : Nat}
    (hresult : cache.fillInto issuer tag way = (.done found, after)) :
    cache.intoWaits issuer tag way = 0 := by
  unfold fillInto at hresult
  rcases writeBack_of_free hfree tag way with ⟨howed, hw⟩ | ⟨old, howed, ⟨r, hdue, hw⟩ | ⟨hdue, hw⟩⟩
  · rw [hw] at hresult
    simp only [onMemory_eq, MainMemory.readLine] at hresult
    simp only [intoWaits, howed]
    rcases MainMemory.renewed_of_turn issuer tag
      (fun memory => (memory.peekLine tag, memory)) hfree with
      ⟨hzero, -⟩ | ⟨r, -, ha⟩
    · exact hzero
    · rw [ha] at hresult
      cases (Prod.mk.inj hresult).1
  · rw [hw] at hresult
    cases (Prod.mk.inj hresult).1
  · rw [hw] at hresult
    simp only [onMemory_eq, MainMemory.readLine] at hresult
    simp only [intoWaits, howed, hdue, Nat.zero_add]
    have hidle : (cache.cleaned tag way old).memory.pending = none := rfl
    rcases MainMemory.renewed_of_turn issuer tag (fun memory => (memory.peekLine tag, memory))
        (MainMemory.freeFor_of_idle hidle issuer) with ⟨hzero, -⟩ | ⟨r, -, ha⟩
    · exact hzero
    · rw [ha] at hresult
      cases (Prod.mk.inj hresult).1

theorem fill_counted (tag : Nat) :
    Counted cache issuer (·.fillWaits issuer tag) (cache.fill issuer tag) := by
  obtain ⟨way, hreserve, -⟩ := cache.reserve_eq issuer tag
  have hchosen : cache.fillWaits issuer tag =
      (cache.setReservation issuer (some ⟨tag, way⟩)).intoWaits issuer tag way := by
    rw [fillWaits, hreserve]
    rfl
  have hfree' : (cache.setReservation issuer (some ⟨tag, way⟩)).memory.FreeFor issuer := hfree
  rw [fill_eq, hreserve]
  rcases hresult :
    (cache.setReservation issuer (some ⟨tag, way⟩)).fillInto issuer tag way with ⟨answer, after⟩
  cases answer with
  | wait =>
      obtain ⟨⟨address, r, hawaits⟩, hkept, hwaits⟩ := fillInto_wait hfree' hresult
      refine ⟨⟨address, r, hawaits.pending_eq, hawaits.hit?_eq, hawaits.lineCount_eq,
        hawaits.delay_eq, hawaits.writeAllocate_eq⟩, ?_⟩
      have hheld : after.reservation issuer = some ⟨tag, way⟩ := by
        rw [hkept, reservation_setReservation, if_pos rfl]
      show after.fillWaits issuer tag + 1 = cache.fillWaits issuer tag
      rw [fillWaits, reserve_of_held hheld, hwaits, hchosen]
  | done found => exact hchosen.trans (fillInto_done hfree' hresult)

theorem readLine_counted (address : Nat) :
    Counted cache issuer (·.readWaits issuer address) (cache.readLine issuer address) := by
  cases hhit :
    (cache.setOf (cache.memory.lineStart address)).hit? (cache.memory.lineStart address) with
  | some way =>
      simp only [readLine, resolve, hhit]
      show cache.readWaits issuer address = 0
      simp only [readWaits, hhit, Option.elim_some]
  | none =>
      have hcounted :=
        (fill_counted hfree (cache.memory.lineStart address)).congr (·.readWaits issuer address)
        (readWaits_of_miss rfl hhit) fun hawaits =>
          readWaits_of_miss (lineStart_congr hawaits.lineCount_eq address)
            ((hawaits.hit?_eq _).trans hhit)
      simp only [readLine, resolve, hhit]
      rcases hfill : cache.fill issuer (cache.memory.lineStart address) with ⟨answer, after⟩
      rw [hfill] at hcounted
      cases answer <;> exact hcounted

theorem writePartial_counted (address : Nat) (data : List Word) :
    Counted cache issuer (·.writeWaits issuer address)
      (cache.writePartial issuer address data) := by
  cases hhit :
    (cache.setOf (cache.memory.lineStart address)).hit? (cache.memory.lineStart address) with
  | some way =>
      have hcounted := (writePresent_counted hfree (cache.memory.lineStart address) way
        (cache.memory.offset address) data).congr (·.writeWaits issuer address)
        (writeWaits_of_hit rfl hhit)
          fun hawaits => writeWaits_of_hit (lineStart_congr hawaits.lineCount_eq address)
            ((hawaits.hit?_eq _).trans hhit)
      simp only [writePartial, hhit]
      rcases hwrite : cache.writePresent issuer (cache.memory.lineStart address) way
        (cache.memory.offset address) data with ⟨answer, after⟩
      rw [hwrite] at hcounted
      cases answer <;> exact hcounted
  | none =>
      have hbefore : cache.writeWaits issuer address =
          cache.memory.due ⟨issuer, cache.memory.wrap address⟩ := by
        simp only [writeWaits, hhit, Option.elim_none]
      simp only [writePartial, hhit, onMemory_eq, MainMemory.writePartial]
      rcases MainMemory.renewed_of_turn issuer (cache.memory.wrap address) (fun memory =>
          (fitting (memory.offset (cache.memory.wrap address)) data,
            memory.putLine (cache.memory.wrap address)
            (patch (memory.peekWords (cache.memory.wrap address))
              (memory.offset (cache.memory.wrap address)) data))) hfree with
        ⟨hdue, ha⟩ | ⟨r, hdue, ha⟩
      · rw [ha]
        exact hbefore.trans hdue
      · rw [ha]
        refine ⟨⟨_, r, cache.awaits_withPending issuer _ r⟩, ?_⟩
        have hafter :
            (cache.withPending (some ⟨⟨issuer, cache.memory.wrap address⟩, r⟩)).writeWaits
              issuer address =
            (cache.withPending (some ⟨⟨issuer, cache.memory.wrap address⟩, r⟩)).memory.due
              ⟨issuer, cache.memory.wrap address⟩ := congrArg (Option.elim · _ _) hhit
        rw [due_withPending] at hafter
        exact (congrArg (· + 1) hafter).trans (hdue.symm.trans hbefore.symm)

-- A line that was just brought in takes the word at once.
theorem store_counted (address : Nat) (w : Word) :
    Counted cache issuer (·.storeWaits issuer address) (cache.store issuer address w) := by
  rw [store_eq]
  cases hallocate : cache.writeAllocate with
  | false =>
      rw [if_neg Bool.false_ne_true]
      exact ((writePartial_counted hfree address [w]).map _).congr (·.storeWaits issuer address)
        (storeWaits_of_around hallocate issuer address)
        fun hawaits =>
          storeWaits_of_around (hawaits.writeAllocate_eq.trans hallocate) issuer address
  | true =>
      rw [if_pos rfl, bringIn]
      cases hhit :
        (cache.setOf (cache.memory.lineStart address)).hit? (cache.memory.lineStart address) with
      | some way =>
          exact ((writePresent_counted hfree (cache.memory.lineStart address) way
            (cache.memory.offset address)
            [w]).map _).congr (·.storeWaits issuer address)
            (storeWaits_of_hit rfl hhit) fun hawaits =>
              storeWaits_of_hit (lineStart_congr hawaits.lineCount_eq address)
                ((hawaits.hit?_eq _).trans hhit)
      | none =>
          have hcounted := (fill_counted hfree (cache.memory.lineStart address)).congr
            (·.storeWaits issuer address) (storeWaits_of_miss rfl hallocate hhit) fun hawaits =>
              storeWaits_of_miss (lineStart_congr hawaits.lineCount_eq address)
                (hawaits.writeAllocate_eq.trans hallocate) ((hawaits.hit?_eq _).trans hhit)
          rcases hfill : cache.fill issuer (cache.memory.lineStart address) with ⟨answer, after⟩
          rw [hfill] at hcounted
          cases answer with
          | wait => exact hcounted
          | done way =>
              obtain ⟨-, hclean⟩ := fill_done hfill
              obtain ⟨changed, hwrite, -⟩ :=
                writePresent_of_clean issuer (cache.memory.offset address) [w] hclean
              simp only [hwrite]
              exact hcounted

-- The next try finds the place that this one has chosen.
omit hfree in
theorem placeFor_again {chosen : Cache} (h : cache.placeFor issuer tag = (way, chosen))
    (pending : Option Pending) :
    (chosen.withPending pending).placeFor issuer tag = (way, chosen.withPending pending) := by
  unfold placeFor at h ⊢
  cases hway : (cache.setOf tag).way? tag with
  | some found =>
      simp only [hway] at h
      obtain ⟨rfl, rfl⟩ := Prod.mk.inj h
      have hagain : ((cache.withPending pending).setOf tag).way? tag = some found := hway
      simp only [hagain]
  | none =>
      simp only [hway] at h
      obtain ⟨other, hreserve, -⟩ := cache.reserve_eq issuer tag
      obtain ⟨rfl, rfl⟩ := Prod.mk.inj (h.symm.trans hreserve)
      have hagain :
          (((cache.setReservation issuer (some ⟨tag, way⟩)).withPending pending).setOf tag).way?
            tag =
          none := hway
      simp only [hagain]
      refine reserve_of_held ?_
      show (cache.setReservation issuer (some ⟨tag, way⟩)).reservation issuer = _
      rw [reservation_setReservation, if_pos rfl]

theorem putLine_counted (address : Nat) (words : Vector Word lineLength) (dirty : Bool) :
    Counted cache issuer (·.putLineWaits issuer address)
      (cache.putLine issuer address words dirty) := by
  obtain ⟨reservation, hchosen⟩ := cache.placeFor_eq issuer (cache.memory.lineStart address)
  rcases hplace : cache.placeFor issuer (cache.memory.lineStart address) with ⟨way, chosen⟩
  obtain rfl : chosen = cache.setReservation issuer reservation := by rwa [hplace] at hchosen
  simp only [putLine_eq, hplace]
  have hbefore : cache.putLineWaits issuer address =
      cache.saveWaits issuer (cache.memory.lineStart address) way := by
    simp only [putLineWaits, hplace]
  have hfree' : (cache.setReservation issuer reservation).memory.FreeFor issuer := hfree
  have hsame :
      (cache.setReservation issuer reservation).lineAt (cache.memory.lineStart address) way =
      cache.lineAt (cache.memory.lineStart address) way := rfl
  rcases writeBack_of_free hfree' (cache.memory.lineStart address) way with
    ⟨howed, hw⟩ | ⟨old, howed, ⟨r, hdue, hw⟩ | ⟨hdue, hw⟩⟩
  · rw [hw]
    rw [hsame] at howed
    exact hbefore.trans (by simp only [saveWaits, howed, Option.elim_none])
  · rw [hw]
    refine ⟨⟨old, r, rfl, fun _ => rfl, rfl, rfl, rfl⟩, ?_⟩
    have hagain : ((cache.setReservation issuer reservation).withPending
        (some ⟨⟨issuer, old⟩, r⟩)).putLineWaits issuer address = r := by
      have htag : ((cache.setReservation issuer reservation).withPending
          (some ⟨⟨issuer, old⟩, r⟩)).memory.lineStart address =
          cache.memory.lineStart address := rfl
      have hafter : (((cache.setReservation issuer reservation).withPending
          (some ⟨⟨issuer, old⟩, r⟩)).lineAt (cache.memory.lineStart address) way).owed? =
          some old := howed
      simp only [putLineWaits, htag, placeFor_again hplace, saveWaits, hafter,
        Option.elim_some, due_withPending]
    rw [hsame] at howed
    have hwaits : cache.putLineWaits issuer address = r + 1 := by
      simp only [hbefore, saveWaits, howed, Option.elim_some]
      exact hdue
    exact (congrArg (· + 1) hagain).trans hwaits.symm
  · rw [hw]
    rw [hsame] at howed
    exact hbefore.trans (by simp only [saveWaits, howed, Option.elim_some]; exact hdue)

end

end

-- What an issuer can wait for. A line may be put in that memory has as well.
inductive Errand where
  | ask (call : Call)
  | putLine (address : Nat) (words : Vector Word lineLength) (dirty : Bool)
deriving DecidableEq

namespace Errand

def poll (issuer : Stage) (cache : Cache) : Errand → Poll Answer × Cache
  | ask call => call.poll issuer cache
  | putLine address words dirty =>
    let (answer, cache) := cache.putLine issuer address words dirty
    (answer.map fun _ => .written, cache)

-- Whether a missing line would come to the place of words that memory does not have.
def displaces (issuer : Stage) (cache : Cache) (address : Nat) : Bool :=
  let tag := cache.memory.lineStart address
  ((cache.setOf tag).hit? tag).isNone && cache.owes tag (cache.reserve issuer tag).1

-- Whether words have to be written back before a line can be brought in. Only reads and stores that
-- allocate bring one in.
def evicts (issuer : Stage) (cache : Cache) : Errand → Bool
  | ask (.read address) => displaces issuer cache address
  | ask (.readLine address) => displaces issuer cache address
  | ask (.store address _) => cache.writeAllocate && displaces issuer cache address
  | _ => false

def waits (issuer : Stage) (cache : Cache) : Errand → Nat
  | ask (.read address) => cache.readWaits issuer address
  | ask (.readLine address) => cache.readWaits issuer address
  | ask (.write address _) => cache.writeWaits issuer address
  | ask (.store address _) => cache.storeWaits issuer address
  | ask (.writePartial address _) => cache.writeWaits issuer address
  | ask (.putLine address _) => cache.putLineWaits issuer address
  | putLine address _ _ => cache.putLineWaits issuer address

theorem counted {cache : Cache} {issuer : Stage} (hfree : cache.memory.FreeFor issuer)
    (errand : Errand) :
    Counted cache issuer (errand.waits issuer ·) (errand.poll issuer cache) := by
  cases errand with
  | ask call =>
      cases call with
      | read address =>
          simp only [poll, Call.poll, read_eq]
          exact ((readLine_counted hfree address).map _).map _
      | readLine address => exact (readLine_counted hfree address).map Answer.line
      | write address w =>
          exact ((writePartial_counted hfree address [w]).map fun _ => ()).map
            fun _ => Answer.written
      | store address w => exact (store_counted hfree address w).map fun _ => Answer.written
      | writePartial address data =>
          exact (writePartial_counted hfree address data).map Answer.count
      | putLine address words =>
          exact (putLine_counted hfree address words true).map fun _ => Answer.written
  | putLine address words dirty =>
      exact (putLine_counted hfree address words dirty).map fun _ => Answer.written

-- An errand that nobody is in the way of is done in the try that its waits tell.
theorem timed (errand : Errand) (issuer : Stage) :
    Poll.Timed (errand.poll issuer ·) (·.memory.FreeFor issuer) (errand.waits issuer ·) := by
  constructor
  · intro cache after hfree hwait
    have hcounted := errand.counted hfree
    rw [hwait] at hcounted
    obtain ⟨⟨address, r, hawaits⟩, hwaits⟩ := hcounted
    refine ⟨?_, hwaits⟩
    intro pending hpending
    obtain rfl := Option.some.inj (hawaits.pending_eq.symm.trans hpending)
    rfl
  · intro cache after value hfree hdone
    have hcounted := errand.counted hfree
    rw [hdone] at hcounted
    exact hcounted

end Errand

-- How long a wait can be.

section

variable {cache : Cache} (h : cache.memory.Prompt) (issuer : Stage)

include h

theorem saveWaits_le (tag way : Nat) : cache.saveWaits issuer tag way ≤ cache.memory.delay := by
  unfold saveWaits
  cases (cache.lineAt tag way).owed? with
  | none => exact Nat.zero_le _
  | some old => exact h.due_le _

theorem intoWaits_le (tag way : Nat) :
    cache.intoWaits issuer tag way ≤ if cache.owes tag way then 2 * cache.memory.delay
      else cache.memory.delay := by
  unfold intoWaits owes
  cases (cache.lineAt tag way).owed? with
  | none => exact h.due_le _
  | some old =>
      have hle := h.due_le ⟨issuer, old⟩
      simp only [Option.isSome_some, if_true]
      omega

theorem readWaits_le (address : Nat) : cache.readWaits issuer address ≤
    if Errand.displaces issuer cache address then 2 * cache.memory.delay
    else cache.memory.delay := by
  cases hhit :
    (cache.setOf (cache.memory.lineStart address)).hit? (cache.memory.lineStart address) with
  | some way => simp only [readWaits, hhit, Option.elim_some, Nat.zero_le]
  | none =>
      simp only [readWaits, Errand.displaces, hhit, Option.elim_none,
        Option.isNone_none, Bool.true_and]
      exact intoWaits_le h issuer _ _

theorem writeWaits_le (address : Nat) : cache.writeWaits issuer address ≤ cache.memory.delay := by
  unfold writeWaits
  dsimp only
  cases (cache.setOf (cache.memory.lineStart address)).hit? (cache.memory.lineStart address) with
  | some way => exact saveWaits_le h issuer _ way
  | none => exact h.due_le _

theorem storeWaits_le (address : Nat) (w : Word) : cache.storeWaits issuer address ≤
    if Errand.evicts issuer cache (.ask (.store address w)) then 2 * cache.memory.delay
    else cache.memory.delay := by
  cases hallocate : cache.writeAllocate with
  | false =>
      rw [storeWaits_of_around hallocate]
      simp only [Errand.evicts, hallocate, Bool.false_and, Bool.false_eq_true, if_false]
      exact writeWaits_le h issuer address
  | true =>
      simp only [Errand.evicts, hallocate, Bool.true_and]
      cases hhit :
        (cache.setOf (cache.memory.lineStart address)).hit? (cache.memory.lineStart address) with
      | some way =>
          have hle := saveWaits_le h issuer (cache.memory.lineStart address) way
          rw [storeWaits_of_hit rfl hhit]
          split <;> omega
      | none =>
          rw [storeWaits_of_miss rfl hallocate hhit, ← readWaits_of_miss rfl hhit]
          exact readWaits_le h issuer address

theorem Errand.waits_le (errand : Errand) : errand.waits issuer cache ≤
    if errand.evicts issuer cache then 2 * cache.memory.delay else cache.memory.delay := by
  cases errand with
  | ask call =>
      cases call with
      | read address => exact readWaits_le h issuer address
      | readLine address => exact readWaits_le h issuer address
      | write address w => exact writeWaits_le h issuer address
      | store address w => exact storeWaits_le h issuer address w
      | writePartial address data => exact writeWaits_le h issuer address
      | putLine address words => exact saveWaits_le h issuer _ _
  | putLine address words dirty => exact saveWaits_le h issuer _ _

end

end Cache

-- What can happen to main memory past a cache: tries of calls, words put in at once, and the end of
-- accesses.

namespace MainMemory

inductive Event where
  | poll (attempt : Attempt)
  | put (address : Nat) (w : Word)
  | putLine (address : Nat) (words : Vector Word lineLength)
  | releaseOthers (request : Request)
  | release (issuer : Stage)
  | releaseAll

def Event.perform (memory : MainMemory) : Event → MainMemory
  | poll attempt => (attempt.poll memory).2
  | put address w => memory.put address w
  | putLine address words => memory.putLine address words
  | releaseOthers request => memory.releaseOthers request
  | release issuer => memory.release issuer
  | releaseAll => memory.releaseAll

theorem Event.kept {P : MainMemory → Prop} (h : Kept P) {memory : MainMemory} (hmemory : P memory)
    (event : Event) :
    P (event.perform memory) := by
  cases event with
  | poll attempt =>
      show P (attempt.poll memory).2
      rw [attempt.poll_eq]
      exact h.access hmemory _ _ _ fun m => (m.serve_spec attempt.call).2.2
  | put address w => exact h.lines _ hmemory
  | putLine address words => exact h.lines _ hmemory
  | releaseOthers request => exact h.releaseOthers hmemory request
  | release issuer => exact h.release hmemory issuer
  | releaseAll => exact h.idle hmemory

end MainMemory

namespace Cache

-- What can be behind an issuer that begins an errand: any tries of any issuers, done or given up,
-- through the cache or past it.
inductive Left : Cache → Prop where
  | built {lineCount cacheLines delay : Nat} {writeAllocate : Bool}
      {memory : MainMemory} {cache : Cache}
      (hmemory : MainMemory.build lineCount delay = .ok memory) (events : List MainMemory.Event)
      (hcache : Cache.build cacheLines writeAllocate
        (events.foldl MainMemory.Event.perform memory) = .ok cache) :
      Left cache
  | step {cache : Cache} (h : Left cache) (step : Step) : Left (step.perform cache)
  | past {cache : Cache} (h : Left cache) (event : MainMemory.Event) :
      Left (cache.changeMemory event.perform)
  | setAllocate {cache : Cache} (h : Left cache) (writeAllocate : Bool) :
      Left { cache with writeAllocate := writeAllocate }

theorem Left.prompt {cache : Cache} (h : Left cache) : cache.memory.Prompt := by
  induction h with
  | @built lineCount cacheLines delay writeAllocate memory cache hmemory events hcache =>
      obtain ⟨ways, -, rfl⟩ := build_eq_empty hcache
      have hbuilt : memory.Prompt := by
        unfold MainMemory.build at hmemory
        split at hmemory
        · obtain rfl := Except.ok.inj hmemory
          exact MainMemory.prompt_of_idle rfl
        · cases hmemory
      show (events.foldl MainMemory.Event.perform memory).Prompt
      clear hmemory hcache
      induction events generalizing memory with
      | nil => exact hbuilt
      | cons event rest ih => exact ih (event.kept MainMemory.prompt_kept hbuilt)
  | step _ step ih => exact step.kept MainMemory.prompt_kept ih
  | past _ event ih => exact event.kept MainMemory.prompt_kept ih
  | setAllocate _ writeAllocate ih => exact ih

-- Whatever was given up before, an issuer that memory is free for is done within two delays, and
-- within one if nothing has to be written back before a line comes in.
theorem answered_of_left {cache : Cache} (h : Left cache) {issuer : Stage}
    (hfree : cache.memory.FreeFor issuer) (errand : Errand) :
    (∃ answer, ∃ tries ≤ 2 * cache.memory.delay + 1,
      (Poll.repeated (errand.poll issuer ·) (2 * cache.memory.delay + 1) cache).1 =
        some (answer, tries)) ∧
    (errand.evicts issuer cache = false → ∃ answer, ∃ tries ≤ cache.memory.delay + 1,
      (Poll.repeated (errand.poll issuer ·) (cache.memory.delay + 1) cache).1 =
        some (answer, tries)) := by
  have hle := errand.waits_le h.prompt issuer
  constructor
  · have hlt : errand.waits issuer cache < 2 * cache.memory.delay + 1 := by
      split at hle <;> omega
    obtain ⟨answer, hdone⟩ := (errand.timed issuer).repeated_of_lt hfree hlt
    exact ⟨answer, _, hlt, hdone⟩
  · intro hstays
    rw [hstays, if_neg Bool.false_ne_true] at hle
    obtain ⟨answer, hdone⟩ := (errand.timed issuer).repeated_of_lt hfree (Nat.lt_succ_of_le hle)
    exact ⟨answer, _, Nat.succ_le_succ hle, hdone⟩

-- A line with words that memory does not have has to make room in a cache of one way, and the
-- issuer has given up a read of another line whose request is still there. Its next read takes all
-- five tries, and the read of a line that is present at most three.
theorem answered_of_evicting :
    let cache := (empty 1 true (.zeroed 64 2 (by decide))).performSteps
      [.putLine .memory 0 #v[1, 2, 3, 4] true, .asked (.poll .memory (.read 16))]
    cache.memory.FreeFor .memory ∧
      (Poll.repeated (Errand.poll .memory · (.ask (.read 64))) 4 cache).1 = none ∧
      (∃ answer, ∃ tries ≤ 5, (Poll.repeated (Errand.poll .memory · (.ask (.read 64))) 5 cache).1 =
        some (answer, tries)) ∧
      Errand.evicts .memory cache (.ask (.read 2)) = false ∧
      ∃ answer, ∃ tries ≤ 3, (Poll.repeated (Errand.poll .memory · (.ask (.read 2))) 3 cache).1 =
        some (answer, tries) := by
  intro cache
  have hbuilt : Left (empty 1 true (.zeroed 64 2 (by decide))) :=
    @Left.built 64 4 2 true _ _ rfl [] rfl
  have hleft : Left cache :=
    (hbuilt.step (.putLine .memory 0 #v[1, 2, 3, 4] true)).step (.asked (.poll .memory (.read 16)))
  have hpending : cache.memory.pending = some ⟨⟨.memory, 16⟩, 1⟩ := by decide
  have hfree : cache.memory.FreeFor .memory := by
    intro pending hsome
    obtain rfl := Option.some.inj (hpending.symm.trans hsome)
    rfl
  have hstays : Errand.evicts .memory cache (.ask (.read 2)) = false := by decide
  have hwaits : Errand.waits .memory cache (.ask (.read 64)) = 4 := by decide
  have hnot :=
    (Errand.timed (.ask (.read 64)) .memory).repeated_of_le hfree (Nat.le_of_eq hwaits.symm)
  exact ⟨hfree, hnot, (answered_of_left hleft hfree (.ask (.read 64))).1, hstays,
    (answered_of_left hleft hfree (.ask (.read 2))).2 hstays⟩

end Cache

end PipelinedProcessor
