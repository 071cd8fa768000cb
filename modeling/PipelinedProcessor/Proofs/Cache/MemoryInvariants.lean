import PipelinedProcessor.Proofs.Memory.WaitCounts
import PipelinedProcessor.Proofs.Cache.Undisturbed

namespace PipelinedProcessor

namespace MainMemory

-- A property of main memory that neither a try nor the end of an access changes, whatever the words
-- are.
structure Kept (P : MainMemory → Prop) : Prop where
  idle : ∀ {memory : MainMemory}, P memory → P { memory with pending := none }
  grant : ∀ {memory : MainMemory} (request : Request), P memory → P (memory.grant request).2
  lines : ∀ {memory : MainMemory} (lines), P memory → P { memory with lines := lines }

theorem prompt_kept : Kept Prompt where
  idle _ := prompt_of_idle rfl
  lines _ hprompt := hprompt
  grant {memory} request hprompt := by
    have hle : (memory.pending.getD ⟨request, memory.delay⟩).remaining ≤ memory.delay := by
      cases hpending : memory.pending with
      | none => exact Nat.le_refl _
      | some pending => exact hprompt pending hpending
    simp only [grant]
    split
    · exact hprompt
    · split
      · exact prompt_of_idle rfl
      · intro pending hpending
        obtain rfl := Option.some.inj hpending
        exact Nat.le_trans (Nat.sub_le _ _) hle

namespace Kept

variable {P : MainMemory → Prop} (h : Kept P) {memory : MainMemory} (hmemory : P memory)

include h hmemory

theorem release (issuer : Stage) : P (memory.release issuer) := by
  unfold MainMemory.release
  split
  · exact h.idle hmemory
  · exact hmemory

theorem releaseOthers (request : Request) : P (memory.releaseOthers request) := by
  simp only [MainMemory.releaseOthers]
  split
  · exact h.idle hmemory
  · exact hmemory

theorem access {α : Type} (issuer : Stage) (address : Nat) (serve : MainMemory → α × MainMemory)
    (hserve : ∀ m, ∃ lines, (serve m).2 = { m with lines := lines }) :
    P (memory.access issuer address serve).2 := by
  have hgranted := h.grant ⟨issuer, address⟩ hmemory
  unfold MainMemory.access
  rcases hgrant : memory.grant ⟨issuer, address⟩ with ⟨turn, next⟩
  rw [hgrant] at hgranted
  cases turn with
  | false => exact hgranted
  | true =>
      obtain ⟨lines, hserved⟩ := hserve next
      show P (serve next).2
      rw [hserved]
      exact h.lines lines hgranted

theorem renewed {α : Type} (issuer : Stage) (address : Nat) (serve : MainMemory → α × MainMemory)
    (hserve : ∀ m, ∃ lines, (serve m).2 = { m with lines := lines }) :
    P ((memory.releaseOthers ⟨issuer, address⟩).access issuer address serve).2 :=
  h.access (h.releaseOthers hmemory _) issuer address serve hserve

end Kept

end MainMemory

namespace Cache

theorem memory_invalidate (cache : Cache) (address : Nat) :
    ∃ lines, (cache.invalidate address).memory = { cache.memory with lines := lines } := by
  cases hway :
    (cache.setOf (cache.memory.lineStart address)).way? (cache.memory.lineStart address) with
  | none =>
      rw [invalidate_of_none address hway]
      exact ⟨cache.memory.lines, rfl⟩
  | some way =>
      rw [invalidate_of_way? address hway]
      show ∃ lines, (cache.saved (cache.memory.lineStart address) way).memory =
        { cache.memory with lines := lines }
      unfold saved
      split
      · exact ⟨_, rfl⟩
      · exact ⟨_, rfl⟩

theorem saveLines_eq (memory : MainMemory) (lines : List CacheLine) :
    ∃ words, lines.foldl saveLine memory = { memory with lines := words } := by
  induction lines generalizing memory with
  | nil => exact ⟨memory.lines, rfl⟩
  | cons line rest ih =>
      obtain ⟨first, hfirst⟩ : ∃ words, saveLine memory line = { memory with lines := words } := by
        unfold saveLine
        split
        · exact ⟨memory.lines, rfl⟩
        · exact ⟨_, rfl⟩
      rw [List.foldl_cons, hfirst]
      exact ih { memory with lines := first }

-- What main memory keeps by itself, it keeps behind a cache.

section

variable {P : MainMemory → Prop} (h : MainMemory.Kept P) {cache : Cache} (hcache : P cache.memory)

include h hcache

theorem kept_writeBack (issuer : Stage) (tag way : Nat) :
    P (cache.writeBack issuer tag way).2.memory := by
  cases howed : (cache.lineAt tag way).owed? with
  | none =>
      simp only [writeBack, howed]
      exact hcache
  | some old =>
      have hkept := h.renewed hcache issuer old
        (fun memory => ((), memory.putLine old (cache.lineAt tag way).line.words)) fun _ => ⟨_, rfl⟩
      simp only [writeBack, howed, onMemory_eq, MainMemory.writeLine]
      split
      · rename_i written heq
        obtain ⟨-, rfl⟩ := Prod.mk.inj heq
        exact hkept
      · rename_i written heq
        obtain ⟨-, rfl⟩ := Prod.mk.inj heq
        exact hkept

theorem kept_fill (issuer : Stage) (tag : Nat) : P (cache.fill issuer tag).2.memory := by
  obtain ⟨way, hreserve, -⟩ := cache.reserve_eq issuer tag
  have hheld : P (cache.setReservation issuer (some ⟨tag, way⟩)).memory := hcache
  have hkept := kept_writeBack h hheld issuer tag way
  rw [fill_eq, hreserve, fillInto]
  dsimp only
  split
  · rename_i written hwrite
    rw [hwrite] at hkept
    exact hkept
  · rename_i written hwrite
    rw [hwrite] at hkept
    have hread := h.renewed hkept issuer tag (fun memory => (memory.peekLine tag, memory))
      fun m => ⟨m.lines, rfl⟩
    rw [onMemory_eq]
    split
    · rename_i read heq
      obtain ⟨-, rfl⟩ := Prod.mk.inj heq
      exact hread
    · rename_i read heq
      obtain ⟨-, rfl⟩ := Prod.mk.inj heq
      exact h.release hread issuer

theorem kept_resolve (issuer : Stage) (tag : Nat) : P (cache.resolve issuer tag).2.memory := by
  unfold resolve
  split
  · exact h.release hcache issuer
  · exact kept_fill h hcache issuer tag

theorem kept_writePresent (issuer : Stage) (tag way offset : Nat) (data : List Word) :
    P (cache.writePresent issuer tag way offset data).2.memory := by
  have hkept := kept_writeBack h hcache issuer tag way
  unfold writePresent
  split
  · rename_i written hwrite
    rw [hwrite] at hkept
    exact hkept
  · rename_i written hwrite
    rw [hwrite] at hkept
    exact h.release hkept issuer

theorem kept_readLine (issuer : Stage) (address : Nat) :
    P (cache.readLine issuer address).2.memory := by
  have hkept := kept_resolve h hcache issuer (cache.memory.lineStart address)
  unfold readLine
  dsimp only
  split
  · rename_i resolved hresolve
    rw [hresolve] at hkept
    exact hkept
  · rename_i resolved hresolve
    rw [hresolve] at hkept
    exact hkept

theorem kept_writePartial (issuer : Stage) (address : Nat) (data : List Word) :
    P (cache.writePartial issuer address data).2.memory := by
  unfold writePartial
  dsimp only
  split
  · rename_i way hhit
    have hkept := kept_writePresent h hcache issuer (cache.memory.lineStart address) way
      (cache.memory.offset address) data
    split
    · rename_i written hwrite
      rw [hwrite] at hkept
      exact hkept
    · rename_i written hwrite
      rw [hwrite] at hkept
      exact hkept
  · exact h.renewed hcache issuer (cache.memory.wrap address) (fun memory =>
      (fitting (memory.offset (cache.memory.wrap address)) data,
        memory.putLine (cache.memory.wrap address)
        (patch (memory.peekWords (cache.memory.wrap address))
          (memory.offset (cache.memory.wrap address)) data)))
      fun _ => ⟨_, rfl⟩

theorem kept_store (issuer : Stage) (address : Nat) (w : Word) :
    P (cache.store issuer address w).2.memory := by
  rw [store_eq]
  split
  · have hplaced : P (cache.bringIn issuer (cache.memory.lineStart address)).2.memory := by
      unfold bringIn
      split
      · exact hcache
      · exact kept_fill h hcache issuer _
    split
    · rename_i placed heq
      rw [heq] at hplaced
      exact hplaced
    · rename_i way placed heq
      rw [heq] at hplaced
      exact kept_writePresent h hplaced issuer _ way _ [w]
  · exact kept_writePartial h hcache issuer address [w]

theorem kept_putLine (issuer : Stage) (address : Nat) (words : Vector Word lineLength)
    (dirty : Bool) :
    P (cache.putLine issuer address words dirty).2.memory := by
  rw [putLine_eq]
  obtain ⟨reservation, hchosen⟩ := cache.placeFor_eq issuer (cache.memory.lineStart address)
  dsimp only
  generalize (cache.placeFor issuer (cache.memory.lineStart address)).1 = way
  rw [hchosen]
  have hheld : P (cache.setReservation issuer reservation).memory := hcache
  have hkept := kept_writeBack h hheld issuer (cache.memory.lineStart address) way
  split
  · rename_i written hwrite
    rw [hwrite] at hkept
    exact hkept
  · rename_i written hwrite
    rw [hwrite] at hkept
    exact h.release hkept issuer

theorem Call.kept (call : Call) (issuer : Stage) : P (call.poll issuer cache).2.memory := by
  cases call with
  | read address =>
      simp only [poll, read_eq]
      exact kept_readLine h hcache issuer address
  | readLine address => exact kept_readLine h hcache issuer address
  | write address w => exact kept_writePartial h hcache issuer address [w]
  | store address w => exact kept_store h hcache issuer address w
  | writePartial address data => exact kept_writePartial h hcache issuer address data
  | putLine address words => exact kept_putLine h hcache issuer address words true

theorem Step.kept (step : Step) : P (step.perform cache).memory := by
  cases step with
  | asked event =>
      cases event with
      | poll issuer call => exact call.kept h hcache issuer
      | flush =>
          obtain ⟨words, hsaved⟩ := saveLines_eq cache.memory cache.allLines
          show P cache.flush.memory
          rw [memory_flush, hsaved]
          exact h.lines words hcache
      | releaseAll => exact h.idle hcache
  | putLine issuer address words dirty => exact kept_putLine h hcache issuer address words dirty
  | invalidate address =>
      obtain ⟨lines, hmemory⟩ := cache.memory_invalidate address
      show P (cache.invalidate address).memory
      rw [hmemory]
      exact h.lines lines hcache

end

end Cache

end PipelinedProcessor
