import PipelinedProcessor.Proofs.Cache.Moves

namespace PipelinedProcessor

-- Releasing what one issuer waits for is nothing to a memory that is busy with another.
theorem MainMemory.release_of_owner {memory : MainMemory} {owner issuer : Stage}
    (howner : memory.owner = some owner) (hne : owner ≠ issuer) :
    memory.release issuer = memory := by
  obtain ⟨pending, hpending, rfl⟩ := owner_eq_some.mp howner
  simp [release, hpending, hne]

namespace Cache

-- Whether a line has words that memory does not have.
def owes (cache : Cache) (tag way : Nat) : Bool := (cache.lineAt tag way).owed?.isSome

-- Whether a try has to turn to memory. A read does so for a line that is missing. A write does so
-- for such a line too, and otherwise to save what was written to the line before. A whole line
-- needs its place only.
def Call.needsMemory (issuer : Stage) (cache : Cache) (call : Call) : Bool :=
  let tag := cache.memory.lineStart call.address
  match call with
  | .read _ => ((cache.setOf tag).hit? tag).isNone
  | .readLine _ => ((cache.setOf tag).hit? tag).isNone
  | .write _ _ => ((cache.setOf tag).hit? tag).all (cache.owes tag)
  | .store _ _ => ((cache.setOf tag).hit? tag).all (cache.owes tag)
  | .writePartial _ _ => ((cache.setOf tag).hit? tag).all (cache.owes tag)
  | .putLine _ _ => cache.owes tag (cache.placeFor issuer tag).1

-- A try that does nothing to the owner of the pending request. It is done if it can do without
-- memory.
structure Spared {α : Type} (owner : Stage) (cache : Cache) (needs : Bool)
    (result : Poll α × Cache) : Prop where
  memory_eq : result.2.memory = cache.memory
  reservation_eq : result.2.reservation owner = cache.reservation owner
  isDone_eq : result.1.isDone = !needs

section

variable {cache : Cache} {owner issuer : Stage}

theorem Spared.map {α β : Type} {needs : Bool} {result : Poll α × Cache}
    (h : Spared owner cache needs result) (f : α → β) :
    Spared owner cache needs (result.1.map f, result.2) :=
  ⟨h.memory_eq, h.reservation_eq, (Poll.isDone_map f result.1).trans h.isDone_eq⟩

variable (howner : cache.memory.owner = some owner) (hne : owner ≠ issuer)

include hne in
theorem spared_wait {α : Type} (reservation : Option Reservation) :
    Spared owner cache true ((.wait : Poll α), cache.setReservation issuer reservation) := by
  refine ⟨rfl, ?_, rfl⟩
  rw [reservation_setReservation, if_neg (Ne.symm hne)]

include howner hne

theorem spared_finish {α : Type} {changed : Cache} (value : α)
    (hmemory : changed.memory = cache.memory)
    (hheld : changed.reservation owner = cache.reservation owner) :
    Spared owner cache false (.done value, changed.finish issuer) := by
  refine ⟨?_, ?_, rfl⟩
  · show changed.memory.release issuer = cache.memory
    rw [hmemory, MainMemory.release_of_owner howner hne]
  · show (changed.setReservation issuer none).reservation owner = cache.reservation owner
    rw [reservation_setReservation, if_neg (Ne.symm hne), hheld]

theorem resolve_spared (tag : Nat) :
    Spared owner cache ((cache.setOf tag).hit? tag).isNone (cache.resolve issuer tag) := by
  unfold resolve
  cases (cache.setOf tag).hit? tag with
  | some way => exact spared_finish howner hne way rfl rfl
  | none =>
      obtain ⟨reservation, hfill⟩ := fill_of_owner howner hne tag
      simp only [hfill]
      exact spared_wait hne reservation

theorem writePresent_spared (tag way offset : Nat) (data : List Word) :
    Spared owner cache (cache.owes tag way) (cache.writePresent issuer tag way offset data) := by
  unfold writePresent owes
  rcases writeBack_of_owner howner hne tag way with ⟨howed, hwrite⟩ | ⟨⟨old, howed⟩, hwrite⟩
  · rw [hwrite, howed]
    exact spared_finish howner hne _ rfl rfl
  · rw [hwrite, howed]
    exact ⟨rfl, rfl, rfl⟩

theorem readLine_spared (address : Nat) :
    Spared owner cache ((cache.setOf (cache.memory.lineStart address)).hit?
      (cache.memory.lineStart address)).isNone (cache.readLine issuer address) := by
  have hspared := resolve_spared howner hne (cache.memory.lineStart address)
  rcases hresolve : cache.resolve issuer (cache.memory.lineStart address) with ⟨found, resolved⟩
  rw [hresolve] at hspared
  simp only [readLine, hresolve]
  cases found with
  | wait => exact ⟨hspared.memory_eq, hspared.reservation_eq, hspared.isDone_eq⟩
  | done way => exact ⟨hspared.memory_eq, hspared.reservation_eq, hspared.isDone_eq⟩

theorem writePartial_spared (address : Nat) (data : List Word) :
    Spared owner cache (((cache.setOf (cache.memory.lineStart address)).hit?
      (cache.memory.lineStart address)).all (cache.owes (cache.memory.lineStart address)))
      (cache.writePartial issuer address data) := by
  unfold writePartial
  simp only
  cases (cache.setOf (cache.memory.lineStart address)).hit? (cache.memory.lineStart address) with
  | some way =>
      have hspared := writePresent_spared howner hne (cache.memory.lineStart address) way
        (cache.memory.offset address) data
      rcases hwrite : cache.writePresent issuer (cache.memory.lineStart address) way
        (cache.memory.offset address) data with ⟨answer, written⟩
      rw [hwrite] at hspared
      simp only [hwrite, Option.all_some]
      cases answer with
      | wait => exact hspared
      | done count => exact ⟨hspared.memory_eq, hspared.reservation_eq, hspared.isDone_eq⟩
  | none =>
      simp only [onMemory_eq, MainMemory.writePartial, renewed_of_owner howner hne]
      exact ⟨rfl, rfl, rfl⟩

theorem store_spared (address : Nat) (w : Word) :
    Spared owner cache (((cache.setOf (cache.memory.lineStart address)).hit?
      (cache.memory.lineStart address)).all (cache.owes (cache.memory.lineStart address)))
      (cache.store issuer address w) := by
  rw [store_eq]
  split
  · unfold bringIn
    cases (cache.setOf (cache.memory.lineStart address)).hit? (cache.memory.lineStart address) with
    | some way => exact (writePresent_spared howner hne _ way _ [w]).map _
    | none =>
        obtain ⟨reservation, hfill⟩ := fill_of_owner howner hne (cache.memory.lineStart address)
        simp only [hfill]
        exact spared_wait hne reservation
  · exact (writePartial_spared howner hne address [w]).map _

omit howner hne in
theorem placeFor_eq (cache : Cache) (issuer : Stage) (tag : Nat) :
    ∃ reservation, (cache.placeFor issuer tag).2 = cache.setReservation issuer reservation := by
  unfold placeFor
  split
  · exact ⟨_, (cache.setReservation_self issuer).symm⟩
  · obtain ⟨way, hreserve, -⟩ := cache.reserve_eq issuer tag
    exact ⟨_, congrArg Prod.snd hreserve⟩

theorem putLine_spared (address : Nat) (words : Vector Word lineLength) (dirty : Bool) :
    Spared owner cache (cache.owes (cache.memory.lineStart address)
      (cache.placeFor issuer (cache.memory.lineStart address)).1)
      (cache.putLine issuer address words dirty) := by
  simp only [putLine_eq]
  generalize cache.memory.lineStart address = tag
  obtain ⟨reservation, hchosen⟩ := cache.placeFor_eq issuer tag
  rcases hplace : cache.placeFor issuer tag with ⟨way, chosen⟩
  obtain rfl : chosen = cache.setReservation issuer reservation := by rwa [hplace] at hchosen
  have hheld : (cache.setReservation issuer reservation).reservation owner =
      cache.reservation owner :=
    (spared_wait (α := Unit) hne reservation).reservation_eq
  have howner' : (cache.setReservation issuer reservation).memory.owner = some owner := howner
  have howes : cache.owes tag way =
      ((cache.setReservation issuer reservation).lineAt tag way).owed?.isSome := rfl
  rcases writeBack_of_owner howner' hne tag way with ⟨howed, hwrite⟩ | ⟨⟨old, howed⟩, hwrite⟩
  · rw [hwrite, howes, howed]
    exact spared_finish howner hne _ rfl hheld
  · rw [hwrite, howes, howed]
    exact spared_wait hne reservation

theorem Call.poll_spared (call : Call) :
    Spared owner cache (call.needsMemory issuer cache) (call.poll issuer cache) := by
  cases call with
  | read address =>
      simp only [poll, read_eq]
      exact ((readLine_spared howner hne address).map _).map _
  | readLine address => exact (readLine_spared howner hne address).map _
  | write address w => exact ((writePartial_spared howner hne address [w]).map _).map _
  | store address w => exact (store_spared howner hne address w).map _
  | writePartial address data => exact (writePartial_spared howner hne address data).map _
  | putLine address words => exact (putLine_spared howner hne address words true).map _

end

-- The steps that are tries, and who makes them.
def Step.issuer? : Step → Option Stage
  | .asked (.poll issuer _) => some issuer
  | .putLine issuer _ _ _ => some issuer
  | _ => none

def Step.ByOther (owner : Stage) (step : Step) : Prop :=
  ∃ issuer, step.issuer? = some issuer ∧ owner ≠ issuer

def Step.isDone (cache : Cache) : Step → Bool
  | .asked (.poll issuer call) => (call.poll issuer cache).1.isDone
  | .putLine issuer address words dirty => (cache.putLine issuer address words dirty).1.isDone
  | _ => true

def Step.needsMemory (cache : Cache) : Step → Bool
  | .asked (.poll issuer call) => call.needsMemory issuer cache
  | .putLine issuer address words _ => Call.needsMemory issuer cache (.putLine address words)
  | _ => false

section

variable {cache : Cache} {owner : Stage} (howner : cache.memory.owner = some owner)

include howner

theorem Step.spared {step : Step} (hother : step.ByOther owner) :
    (step.perform cache).memory = cache.memory ∧
      (step.perform cache).reservation owner = cache.reservation owner ∧
      step.isDone cache = !step.needsMemory cache := by
  obtain ⟨issuer, hissuer, hne⟩ := hother
  cases step with
  | asked event =>
      cases event with
      | poll other call =>
          obtain rfl := Option.some.inj hissuer
          obtain ⟨hmemory, hheld, hdone⟩ := Call.poll_spared howner hne call
          exact ⟨hmemory, hheld, hdone⟩
      | flush => cases hissuer
      | releaseAll => cases hissuer
  | putLine other address words dirty =>
      obtain rfl := Option.some.inj hissuer
      obtain ⟨hmemory, hheld, hdone⟩ := putLine_spared howner hne address words dirty
      exact ⟨hmemory, hheld, hdone⟩
  | invalidate address => cases hissuer

theorem spared_performSteps {steps : List Step} (hothers : ∀ step ∈ steps, step.ByOther owner) :
    (cache.performSteps steps).memory = cache.memory ∧
      (cache.performSteps steps).reservation owner = cache.reservation owner := by
  induction steps generalizing cache with
  | nil => exact ⟨rfl, rfl⟩
  | cons step rest ih =>
      obtain ⟨hmemory, hheld, -⟩ := Step.spared howner (hothers step List.mem_cons_self)
      have howner' : (step.perform cache).memory.owner = some owner := hmemory ▸ howner
      obtain ⟨hmemory', hheld'⟩ :=
        ih howner' fun other hmem => hothers other (List.mem_cons_of_mem _ hmem)
      exact ⟨hmemory'.trans hmemory, hheld'.trans hheld⟩

end

-- While memory is busy with the request of an issuer, nothing that the others try changes the
-- request, the memory or the way that the issuer holds. What they try is done at once or waits for
-- memory.
theorem undisturbed_of_others {cache : Cache} {owner : Stage} {address remaining : Nat}
    (hpending : cache.memory.pending = some ⟨⟨owner, address⟩, remaining⟩) {steps : List Step}
    (hothers : ∀ step ∈ steps, step.ByOther owner) :
    (cache.performSteps steps).memory.pending = some ⟨⟨owner, address⟩, remaining⟩ ∧
      (cache.performSteps steps).memory = cache.memory ∧
      (cache.performSteps steps).reservation owner = cache.reservation owner ∧
      ∀ step : Step, step.ByOther owner →
        step.isDone (cache.performSteps steps) = !step.needsMemory (cache.performSteps steps) := by
  have howner : cache.memory.owner = some owner := MainMemory.owner_eq_some.mpr ⟨_, hpending, rfl⟩
  obtain ⟨hmemory, hheld⟩ := spared_performSteps howner hothers
  refine ⟨hmemory ▸ hpending, hmemory, hheld, ?_⟩
  intro step hother
  exact (Step.spared (hmemory ▸ howner) hother).2.2

-- Fetch waits for a line. Others put a line in and use it, but it cannot be saved and no other can
-- be read.
theorem undisturbed_of_fetching :
    let cache :=
  (empty 2 true (.zeroed 16 2 (by decide))).performSteps [.asked (.poll .fetch (.read 0))]
    let steps : List Step :=
  [.putLine .memory 16 #v[1, 2, 3, 4] true, .asked (.poll .memory (.read 17)),
      .asked (.poll .system (.write 18 5)), .asked (.poll .memory (.read 64))]
    cache.memory.pending = some ⟨⟨.fetch, 0⟩, 1⟩ ∧ (∀ step ∈ steps, step.ByOther .fetch) ∧
      (cache.performSteps steps).memory.pending = some ⟨⟨.fetch, 0⟩, 1⟩ ∧
      Step.isDone (cache.performSteps steps) (.asked (.poll .memory (.store 16 7))) = false := by
  intro cache steps
  have hpending : cache.memory.pending = some ⟨⟨.fetch, 0⟩, 1⟩ := by decide
  have hothers : ∀ step ∈ steps, step.ByOther .fetch := by simp [steps, Step.ByOther, Step.issuer?]
  obtain ⟨hkept, -, -, hdone⟩ := undisturbed_of_others hpending hothers
  refine ⟨hpending, hothers, hkept, ?_⟩
  rw [hdone _ ⟨.memory, rfl, by decide⟩]
  decide

end Cache

end PipelinedProcessor
