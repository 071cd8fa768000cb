import PipelinedProcessor.Pipeline.Cycle

namespace PipelinedProcessor

section

variable {σ τ : Type} [Storage σ] [Storage τ]

-- A memory in the place of another that answers the same, and stays in its place.
structure Storage.StandsFor (f : σ → τ) : Prop where
  read : ∀ s issuer address, Storage.read (f s) issuer address =
    ((Storage.read s issuer address).1, f (Storage.read s issuer address).2)
  store : ∀ s issuer address w, Storage.store (f s) issuer address w =
    ((Storage.store s issuer address w).1, f (Storage.store s issuer address w).2)
  writePartial : ∀ s issuer address data, Storage.writePartial (f s) issuer address data =
    ((Storage.writePartial s issuer address data).1,
      f (Storage.writePartial s issuer address data).2)

omit [Storage σ] [Storage τ] in
def Context.on (f : σ → τ) (context : Context σ) : Context τ :=
  ⟨context.registers, context.vectors, f context.memory⟩

variable {f : σ → τ} (hf : Storage.StandsFor f)

include hf

-- Whatever the pipeline does, it does the same there.

theorem Source.resolve_on (source : Source) (memory : σ) :
    source.resolve (f memory) = ((source.resolve memory).1, f (source.resolve memory).2) := by
  cases source with
  | value w => rfl
  | deref address =>
      rw [resolve, resolve, hf.read]
      rcases Storage.read memory .memory address with ⟨answer, after⟩
      cases answer <;> rfl

namespace Action

theorem readWords_on (base count : Nat) (memory : σ) :
    readWords base count (f memory) =
      ((readWords base count memory).1, f (readWords base count memory).2) := by
  induction count generalizing base memory with
  | zero => rfl
  | succ count ih =>
      rw [readWords, readWords, hf.read]
      rcases Storage.read memory .memory base with ⟨answer, after⟩
      cases answer with
      | wait => rfl
      | done w =>
          simp only
          rw [ih]

theorem writeWords_on (base : Nat) (data : List Word) (parts written : Nat) (memory : σ) :
    writeWords base data parts written (f memory) =
      ((writeWords base data parts written memory).1,
        (writeWords base data parts written memory).2.1,
        f (writeWords base data parts written memory).2.2) := by
  induction parts generalizing written memory with
  | zero => rfl
  | succ parts ih =>
      rw [writeWords, writeWords, hf.writePartial]
      split
      · rcases Storage.writePartial memory .memory (base + written)
          (data.drop written) with ⟨answer, after⟩
        match answer with
        | .wait => rfl
        | .done 0 => rfl
        | .done (count + 1) => exact ih _ _
      · rfl

theorem advanceMemory_on (action : Action) (memory : σ) :
    action.advanceMemory (f memory) =
      ((action.advanceMemory memory).1, (action.advanceMemory memory).2.1,
        f (action.advanceMemory memory).2.2) := by
  cases action with
  | scalar op rd swapped flags first second =>
      simp only [advanceMemory, advanceScalar, first.resolve_on hf]
      rcases first.resolve memory with ⟨first', middle⟩
      cases first' with
      | deref address => rfl
      | value a =>
          simp only [second.resolve_on hf]
          rcases second.resolve middle with ⟨second', after⟩
          cases second' <;> rfl
  | load rd address =>
      simp only [advanceMemory, hf.read]
      rcases Storage.read memory .memory address with ⟨answer, after⟩
      cases answer <;> rfl
  | store address w =>
      simp only [advanceMemory, hf.store]
      rcases Storage.store memory .memory address w with ⟨answer, after⟩
      cases answer <;> rfl
  | vectorLoad vd base length loaded => simp only [advanceMemory, readWords_on hf]
  | vectorStore base data written => simp only [advanceMemory, writeWords_on hf]
  | branch cond target back => rfl

theorem advance_on (action : Action) (context : Context σ) :
    action.advance (context.on f) =
      ((action.advance context).1, (action.advance context).2.1,
        (action.advance context).2.2.on f) := by
  obtain ⟨registers, vectors, memory⟩ := context
  show action.advance ⟨registers, vectors, f memory⟩ = _
  cases action with
  | branch cond target back =>
      simp only [advance]
      split <;> rfl
  | _ =>
      simp only [advance, advanceMemory_on hf]
      rfl

end Action

namespace Flight

variable (flight : Flight) (context : Context σ)

theorem fetch_on :
    flight.fetch (context.on f) = ((flight.fetch context).1, (flight.fetch context).2.on f) := by
  obtain ⟨registers, vectors, memory⟩ := context
  show flight.fetch ⟨registers, vectors, f memory⟩ = _
  simp only [fetch, hf.read]
  rcases Storage.read memory .fetch (flight.address.getD registers.counter) with ⟨answer, after⟩
  cases answer <;> rfl

theorem access_on : flight.access (context.on f) =
    ((flight.access context).1, (flight.access context).2.1, (flight.access context).2.2.on f) := by
  unfold access
  split
  · rfl
  · rename_i action _
    rw [action.advance_on hf]
    rcases action.advance context with ⟨progress, next, after⟩
    cases progress <;> rfl

omit hf [Storage σ] [Storage τ] in
theorem commit_on :
    flight.commit (context.on f) = ((flight.commit context).1, (flight.commit context).2.on f) := by
  have hfold (writes : List RegisterWrite) (context : Context σ) :
      writes.foldl (fun context write => write.commit context) (context.on f) =
        (writes.foldl (fun context write => write.commit context) context).on f := by
    induction writes generalizing context with
    | nil => rfl
    | cons write rest ih =>
        have hone : write.commit (context.on f) = (write.commit context).on f := by
          cases write <;> rfl
        rw [List.foldl_cons, List.foldl_cons, hone, ih]
  exact congrArg (Prod.mk _) (hfold flight.results context)

end Flight

namespace Pipeline

variable (p : Pipeline) (context : Context σ)

omit hf [Storage σ] [Storage τ] in
theorem commitStage_on :
    p.commitStage (context.on f) = ((p.commitStage context).1, (p.commitStage context).2.on f) := by
  unfold commitStage
  split
  · rfl
  · rename_i flight _
    split
    · rw [flight.commit_on context]
    · rfl

theorem accessStage_on : p.accessStage (context.on f) =
    ((p.accessStage context).1, (p.accessStage context).2.1, (p.accessStage context).2.2.on f) := by
  unfold accessStage
  split
  · rfl
  · rename_i flight _
    split
    · rw [flight.access_on hf context]
    · rfl

theorem fetchStage_on :
    p.fetchStage (context.on f) = ((p.fetchStage context).1, (p.fetchStage context).2.on f) := by
  unfold fetchStage
  split
  · rfl
  · rename_i flight _
    split
    · rw [flight.fetch_on hf context]
      simp only
      split <;> rfl
    · rfl

theorem work_on : p.work (context.on f) =
    ((p.work context).1, (p.work context).2.1, (p.work context).2.2.on f) := by
  simp only [work, commitStage_on]
  rcases p.commitStage context with ⟨committed, context'⟩
  simp only [accessStage_on hf]
  rcases committed.accessStage context' with ⟨fault, accessed, context''⟩
  cases fault with
  | some cause => rfl
  | none =>
      have hexecute : accessed.executeStage (context''.on f).registers (context''.on f).vectors =
          accessed.executeStage context''.registers context''.vectors := rfl
      simp only [hexecute]
      cases accessed.executeStage context''.registers context''.vectors with
      | error cause => rfl
      | ok executed => simp only [fetchStage_on hf]

-- A cycle comes to the same.
theorem step_on : p.step (context.on f) =
    ((p.step context).1, (p.step context).2.1, (p.step context).2.2.on f) := by
  unfold step
  split
  · rw [work_on hf]
    rcases ({ p with clock := p.clock + 1 } : Pipeline).work context with ⟨fault, worked, after⟩
    cases fault with
    | some cause => rfl
    | none =>
        simp only
        split <;> rfl
  · rfl

end Pipeline

end

end PipelinedProcessor
