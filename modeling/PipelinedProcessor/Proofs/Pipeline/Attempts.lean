import PipelinedProcessor.Proofs.Flight.Tries
import PipelinedProcessor.Proofs.Memory.Storage
import PipelinedProcessor.Proofs.Pipeline.StageWork

namespace PipelinedProcessor

-- The stages come to memory by tries of accesses only: what each of those keeps, a cycle keeps.
-- Fetch does not write.
structure KeptByTries {σ : Type} [Storage σ] (Q : σ → Prop) : Prop where
  memory : ∀ (s : σ) (access : Access), Q s → Q (access.attempt s .memory).2
  fetch : ∀ (s : σ) (address : Nat), Q s → Q (Storage.read s .fetch address).2

theorem KeptByTries.of_attempt {σ : Type} [Storage σ] {Q : σ → Prop}
    (h : ∀ (s : σ) (access : Access) (issuer : Stage), Q s → Q (access.attempt s issuer).2) :
    KeptByTries Q :=
  ⟨fun s access => h s access .memory, fun s address => h s (.read address) .fetch⟩

section

variable {σ : Type} [Storage σ] {Q : σ → Prop} (hkept : KeptByTries Q)

include hkept

theorem Served.keeps {n : Nat} {memory after : σ} (h : Served n memory after) (hmemory : Q memory) :
    Q after := by
  induction h with
  | zero memory => exact hmemory
  | succ access hattempt hmore ih =>
      have hmiddle := hkept.memory _ access hmemory
      rw [hattempt] at hmiddle
      exact ih hmiddle

theorem Action.advance_keeps {action next : Action} {progress : Progress}
    {context after : Context σ} (h : action.advance context = (progress, next, after))
    (hmemory : Q context.memory) : Q after.memory := by
  have htries := advance_tries h
  cases progress with
  | waiting =>
      obtain ⟨n, middle, access, hserved, -, -, -, hwait⟩ := htries
      have hlast := hkept.memory _ access (hserved.keeps hkept hmemory)
      rwa [hwait] at hlast
  | finished writes => exact htries.choose_spec.1.keeps hkept hmemory
  | faulted fault => exact htries.choose_spec.1.keeps hkept hmemory

namespace Flight

variable (f : Flight) {context : Context σ}

theorem access_keeps (hmemory : Q context.memory) : Q (f.access context).2.2.memory := by
  rw [context_access]
  cases f.action with
  | none => exact hmemory
  | some action => exact Action.advance_keeps hkept rfl hmemory

theorem fetch_keeps (hmemory : Q context.memory) : Q (f.fetch context).2.memory := by
  rcases hread :
    Storage.read context.memory .fetch (f.target context.registers) with ⟨answer, after⟩
  have hafter := hkept.fetch _ (f.target context.registers) hmemory
  rw [hread] at hafter
  cases answer with
  | wait =>
      rw [fetch_of_wait hread]
      exact hafter
  | done w =>
      rw [fetch_of_done hread]
      exact hafter

end Flight

namespace Pipeline

omit [Storage σ] hkept in
theorem memory_commitStage (p : Pipeline) (context : Context σ) :
    (p.commitStage context).2.memory = context.memory := by
  unfold commitStage
  split
  · rfl
  · split
    · exact Flight.memory_commit _ context
    · rfl

theorem kept_of_tries : Kept fun _ (context : Context σ) => Q context.memory where
  counts _ _ _ h := h
  commitStage {p context} h := by rwa [memory_commitStage]
  accessStage h := by
    unfold accessStage
    split
    · exact h
    · split
      · exact Flight.access_keeps hkept _ h
      · exact h
  executeStage h _ := h
  decodeStage _ h := h
  fetchStage h := by
    unfold fetchStage
    split
    · exact h
    · split
      · dsimp only
        split
        · exact Flight.fetch_keeps hkept _ h
        · exact Flight.fetch_keeps hkept _ h
      · exact h
  advance _ h := h
  takeIn _ h := h

theorem step_keeps (p : Pipeline) (context : Context σ) (h : Q context.memory) :
    Q (p.step context).2.2.memory :=
  (kept_of_tries hkept).step h

end Pipeline

end

-- They leave memory in good order.

section

open LawfulStorage

variable {σ : Type} [Storage σ] [LawfulStorage σ]

theorem tries_sound : KeptByTries (Sound : σ → Prop) := by
  refine .of_attempt fun s access issuer h => ?_
  cases access with
  | read address => exact (read_sound h rfl).1
  | store address w => exact (store_sound h rfl).1
  | writePartial address data => exact (writePartial_sound h rfl).1

theorem Pipeline.step_sound {p p' : Pipeline} {context after : Context σ}
    {answer : Except Fault Message} (h : Sound context.memory)
    (hresult : p.step context = (answer, p', after)) : Sound after.memory := by
  have hafter := step_keeps tries_sound p context h
  rwa [hresult] at hafter

end

end PipelinedProcessor
