import PipelinedProcessor.Proofs.Architecture.Course

namespace PipelinedProcessor

-- Past the capacity the words are those of the beginning.
def MemoryView.Wraps (capacity : Nat) (memory : MemoryView) : Prop :=
  ∀ address, memory (address % capacity) = memory address

section

variable {capacity : Nat}

theorem MemoryView.Wraps.put {memory : MemoryView} (h : memory.Wraps capacity) (address : Nat)
    (w : Word) :
    (memory.put capacity address w).Wraps capacity := by
  intro other
  rw [put_apply, put_apply, Nat.mod_mod, h other]

theorem MemoryView.Wraps.putAll {memory : MemoryView} (h : memory.Wraps capacity) (address : Nat)
    (words : List Word) : (memory.putAll capacity address words).Wraps capacity := by
  induction words generalizing memory address with
  | nil => exact h
  | cons w rest ih => exact ih (h.put address w) (address + 1)

theorem Action.outcome_wraps {holds : Condition → Bool} {view : MemoryView} {action : Action}
    {outcome : Outcome} (h : view.Wraps capacity)
    (houtcome : action.outcome capacity holds view = .ok outcome) :
    outcome.memory.Wraps capacity := by
  cases action with
  | scalar op rd swapped flags first second =>
      obtain ⟨writes, -, rfl⟩ := ok_of_map houtcome
      exact h
  | load rd place =>
      obtain rfl := Except.ok.inj houtcome
      exact h
  | store place w =>
      obtain rfl := Except.ok.inj houtcome
      exact h.put place w
  | vectorLoad vd base length loaded =>
      obtain rfl := Except.ok.inj houtcome
      exact h
  | vectorStore base data written =>
      obtain rfl := Except.ok.inj houtcome
      exact h.putAll (base + written) (data.drop written)
  | branch cond target back =>
      obtain rfl := Except.ok.inj houtcome
      split <;> exact h

namespace ArchState

theorem staged_wraps {s : ArchState} {outcome : Outcome} (h : s.memory.Wraps capacity)
    (houtcome : s.staged capacity = .ok outcome) : outcome.memory.Wraps capacity := by
  obtain ⟨work, -, hwork⟩ := ok_of_bind houtcome
  cases work with
  | nothing =>
      obtain rfl := Except.ok.inj hwork
      exact h
  | results writes =>
      obtain rfl := Except.ok.inj hwork
      exact h
  | action todo => exact Action.outcome_wraps h hwork

theorem next_wraps {s : ArchState} (h : s.memory.Wraps capacity) :
    (s.next capacity).memory.Wraps capacity := by
  rcases next_cases capacity s with ⟨outcome, houtcome, hnext⟩ | hsame
  · rw [hnext, Outcome.memory_apply]
    exact staged_wraps h houtcome
  · rw [hsame]
    exact h

theorem after_wraps {s : ArchState} (h : s.memory.Wraps capacity) (n : Nat) :
    (s.after capacity n).memory.Wraps capacity := by
  induction n with
  | zero => exact h
  | succ n ih => exact next_wraps ih

end ArchState

end

end PipelinedProcessor
