import PipelinedProcessor.Proofs.Pipeline.Retirement

namespace PipelinedProcessor.Pipeline

theorem range_append_range' (n count : Nat) :
    List.range n ++ List.range' n count = List.range (n + count) := by
  have h := List.range'_append_1 (s := 0) (m := n) (n := count)
  simpa [List.range_eq_range'] using h

section

variable {σ : Type} [Storage σ]

variable (pipelined : Bool) (context : Context σ)

-- What the cycle after so many answers.
def answerAt (n : Nat) : Except Fault Message :=
  ((runFor pipelined context n).1.step (runFor pipelined context n).2).1

theorem runFor_invariant (n : Nat) :
    WellFormed (runFor pipelined context n).1 ∧ (runFor pipelined context n).1.Unfinished := by
  induction n with
  | zero => exact ⟨wellFormed_start pipelined, unfinished_start pipelined⟩
  | succ n ih =>
      have hcycle := cycled_of_step ih.1 ih.2 (rfl : (runFor pipelined context n).1.step
        (runFor pipelined context n).2 = (_, _, _))
      exact ⟨hcycle.later.wellFormed, hcycle.unfinished⟩

theorem cycled_runFor (n : Nat) :
    Cycled (runFor pipelined context n).1 (runFor pipelined context n).2
    (answerAt pipelined context n) (runFor pipelined context (n + 1)).1
      (runFor pipelined context (n + 1)).2 :=
  cycled_of_step (runFor_invariant pipelined context n).1
    (runFor_invariant pipelined context n).2 rfl

-- All that has left, and all whose results were committed, in as many cycles.

def left (n : Nat) : List Nat :=
  (List.range n).flatMap fun k => leaving (runFor pipelined context k).1
    (runFor pipelined context (k + 1)).1

def committedIds (n : Nat) : List Nat :=
  (List.range n).flatMap fun k => (runFor pipelined context k).1.committing.map Flight.id

-- What leaves in a cycle is what commits in it, but for a cycle that fails.
theorem leaving_runFor (n : Nat) :
    (∀ message, answerAt pipelined context n = .ok message →
      leaving (runFor pipelined context n).1 (runFor pipelined context (n + 1)).1 =
        (runFor pipelined context n).1.committing.map Flight.id) ∧
    ∀ cause, answerAt pipelined context n = .error cause →
      leaving (runFor pipelined context n).1 (runFor pipelined context (n + 1)).1 = [] := by
  have hwell := (runFor_invariant pipelined context n).1
  have hcycle := cycled_runFor pipelined context n
  obtain ⟨hids, -, hle⟩ := hwell.committing_eq
  constructor
  · intro message hanswer
    rw [hids]
    exact hwell.leaving_eq hcycle.later.wellFormed hcycle.later.nextId_le hle
      (hcycle.retired_of_ok message hanswer)
  · intro cause hanswer
    exact hwell.leaving_eq hcycle.later.wellFormed hcycle.later.nextId_le (Nat.zero_le _)
      (hcycle.retired_of_error cause hanswer)

theorem left_eq (n : Nat) :
    left pipelined context n = List.range (runFor pipelined context n).1.retired := by
  induction n with
  | zero => cases pipelined <;> rfl
  | succ n ih =>
      have hcycle := cycled_runFor pipelined context n
      obtain ⟨hids, -, -⟩ := (runFor_invariant pipelined context n).1.committing_eq
      obtain ⟨hok, herror⟩ := leaving_runFor pipelined context n
      have hsucc : left pipelined context (n + 1) = left pipelined context n ++
          leaving (runFor pipelined context n).1 (runFor pipelined context (n + 1)).1 := by
        simp [left, List.range_succ]
      rw [hsucc, ih]
      cases hanswer : answerAt pipelined context n with
      | error cause =>
          rw [herror cause hanswer, hcycle.retired_of_error cause hanswer, List.append_nil]
      | ok message =>
          rw [hok message hanswer, hcycle.retired_of_ok message hanswer, hids]
          exact range_append_range' _ _

theorem committedIds_succ (n : Nat) : committedIds pipelined context (n + 1) =
    committedIds pipelined context n ++
      (runFor pipelined context n).1.committing.map Flight.id := by
  simp [committedIds, List.range_succ]

-- An instruction whose results are committed retires in the same cycle, or the run has failed in
-- it.
theorem committedIds_eq (n : Nat) : ∃ count, committedIds pipelined context n = List.range count ∧
    (count = (runFor pipelined context n).1.retired ∨
      count = (runFor pipelined context n).1.retired + 1 ∧
      (runFor pipelined context n).1.running = false ∧
        ∃ k < n, ∃ cause, answerAt pipelined context k = .error cause) := by
  induction n with
  | zero => exact ⟨0, rfl, .inl (by cases pipelined <;> rfl)⟩
  | succ n ih =>
      have hcycle := cycled_runFor pipelined context n
      obtain ⟨hids, hone, -⟩ := (runFor_invariant pipelined context n).1.committing_eq
      obtain ⟨count, hcount, hrest⟩ := ih
      rw [committedIds_succ, hcount]
      by_cases hrunning : (runFor pipelined context n).1.running = true
      · have hall : count = (runFor pipelined context n).1.retired := by
          rcases hrest with hall | ⟨-, hstopped, -⟩
          · exact hall
          · rw [hrunning] at hstopped
            cases hstopped
        rw [hids, hall, range_append_range']
        refine ⟨_, rfl, ?_⟩
        cases hanswer : answerAt pipelined context n with
        | ok message => exact .inl (hcycle.retired_of_ok message hanswer).symm
        | error cause =>
            have hstep : (runFor pipelined context n).1.step (runFor pipelined context n).2 =
                (answerAt pipelined context n, runFor pipelined context (n + 1)) := rfl
            have hstopped := stopped_of_step hrunning hstep (by rw [hanswer]; nofun)
            rw [hcycle.retired_of_error cause hanswer]
            by_cases hnone : (runFor pipelined context n).1.committing.length = 0
            · left
              rw [hnone, Nat.add_zero]
            · right
              exact ⟨by omega, hstopped, n, Nat.lt_succ_self n, cause, hanswer⟩
      · have hnone : (runFor pipelined context n).1.committing = [] := if_neg hrunning
        have hsame : (runFor pipelined context (n + 1)).1 = (runFor pipelined context n).1 := by
          rw [runFor, step_of_stopped (Bool.eq_false_iff.mpr hrunning)]
        rw [hnone, hsame, List.map_nil, List.append_nil]
        refine ⟨count, rfl, hrest.imp_right ?_⟩
        rintro ⟨hlate, hstopped, k, hk, hfailed⟩
        exact ⟨hlate, hstopped, k, by omega, hfailed⟩

-- The order of a run after so many cycles, and in the next one.
structure InOrder (n : Nat) : Prop where
  -- what has retired are the first instructions, in their order and each once
  left_eq : left pipelined context n = List.range (runFor pipelined context n).1.retired
  -- what retires in a cycle, one at most, is what commits its results in it
  single : (leaving (runFor pipelined context n).1 (runFor pipelined context (n + 1)).1).length ≤ 1
  together : ∀ message, answerAt pipelined context n = .ok message →
    leaving (runFor pipelined context n).1 (runFor pipelined context (n + 1)).1 =
      (runFor pipelined context n).1.committing.map Flight.id
  failing : ∀ cause, answerAt pipelined context n = .error cause →
    leaving (runFor pipelined context n).1 (runFor pipelined context (n + 1)).1 = []
  -- committing is all that is done to the registers, and happens once to an instruction
  effect : ((runFor pipelined context n).1.committed (runFor pipelined context n).2).KeepsRegisters
    (runFor pipelined context (n + 1)).2
  committed : ∃ count, committedIds pipelined context n = List.range count ∧
    (count = (runFor pipelined context n).1.retired ∨
      count = (runFor pipelined context n).1.retired + 1 ∧
        ∃ k < n, ∃ cause, answerAt pipelined context k = .error cause)
  -- nothing comes after the word that halts, and the run ends when it is the next
  admission : ∀ id, (runFor pipelined context n).1.haltId = some id → ∀ m, n ≤ m →
    (runFor pipelined context m).1.haltId = some id ∧ (runFor pipelined context m).1.nextId = id + 1
  halted : answerAt pipelined context n = .ok .halted →
    (runFor pipelined context (n + 1)).1.haltId =
      some (runFor pipelined context (n + 1)).1.retired ∧
      (runFor pipelined context (n + 1)).1.nextId =
        (runFor pipelined context (n + 1)).1.retired + 1 ∧
      committedIds pipelined context (n + 1) =
        List.range (runFor pipelined context (n + 1)).1.retired

theorem running_of_answer {n : Nat} (hanswer : answerAt pipelined context n ≠ .ok .idle) :
    (runFor pipelined context n).1.running = true := by
  by_contra hstopped
  apply hanswer
  rw [answerAt, step_of_stopped (Bool.eq_false_iff.mpr hstopped)]

end

end PipelinedProcessor.Pipeline
