import PipelinedProcessor.Proofs.Machine.Basic
import PipelinedProcessor.Proofs.Machine.Port

namespace PipelinedProcessor.Machine

-- The machine as a run on main memory finds it, whatever its cache holds.
def withoutCache (machine : Machine) : Machine :=
  { machine with cache := .empty 1 false machine.memory }

theorem good_withoutCache (machine : Machine) : MainMemory.port.Good machine.withoutCache.cache :=
  MainMemory.port.good_empty Nat.one_pos false machine.memory

variable {machine : Machine}

-- Such a run makes no difference between the two.

theorem begun_withoutCache (machine : Machine) (address : Nat) (pipelined : Bool)
    (mode : MemoryMode) (listening : Bool) :
    machine.withoutCache.begun address pipelined mode listening =
      (machine.begun address pipelined mode listening).withoutCache := by
  simp only [begun, start, withoutCache, memory]
  rfl

theorem step_withoutCache (hmode : machine.mode = .direct) :
    machine.withoutCache.step = (machine.step.1, machine.step.2.withoutCache) ∧
    machine.step.2.mode = .direct := by
  have hcycle : machine.withoutCache.cycle = (machine.cycle.1, machine.cycle.2.withoutCache) ∧
      machine.cycle.2.mode = .direct := by
    obtain ⟨config, mode, registers, vectors, pipeline, listening, reports, cache⟩ := machine
    obtain rfl : mode = .direct := hmode
    exact ⟨rfl, rfl⟩
  rcases hfound : machine.cycle with ⟨answer, next⟩
  rw [hfound] at hcycle
  obtain ⟨hcycle, hkept⟩ := hcycle
  cases answer with
  | error fault =>
      rw [step_of_fault hcycle, step_of_fault hfound]
      exact ⟨rfl, hkept⟩
  | ok message =>
      by_cases hmessage : message = .halted
      · subst hmessage
        rw [step_of_halted hcycle, step_of_halted hfound]
        exact ⟨rfl, hkept⟩
      · rw [step_of_message hcycle hmessage, step_of_message hfound hmessage]
        exact ⟨rfl, hkept⟩

theorem after_withoutCache (hmode : machine.mode = .direct) (n : Nat) :
    machine.withoutCache.after n = (machine.after n).withoutCache ∧
    (machine.after n).mode = .direct := by
  induction n with
  | zero => exact ⟨rfl, hmode⟩
  | succ n ih =>
      obtain ⟨hstep, hkept⟩ := step_withoutCache ih.2
      rw [after, ih.1, hstep]
      exact ⟨rfl, hkept⟩

theorem after_begun_withoutCache (machine : Machine) (address : Nat) (pipelined listening : Bool)
    (n : Nat) :
    (machine.withoutCache.begun address pipelined .direct listening).after n =
        ((machine.begun address pipelined .direct listening).after n).withoutCache ∧
      ((machine.withoutCache.begun address pipelined .direct listening).after n).step.1 =
        ((machine.begun address pipelined .direct listening).after n).step.1 := by
  rw [begun_withoutCache, (after_withoutCache rfl n).1,
    (step_withoutCache (after_withoutCache rfl n).2).1]
  exact ⟨rfl, rfl⟩

theorem retirements_withoutCache (hmode : machine.mode = .direct) (n : Nat) :
    machine.withoutCache.retirements n = machine.retirements n := by
  induction n with
  | zero => rfl
  | succ n ih =>
      obtain ⟨hsame, hkept⟩ := after_withoutCache hmode n
      rw [retirements, retirements, ih, hsame, retiring, (step_withoutCache hkept).1]
      rfl

theorem drive_withoutCache (limit cycles : Nat) (hmode : machine.mode = .direct) :
    Machine.drive limit cycles machine.withoutCache =
      ((Machine.drive limit cycles machine).1,
        (Machine.drive limit cycles machine).2.withoutCache) := by
  induction cycles generalizing machine with
  | zero => rfl
  | succ cycles ih =>
      obtain ⟨hstep, hkept⟩ := step_withoutCache hmode
      rcases hfound : machine.step with ⟨answer, next⟩
      rw [hfound] at hstep hkept
      rw [Machine.drive, Machine.drive, hstep, hfound]
      cases answer with
      | error fault => rfl
      | ok message =>
          cases message with
          | halted => rfl
          | idle => rfl
          | running => exact ih hkept

theorem run_withoutCache (machine : Machine) (address : Nat) (pipelined listening : Bool) :
    machine.withoutCache.run address pipelined .direct listening =
      ((machine.run address pipelined .direct listening).1,
        (machine.run address pipelined .direct listening).2.withoutCache) := by
  have hbegun := machine.begun_withoutCache address pipelined .direct listening
  have hmode : (machine.begun address pipelined .direct listening).mode = .direct := rfl
  have hdrive := drive_withoutCache machine.config.run.maxCycles machine.config.run.maxCycles hmode
  rwa [← hbegun] at hdrive

end PipelinedProcessor.Machine
