import PipelinedProcessor.CommandLine.Runner
import PipelinedProcessor.Proofs.Machine.Ending

namespace PipelinedProcessor

namespace Machine

-- The cycles that the loop of a run carries out, with so many at most. The last of them is the
-- first one after which it does not go on.
def taken : Nat → Machine → Nat
  | 0, _ => 0
  | cycles + 1, machine =>
    match machine.step with
    | (.ok .running, next) => taken cycles next + 1
    | _ => 1

section

variable {machine : Machine} {cycles limit : Nat}

theorem taken_of_running (hgoes : machine.step.1 = .ok .running) :
    taken (cycles + 1) machine = taken cycles machine.step.2 + 1 := by
  rcases hstep : machine.step with ⟨answer, next⟩
  rw [hstep] at hgoes
  obtain rfl : answer = .ok .running := hgoes
  simp only [taken, hstep]

theorem taken_of_over (hends : machine.step.1 ≠ .ok .running) : taken (cycles + 1) machine = 1 := by
  rcases hstep : machine.step with ⟨answer, next⟩
  rw [hstep] at hends
  rw [taken, hstep]
  match answer with
  | .error cause => rfl
  | .ok .halted => rfl
  | .ok .idle => rfl
  | .ok .running => exact absurd rfl hends

theorem taken_of_spent (hgoes : ∀ i < cycles, (machine.after i).step.1 = .ok .running) :
    taken cycles machine = cycles := by
  induction cycles generalizing machine with
  | zero => rfl
  | succ cycles ih =>
      have hfirst : machine.step.1 = .ok .running := hgoes 0 (by omega)
      rw [taken_of_running hfirst, ih]
      intro i hi
      rw [after_step]
      exact hgoes (i + 1) (by omega)

theorem taken_of_end {n : Nat} (hn : n < cycles)
    (hgoes : ∀ i < n, (machine.after i).step.1 = .ok .running)
    (hends : (machine.after n).step.1 ≠ .ok .running) : taken cycles machine = n + 1 := by
  induction n generalizing machine cycles with
  | zero =>
      obtain ⟨cycles, rfl⟩ := Nat.exists_eq_add_of_lt hn
      rw [Nat.zero_add]
      exact taken_of_over hends
  | succ n ih =>
      obtain ⟨cycles, rfl⟩ : ∃ rest, cycles = rest + 1 := ⟨cycles - 1, by omega⟩
      have hfirst : machine.step.1 = .ok .running := hgoes 0 (by omega)
      rw [taken_of_running hfirst, ih (by omega)]
      · intro i hi
        rw [after_step]
        exact hgoes (i + 1) (by omega)
      · rw [after_step]
        exact hends

-- The clock of a run moves on with each of its cycles, whatever the cycle comes to.
theorem clock_step (hrunning : machine.pipeline.running = true) :
    machine.step.2.clock = machine.clock + 1 := by
  rcases hcycle : machine.cycle with ⟨answer, next⟩
  have hclock := (cycle_spec hrunning hcycle).1
  cases answer with
  | error cause =>
      rw [step_of_fault hcycle]
      exact hclock
  | ok message =>
      by_cases hmessage : message = .halted
      · rw [hmessage] at hcycle
        rw [step_of_halted hcycle]
        exact hclock
      · rw [step_of_message hcycle hmessage]
        exact hclock

-- How the loop of a run fails: in one of its cycles, which leaves the clock as it stands, or
-- because they are used up, and then the clock is set back.
inductive Failure (first : Machine) (limit : Nat) : RunError → Machine → Prop where
  | fault {n : Nat} {cause : Fault} {final : Machine} (hn : n < limit)
      (hgoes : ∀ i < n, (first.after i).step.1 = .ok .running)
        (hfails : (first.after n).step = (.error cause, final))
      (htaken : first.taken limit = n + 1) (hclock : final.clock = n + 1) :
      Failure first limit (.fault cause) final
  | spent (hgoes : ∀ i < limit, (first.after i).step.1 = .ok .running)
      (htaken : first.taken limit = limit)
      (hclock : (first.after limit).clock = limit) :
        Failure first limit (.cycleLimit limit) (first.after limit).abort

theorem failure_of_drive {first final : Machine} {error : RunError}
    (hrunning : first.pipeline.running = true) (hclock : first.clock = 0)
    (hdrive : drive limit limit first = (.error error, final)) :
    first.Failure limit error final := by
  rcases first.end_or_running limit with hgoes | ⟨n, hn, hgoes, hends⟩
  · rw [drive_of_running limit hgoes] at hdrive
    obtain ⟨herror, rfl⟩ := Prod.mk.inj hdrive
    obtain rfl := Except.error.inj herror
    exact .spent hgoes (taken_of_spent hgoes) (ongoing_of_running hrunning hclock hgoes).clock_eq
  · have hongoing := ongoing_of_running hrunning hclock hgoes
    have hlast : (first.after (n + 1)).clock = n + 1 :=
      (clock_step hongoing.running).trans (congrArg (· + 1) hongoing.clock_eq)
    have hturn := turn_of_running hongoing.running
    rw [drive_of_end limit hn hgoes hends] at hdrive
    obtain ⟨herror, rfl⟩ := Prod.mk.inj hdrive
    have htaken := taken_of_end hn hgoes hends
    rcases hstep : (first.after n).step with ⟨answer, next⟩
    rw [hstep] at hturn herror hends
    have hnext : first.after (n + 1) = next := congrArg Prod.snd hstep
    rw [hnext] at hlast ⊢
    cases hturn with
    | fault =>
        obtain rfl := Except.error.inj herror
        exact .fault hn hgoes hstep htaken hlast
    | halted => cases herror
    | running => exact absurd rfl hends

variable {address : Nat} {pipelined listening : Bool} {mode : MemoryMode}

theorem failure_of_run {final : Machine} {error : RunError}
    (hrun : machine.run address pipelined mode listening = (.error error, final)) :
    (machine.begun address pipelined mode listening).Failure machine.config.run.maxCycles
      error final := by
  have hrunning : (machine.begun address pipelined mode listening).pipeline.running = true := by
    cases pipelined <;> rfl
  have hclock : (machine.begun address pipelined mode listening).clock = 0 := by
    cases pipelined <;> rfl
  exact failure_of_drive hrunning hclock hrun

-- A run that fails in a cycle leaves the clock at that cycle, the last that it took. One that has
-- used up its cycles has taken all of them, and its clock has come to the limit, but it is back at
-- the beginning before anybody can read it.
theorem clock_of_failure {final : Machine} {error : RunError}
    (hrun : machine.run address pipelined mode listening = (.error error, final)) :
    let first := machine.begun address pipelined mode listening
    let limit := machine.config.run.maxCycles
    let cycles := first.taken limit
    (∃ cause, error = .fault cause ∧ 0 < cycles ∧ cycles ≤ limit ∧
        (∀ i < cycles - 1, (first.after i).step.1 = .ok .running) ∧
        (first.after (cycles - 1)).step = (.error cause, final) ∧ final.clock = cycles) ∨
      (error = .cycleLimit limit ∧ cycles = limit ∧
        (∀ i < limit, (first.after i).step.1 = .ok .running) ∧
        final = (first.after limit).abort ∧ (first.after limit).clock = cycles ∧
        final.clock = 0) := by
  intro first limit cycles
  cases failure_of_run hrun with
  | @fault n cause _ hn hgoes hfails htaken hclock =>
      have hcycles : cycles = n + 1 := htaken
      refine .inl ⟨cause, rfl, ?_⟩
      rw [hcycles]
      exact ⟨Nat.succ_pos n, hn, hgoes, hfails, hclock⟩
  | spent hgoes htaken hclock => exact .inr ⟨rfl, htaken, hgoes, rfl, hclock.trans htaken.symm, rfl⟩

-- A division by zero fails in Execute, in the third cycle.
theorem clock_of_division :
    ∃ fresh, build { memory := ⟨1, 0⟩, cache := ⟨4, false⟩, run := { maxCycles := 50 } } =
      .ok fresh ∧
      let machine := (fresh.load 0 [(Instruction.scalarImmediate false .divide 1 2 0).encode]).2
      ∃ final, machine.run 0 false .cache false = (.error (.fault (.divisionByZero 0)), final) ∧
        (machine.begun 0 false .cache false).taken 50 = 3 ∧ final.clock = 3 := by
  refine ⟨_, rfl, ?_⟩
  intro machine
  have hrun : machine.run 0 false .cache false = (.error (.fault (.divisionByZero 0)), _) :=
    Prod.ext (by decide +kernel) rfl
  have htaken : (machine.begun 0 false .cache false).taken 50 = 3 := by decide +kernel
  refine ⟨_, hrun, htaken, ?_⟩
  rcases clock_of_failure hrun with ⟨_, _, -, -, -, -, hclock⟩ | ⟨hlimit, -⟩
  · exact hclock.trans htaken
  · cases hlimit

-- A branch to itself never ends. It takes all of its cycles, and none of them can be read from the
-- clock.
theorem clock_apart :
    ∃ fresh, build { memory := ⟨1, 0⟩, cache := ⟨4, false⟩, run := { maxCycles := 5 } } =
      .ok fresh ∧
      let machine := (fresh.load 0 [(Instruction.branch .always false 0).encode]).2
      (machine.run 0 false .direct false).1 = .error (.cycleLimit 5) ∧
        (machine.begun 0 false .direct false).taken 5 = 5 ∧
        (machine.run 0 false .direct false).2.clock = 0 :=
  ⟨_, rfl, by decide +kernel⟩

open CommandLine in
-- The cycle that the runner names for a failed run is the one in which it failed, and the cycle
-- before the first if it has used up its cycles.
theorem errors_of_failed {options : RunOptions} {bytes : List UInt8} {program : List Word}
    {count : Nat} {built loaded final : Machine} {error : RunError}
    (hbuild : build options.config = .ok built)
    (hread : readProgram options.binary bytes = .ok program)
    (hload : built.load options.start program = (.ok count, loaded))
    (hrun : loaded.runDefault options.start = (.error error, final)) :
    let first := loaded.begun options.start loaded.config.run.pipelined loaded.mode false
    ∃ cycle, (CommandLine.run options bytes).errors =
        causesText ["Run failed at cycle " ++ cycle.repr, error.message] ∧
      ((∃ cause, error = .fault cause) → cycle = first.taken loaded.config.run.maxCycles) ∧
      ((∃ limit, error = .cycleLimit limit) → cycle = 0) := by
  intro first
  refine ⟨final.clock, ?_, ?_⟩
  · simp only [CommandLine.run, hbuild, hread, hload, hrun, failed]
  · cases failure_of_run hrun with
    | fault hn hgoes hfails htaken hclock => exact ⟨fun _ => hclock.trans htaken.symm, nofun⟩
    | spent hgoes htaken hclock => exact ⟨nofun, fun _ => rfl⟩

end

end Machine

end PipelinedProcessor
