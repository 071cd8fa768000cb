import PipelinedProcessor.Machine.Load
import PipelinedProcessor.Machine.Run
import PipelinedProcessor.Proofs.Architecture.Basic

namespace PipelinedProcessor.Machine

-- What a program can tell of the machine.
def state (machine : Machine) : ArchState where
  registers := machine.registers
  vectors := machine.vectors
  memory := machine.peek

-- What it can tell when a run begins at an address.
def startState (machine : Machine) (address : Nat) : ArchState :=
  { machine.state with registers := machine.registers.setCounter address }

-- The states that the interpreter goes through from there, each before one of its instructions.
def course (machine : Machine) (address n : Nat) : ArchState :=
  (machine.startState address).after machine.memory.capacity n

-- The machine after so many cycles.
def after : Nat → Machine → Machine
  | 0, machine => machine
  | n + 1, machine => (machine.after n).step.2

-- What the next cycle retires, by its address and its word.
def retiring (machine : Machine) : List (Option Nat × Option Word) :=
  if machine.step.2.pipeline.retired = machine.pipeline.retired then []
  else machine.pipeline.slots.writeBack.toList.map fun flight => (flight.address, flight.raw)

-- All that retires in so many cycles, in its order.
def retirements : Nat → Machine → List (Option Nat × Option Word)
  | 0, _ => []
  | n + 1, machine => machine.retirements n ++ (machine.after n).retiring

-- A run at its beginning, with the address that it starts at in the counter.
def begun (machine : Machine) (address : Nat) (pipelined : Bool) (mode : MemoryMode)
    (listening : Bool) : Machine :=
  { machine with mode := mode }.start address pipelined listening

-- The machine with another limit on the cycles of a run.
def withCycles (limit : Nat) (machine : Machine) : Machine :=
  { machine with config.run.maxCycles := limit }

-- Where loads and runs lead to, all of them in one memory mode. Memory may hold anything at first,
-- and a run may be left at any point.
inductive Reached (mode : MemoryMode) : Machine → Prop where
  | fresh {config : Config} {machine : Machine} (hbuild : build config = .ok machine)
      (lines : Vector (Vector Word lineLength) machine.cache.memory.lineCount) :
      Reached mode { machine with cache.memory.lines := lines }
  | load {machine : Machine} (h : Reached mode machine) (start : Nat) (program : List Word) :
      Reached mode (machine.load start program).2
  | start {machine : Machine} (h : Reached mode machine) (address : Nat)
      (pipelined listening : Bool) :
      Reached mode (machine.begun address pipelined mode listening)
  | step {machine : Machine} (h : Reached mode machine) : Reached mode machine.step.2
  | abort {machine : Machine} (h : Reached mode machine) : Reached mode machine.abort
  | reset {machine fresh : Machine} (h : Reached mode machine)
      (hreset : machine.reset = .ok fresh) :
      Reached mode fresh

section

variable {mode : MemoryMode} {machine : Machine}

-- A machine is built of a valid configuration, with nothing cached and zeros in memory.
theorem eq_of_build {config : Config} (hbuild : build config = .ok machine) :
    ∃ hvalid : config.error? = none, machine = {
      config := config
      mode := if config.run.cached then .cache else .direct
      vectors := .empty config.vectorCount config.vectorSlots
      cache := .empty (config.cache.lines / Cache.setCount) config.cache.writeAllocate
        (.zeroed config.memory.lines config.memory.delay (Config.memory_pos hvalid)) } := by
  unfold build at hbuild
  split at hbuild
  · cases hbuild
  · rename_i hvalid
    exact ⟨hvalid, (Except.ok.inj hbuild).symm⟩

theorem Reached.built {config : Config} (hbuild : build config = .ok machine) :
    Reached mode machine :=
  .fresh hbuild machine.cache.memory.lines

theorem Reached.drive (h : Reached mode machine) (limit cycles : Nat) :
    Reached mode (Machine.drive limit cycles machine).2 := by
  induction cycles generalizing machine with
  | zero => exact h.abort
  | succ cycles ih =>
      have hnext := h.step
      rw [Machine.drive]
      split
      · rename_i fault next hstep
        rw [hstep] at hnext
        exact hnext
      · rename_i next hstep
        rw [hstep] at hnext
        exact hnext
      · rename_i next hstep
        rw [hstep] at hnext
        exact hnext
      · rename_i next hstep
        rw [hstep] at hnext
        exact ih hnext

theorem Reached.run (h : Reached mode machine) (address : Nat) (pipelined listening : Bool) :
    Reached mode (machine.run address pipelined mode listening).2 :=
  (h.start address pipelined listening).drive _ _

-- Loading changes the cache and what is behind it alone.

theorem load_of_lt {start : Nat} {program : List Word}
    (h : machine.memory.capacity < (withHalt program).length) :
    machine.load start program =
      (.error (.tooLarge (withHalt program).length machine.memory.capacity), machine) := by
  simp only [load, if_pos h]

theorem load_of_le {start : Nat} {program : List Word}
    (h : (withHalt program).length ≤ machine.memory.capacity) :
    machine.load start program =
      let loaded := loadFrom machine.loadTries start 0 (withHalt program) machine.cache.releaseAll
      (loaded.1.elim (.ok (withHalt program).length) .error,
        { machine with cache := loaded.2 }) := by
  simp only [load, if_neg (Nat.not_lt.mpr h)]
  split
  · rename_i hload
    rw [hload]
    rfl
  · rename_i hload
    rw [hload]
    rfl

-- One cycle, by what it comes to.

theorem step_of_fault {next : Machine} {fault : Fault}
    (hcycle : machine.cycle = (.error fault, next)) :
    machine.step =
      (.error fault, { next with listening := false, cache := next.cache.releaseAll }) := by
  simp only [step, hcycle]

theorem step_of_halted {next : Machine} (hcycle : machine.cycle = (.ok .halted, next)) :
    machine.step = (.ok .halted, { next with
      listening := false
      reports := next.reports ++ if next.listening then [next.pipeline.report] else [] }) := by
  simp only [step, hcycle]

theorem step_of_message {next : Machine} {message : Message}
    (hcycle : machine.cycle = (.ok message, next)) (hmessage : message ≠ .halted) :
    machine.step = (.ok message, next) := by
  cases message with
  | halted => exact absurd rfl hmessage
  | running => simp only [step, hcycle]
  | idle => simp only [step, hcycle]

-- A machine without a run stays as it is.
theorem step_of_over (h : machine.pipeline.running = false) :
    machine.step = (.ok .idle, machine) := by
  obtain ⟨config, mode, registers, vectors, pipeline, listening, reports, cache⟩ := machine
  have hstep {σ : Type} [Storage σ] (context : Context σ) :
      pipeline.step context = (.ok .idle, pipeline, context) := by
    rw [Pipeline.step, if_neg]
    rw [show pipeline.running = false from h]
    exact Bool.false_ne_true
  cases mode with
  | cache => simp only [step, cycle, hstep]
  | direct => simp only [step, cycle, Cache.onMemory_eq, hstep]

-- Many cycles.

theorem after_step (machine : Machine) (n : Nat) :
    machine.step.2.after n = machine.after (n + 1) := by
  induction n with
  | zero => rfl
  | succ n ih =>
      rw [after, ih]
      rfl

theorem after_of_over (h : machine.pipeline.running = false) (n : Nat) :
    machine.after n = machine := by
  induction n with
  | zero => rfl
  | succ n ih => rw [after, ih, step_of_over h]

theorem after_add (machine : Machine) (m n : Nat) :
    machine.after (m + n) = (machine.after m).after n := by
  induction n with
  | zero => rfl
  | succ n ih => rw [← Nat.add_assoc, after, ih, after]

-- How many cycles a run may take makes no difference to any of them.

theorem step_withCycles (machine : Machine) (limit : Nat) :
    (machine.withCycles limit).step = (machine.step.1, machine.step.2.withCycles limit) := by
  have hcycle : (machine.withCycles limit).cycle =
      (machine.cycle.1, machine.cycle.2.withCycles limit) := by
    obtain ⟨config, mode, registers, vectors, pipeline, listening, reports, cache⟩ := machine
    cases mode <;> rfl
  rcases hfound : machine.cycle with ⟨answer, next⟩
  rw [hfound] at hcycle
  cases answer with
  | error fault =>
      rw [step_of_fault hcycle, step_of_fault hfound]
      rfl
  | ok message =>
      by_cases hmessage : message = .halted
      · subst hmessage
        rw [step_of_halted hcycle, step_of_halted hfound]
        rfl
      · rw [step_of_message hcycle hmessage, step_of_message hfound hmessage]

theorem drive_withCycles (machine : Machine) (other limit cycles : Nat) :
    Machine.drive limit cycles (machine.withCycles other) =
      ((Machine.drive limit cycles machine).1,
        (Machine.drive limit cycles machine).2.withCycles other) := by
  induction cycles generalizing machine with
  | zero => rfl
  | succ cycles ih =>
      rw [Machine.drive, step_withCycles, Machine.drive]
      rcases machine.step with ⟨answer, next⟩
      match answer with
      | .error fault => rfl
      | .ok .halted => rfl
      | .ok .idle => rfl
      | .ok .running => exact ih next

-- They are all that a run takes from the configuration.
theorem run_withCycles (machine : Machine) (limit address : Nat) (pipelined : Bool)
    (mode : MemoryMode) (listening : Bool) :
    let driven := Machine.drive limit limit (machine.begun address pipelined mode listening)
    (machine.withCycles limit).run address pipelined mode listening =
      (driven.1, driven.2.withCycles limit) :=
  drive_withCycles (machine.begun address pipelined mode listening) limit limit limit

-- What a run answers when it has come to an end.
def outcome (answer : Except Fault Message) (machine : Machine) : Except RunError Report :=
  match answer with
  | .error fault => .error (.fault fault)
  | .ok .halted => .ok machine.pipeline.report
  | .ok _ => .error .stopped

theorem drive_of_end (limit : Nat) {cycles n : Nat} (hn : n < cycles)
    (hrunning : ∀ i < n, (machine.after i).step.1 = .ok .running)
    (hend : (machine.after n).step.1 ≠ .ok .running) :
    Machine.drive limit cycles machine =
      (outcome (machine.after n).step.1 (machine.after (n + 1)), machine.after (n + 1)) := by
  induction cycles generalizing machine n with
  | zero => omega
  | succ cycles ih =>
      rcases hstep : machine.step with ⟨answer, next⟩
      cases n with
      | zero =>
          have hfirst : machine.after 1 = next := congrArg Prod.snd hstep
          rw [Machine.drive, hfirst]
          show _ = (outcome machine.step.1 next, next)
          rw [after, hstep] at hend
          rw [hstep]
          match answer with
          | .error fault => rfl
          | .ok .halted => rfl
          | .ok .idle => rfl
          | .ok .running => exact absurd rfl hend
      | succ n =>
          have hfirst : answer = .ok .running := by
            have h := hrunning 0 (by omega)
            rwa [after, hstep] at h
          have hnext (i : Nat) : next.after i = machine.after (i + 1) := by
            rw [← after_step, hstep]
          rw [Machine.drive, hstep, hfirst]
          simp only
          rw [ih (show n < cycles by omega)]
          · rw [hnext, hnext]
          · intro i hi
            rw [hnext]
            exact hrunning (i + 1) (by omega)
          · rw [hnext]
            exact hend

theorem drive_of_running (limit : Nat) {cycles : Nat}
    (hrunning : ∀ i < cycles, (machine.after i).step.1 = .ok .running) :
    Machine.drive limit cycles machine =
      (.error (.cycleLimit limit), (machine.after cycles).abort) := by
  induction cycles generalizing machine with
  | zero => rfl
  | succ cycles ih =>
      rcases hstep : machine.step with ⟨answer, next⟩
      have hfirst : answer = .ok .running := by
        have h := hrunning 0 (by omega)
        rwa [after, hstep] at h
      have hnext (i : Nat) : next.after i = machine.after (i + 1) := by
        rw [← after_step, hstep]
      rw [Machine.drive, hstep, hfirst]
      simp only
      rw [ih, hnext]
      intro i hi
      rw [hnext]
      exact hrunning (i + 1) (by omega)

theorem retired_begun (machine : Machine) (address : Nat) (pipelined : Bool) (mode : MemoryMode)
    (listening : Bool) :
    (machine.begun address pipelined mode listening).pipeline.retired = 0 := by
  cases pipelined <;> rfl

-- Whether a run comes to an end in its cycles, and where.
theorem end_or_running (machine : Machine) (cycles : Nat) :
    (∀ i < cycles, (machine.after i).step.1 = .ok .running) ∨
      ∃ n < cycles, (∀ i < n, (machine.after i).step.1 = .ok .running) ∧
        (machine.after n).step.1 ≠ .ok .running := by
  induction cycles with
  | zero => exact .inl fun i hi => absurd hi (Nat.not_lt_zero i)
  | succ cycles ih =>
      rcases ih with hrunning | ⟨n, hn, hrunning, hend⟩
      · by_cases hlast : (machine.after cycles).step.1 = .ok .running
        · left
          intro i hi
          by_cases heq : i = cycles
          · rw [heq]
            exact hlast
          · exact hrunning i (by omega)
        · exact .inr ⟨cycles, by omega, hrunning, hlast⟩
      · exact .inr ⟨n, by omega, hrunning, hend⟩

-- What a run answers is what one of its cycles has come to.

theorem outcome_of_ok {answer : Except Fault Message} {report : Report}
    (h : outcome answer machine = .ok report) :
    answer = .ok .halted ∧ report = machine.pipeline.report := by
  match answer with
  | .error fault => cases h
  | .ok .halted => exact ⟨rfl, (Except.ok.inj h).symm⟩
  | .ok .running => cases h
  | .ok .idle => cases h

theorem outcome_of_fault {answer : Except Fault Message} {cause : Fault}
    (h : outcome answer machine = .error (.fault cause)) : answer = .error cause := by
  match answer with
  | .error fault =>
      obtain rfl := RunError.fault.inj (Except.error.inj h)
      rfl
  | .ok .halted => cases h
  | .ok .running => cases h
  | .ok .idle => cases h

variable {limit cycles : Nat} {final : Machine}

-- A run that does not meet its limit has met an end.
theorem drive_of_outcome {result : Except RunError Report}
    (h : Machine.drive limit cycles machine = (result, final))
    (hresult : result ≠ .error (.cycleLimit limit)) :
    ∃ n < cycles, final = machine.after (n + 1) ∧
      outcome (machine.after n).step.1 final = result := by
  rcases machine.end_or_running cycles with hrunning | ⟨n, hn, hrunning, hend⟩
  · rw [drive_of_running limit hrunning] at h
    exact absurd (Prod.mk.inj h).1.symm hresult
  · rw [drive_of_end limit hn hrunning hend] at h
    obtain ⟨houtcome, rfl⟩ := Prod.mk.inj h
    exact ⟨n, hn, rfl, houtcome⟩

theorem drive_of_ok {report : Report}
    (h : Machine.drive limit cycles machine = (.ok report, final)) :
    ∃ n < cycles, (machine.after n).step.1 = .ok .halted ∧ final = machine.after (n + 1) ∧
      report = final.pipeline.report := by
  obtain ⟨n, hn, hfinal, houtcome⟩ := drive_of_outcome h nofun
  obtain ⟨hanswer, hreport⟩ := outcome_of_ok houtcome
  exact ⟨n, hn, hanswer, hfinal, hreport⟩

theorem drive_of_fault {cause : Fault}
    (h : Machine.drive limit cycles machine = (.error (.fault cause), final)) :
    ∃ n < cycles, (machine.after n).step.1 = .error cause ∧ final = machine.after (n + 1) := by
  obtain ⟨n, hn, hfinal, houtcome⟩ := drive_of_outcome h nofun
  exact ⟨n, hn, outcome_of_fault houtcome, hfinal⟩

end

end PipelinedProcessor.Machine
