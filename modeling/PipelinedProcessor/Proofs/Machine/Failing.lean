import PipelinedProcessor.Proofs.Cache.LineCache
import PipelinedProcessor.Proofs.Machine.Ending
import PipelinedProcessor.Proofs.Pipeline.Accountable
import PipelinedProcessor.Proofs.Pipeline.Visits

namespace PipelinedProcessor

open Pipeline

-- Loading leaves every set its ways.

namespace Cache

theorem sized_of_memory {cache : Cache} (h : Sized cache) (memory : MainMemory) :
    Sized { cache with memory := memory } :=
  ⟨h.ways_pos, h.length_eq, h.held_lt⟩

theorem sized_loadFrom {cache : Cache} (h : Sized cache) (tries start index : Nat)
    (words : List Word) :
    Sized (Machine.loadFrom tries start index words cache).2 := by
  induction words generalizing cache index with
  | nil => exact h
  | cons w rest ih =>
      have hword : Sized (Machine.loadWord cache ((start + index) % unsignedBound) tries w).2 :=
        sized_of_memory (Step.sized h (.invalidate ((start + index) % unsignedBound))) _
      rw [Machine.loadFrom]
      rcases hload :
        Machine.loadWord cache ((start + index) % unsignedBound) tries w with ⟨answer, loaded⟩
      rw [hload] at hword
      cases answer with
      | none => exact hword
      | some _ => exact ih hword (index + 1)

theorem sized_releaseAll {cache : Cache} (h : Sized cache) : Sized cache.releaseAll :=
  Step.sized h (.asked .releaseAll)

end Cache

namespace Machine

-- Where loads and runs lead to, in one memory mode or in both.
inductive Visited : Machine → Prop where
  | fresh {config : Config} {machine : Machine} (hbuild : build config = .ok machine)
      (lines : Vector (Vector Word lineLength) machine.cache.memory.lineCount) :
      Visited { machine with cache.memory.lines := lines }
  | load {machine : Machine} (h : Visited machine) (start : Nat) (program : List Word) :
      Visited (machine.load start program).2
  | switch {machine : Machine} (h : Visited machine) (mode : MemoryMode) :
      Visited { machine with mode := mode }
  | start {machine : Machine} (h : Visited machine) (address : Nat) (pipelined : Bool)
      (mode : MemoryMode)
      (listening : Bool) : Visited (machine.begun address pipelined mode listening)
  | step {machine : Machine} (h : Visited machine) : Visited machine.step.2
  | abort {machine : Machine} (h : Visited machine) : Visited machine.abort
  | reset {machine fresh : Machine} (h : Visited machine) (hreset : machine.reset = .ok fresh) :
      Visited fresh

end Machine

open Machine

section

variable {σ : Type} [Storage σ] [LawfulStorage σ] [LiveStorage σ] {port : Port σ}
  {machine : Machine}

namespace Port

-- A cycle of a machine is one of its pipeline, whatever is in its memory. After a fault what memory
-- was busy with is forgotten.
theorem step_eq (hmode : machine.mode = port.mode) :
    machine.step.1 = (machine.pipeline.step (port.context machine)).1 ∧
      machine.step.2.pipeline = (machine.pipeline.step (port.context machine)).2.1 ∧
      machine.step.2.mode = machine.mode ∧
      ∃ cache, cache =
        port.set machine.cache (machine.pipeline.step (port.context machine)).2.2.memory ∧
        (machine.step.2.cache = cache ∨ machine.step.2.cache = cache.releaseAll) := by
  rcases hstep : machine.pipeline.step (port.context machine) with ⟨found, p, after⟩
  have hcycle := port.cycle_eq hmode hstep
  cases found with
  | error fault =>
      rw [step_of_fault hcycle]
      exact ⟨rfl, rfl, rfl, _, rfl, .inr rfl⟩
  | ok message =>
      by_cases hmessage : message = .halted
      · rw [hmessage] at hcycle
        rw [step_of_halted hcycle, hmessage]
        exact ⟨rfl, rfl, rfl, _, rfl, .inl rfl⟩
      · rw [step_of_message hcycle hmessage]
        exact ⟨rfl, rfl, rfl, _, rfl, .inl rfl⟩

end Port

end

namespace Machine.Visited

variable {machine : Machine}

theorem sized_build {config : Config} (hbuild : build config = .ok machine) :
    Cache.Sized machine.cache := by
  obtain ⟨hvalid, rfl⟩ := eq_of_build hbuild
  exact Cache.sized_empty (Config.ways_pos hvalid) _ _

theorem sized_step (h : Cache.Sized machine.cache) : Cache.Sized machine.step.2.cache := by
  obtain ⟨cache, hsized, hcache⟩ : ∃ cache, Cache.Sized cache ∧
      (machine.step.2.cache = cache ∨ machine.step.2.cache = cache.releaseAll) := by
    cases hmode : machine.mode with
    | cache =>
        obtain ⟨-, -, -, cache, hcache, hcases⟩ := Cache.port.step_eq hmode
        refine ⟨cache, ?_, hcases⟩
        rw [hcache]
        exact step_keeps Cache.tries_sized machine.pipeline _ h
    | direct =>
        obtain ⟨-, -, -, cache, hcache, hcases⟩ := MainMemory.port.step_eq hmode
        refine ⟨cache, ?_, hcases⟩
        rw [hcache]
        exact Cache.sized_of_memory h _
  rcases hcache with hcache | hcache
  · rw [hcache]
    exact hsized
  · rw [hcache]
    exact Cache.sized_releaseAll hsized

theorem sized (h : machine.Visited) : Cache.Sized machine.cache := by
  induction h with
  | fresh hbuild lines => exact Cache.sized_of_memory (sized_build hbuild) _
  | @load machine _ start program ih =>
      rcases Nat.lt_or_ge machine.memory.capacity (withHalt program).length with hlt | hle
      · rw [load_of_lt hlt]
        exact ih
      · rw [load_of_le hle]
        exact Cache.sized_loadFrom (Cache.sized_releaseAll ih) _ start 0 (withHalt program)
  | switch _ _ ih => exact ih
  | start _ address pipelined mode listening ih => exact Cache.sized_releaseAll ih
  | step _ ih => exact sized_step ih
  | abort _ ih => exact Cache.sized_releaseAll ih
  | reset _ hreset ih =>
      obtain ⟨built, hbuild, rfl⟩ := ok_of_map hreset
      have hsized : Cache.Sized built.cache := sized_build hbuild
      exact hsized

theorem after (h : machine.Visited) (n : Nat) : (machine.after n).Visited := by
  induction n with
  | zero => exact h
  | succ n ih => exact ih.step

end Machine.Visited

-- A pipeline that does not miss a flight in any cycle, and has none outside of its stages.
def Pipeline.Finds (σ : Type) [Storage σ] (p : Pipeline) : Prop :=
  ∃ l, Alongside σ p l ∧ ∀ context : Context σ,
  ∀ visit ∈ Ledger.visits Stage.pipeline.reverse l.tick context,
    visit.1 ∈ Stage.pipeline ∧ visit.2.Finds visit.1

section

variable {σ τ : Type} [Storage σ] [LawfulStorage σ] [LiveStorage σ] [Storage τ] {port : Port σ}
  {machine : Machine}

namespace Port

-- A cycle in which every flight is found, and which would come to the same on a memory that may
-- refuse an access. There is none that it refuses.
structure Orderly (port : Port σ) (lines : σ → τ) (refused : τ → List OutsideLine)
    (machine : Machine) : Prop where
  finds : machine.pipeline.Finds σ
  step_eq : machine.pipeline.step ((port.context machine).on lines) =
    ((machine.pipeline.step (port.context machine)).1,
      (machine.pipeline.step (port.context machine)).2.1,
      (machine.pipeline.step (port.context machine)).2.2.on lines)
  refused_eq : refused (machine.pipeline.step ((port.context machine).on lines)).2.2.memory = []

-- What every cycle of a run finds.
structure Driven (port : Port σ) (machine : Machine) : Prop where
  mode_eq : machine.mode = port.mode
  accountable : Upheld 0 Flight.Accountable machine.pipeline
  alongside : ∃ l, Alongside σ machine.pipeline l

theorem Driven.begun (machine : Machine) (address : Nat) (pipelined listening : Bool) :
    port.Driven (machine.begun address pipelined port.mode listening) :=
  ⟨rfl, upheld_accountable_start pipelined, _, .start pipelined⟩

namespace Driven

variable (h : port.Driven machine)

include h

theorem step : port.Driven machine.step.2 := by
  obtain ⟨-, hpipeline, hmode, -⟩ := port.step_eq h.mode_eq
  obtain ⟨l, halongside⟩ := h.alongside
  refine ⟨hmode.trans h.mode_eq, ?_, ?_⟩
  · rw [hpipeline]
    exact (lasting_accountable σ).kept.step h.accountable
  · rw [hpipeline]
    exact ⟨_, halongside.step (port.context machine)⟩

theorem after (n : Nat) : port.Driven (machine.after n) := by
  induction n with
  | zero => exact h
  | succ n ih => exact ih.step

theorem finds : machine.pipeline.Finds σ := by
  obtain ⟨l, halongside⟩ := h.alongside
  exact ⟨l, halongside, fun context => halongside.finds context⟩

theorem raises (hadvances : Storage.Advances σ) {cause : Fault}
    (hstep : machine.step.1 = .error cause) :
    ∃ f w a, machine.pipeline.Raises (port.context machine) cause f ∧ f.raw = some w ∧
      f.instr = some (Instruction.ofWord w) ∧ f.address = some a ∧
      (Instruction.ofWord w).Faults a cause := by
  rw [(port.step_eq h.mode_eq).1] at hstep
  obtain ⟨-, f, hraises⟩ := raises_of_step hstep
  obtain ⟨w, a, hword⟩ := faults_of_raises hadvances h.accountable hraises
  exact ⟨f, w, a, hraises, hword⟩

end Driven

end Port

end

namespace Machine

-- The instruction that the next cycle fails with, in the memory mode of the machine.
def Raises (machine : Machine) (cause : Fault) (f : Flight) : Prop :=
  match machine.mode with
  | .cache => machine.pipeline.Raises (Cache.port.context machine) cause f
  | .direct => machine.pipeline.Raises (MainMemory.port.context machine) cause f

-- Whether the next cycle finds everything in its place, in the memory mode of the machine.
def Orderly (machine : Machine) : Prop :=
  match machine.mode with
  | .cache => Cache.port.Orderly LineCache.of LineCache.refused machine
  | .direct => MainMemory.port.Orderly LineStore.of LineStore.refused machine

-- Such an instruction has a word of memory that asks for what cannot be done.
def Fails (machine : Machine) (cause : Fault) : Prop :=
  ∃ f w a, machine.Raises cause f ∧ f.raw = some w ∧ f.instr = some (Instruction.ofWord w) ∧
  f.address = some a ∧
    (Instruction.ofWord w).Faults a cause

section

variable {machine : Machine}

-- A cycle of a run in one of the modes.
def Driven (machine : Machine) : Prop := Cache.port.Driven machine ∨ MainMemory.port.Driven machine

theorem Driven.begun (machine : Machine) (address : Nat) (pipelined : Bool) (mode : MemoryMode)
    (listening : Bool) (n : Nat) :
    ((machine.begun address pipelined mode listening).after n).Driven := by
  cases mode with
  | cache => exact .inl ((Port.Driven.begun machine address pipelined listening).after n)
  | direct => exact .inr ((Port.Driven.begun machine address pipelined listening).after n)

theorem Driven.fails (h : machine.Driven) {cause : Fault} (hstep : machine.step.1 = .error cause) :
    machine.Fails cause := by
  rcases h with h | h
  · obtain ⟨f, w, a, hraises, hword⟩ := h.raises Cache.advances hstep
    refine ⟨f, w, a, ?_, hword⟩
    rw [Raises, h.mode_eq]
    exact hraises
  · obtain ⟨f, w, a, hraises, hword⟩ := h.raises MainMemory.advances hstep
    refine ⟨f, w, a, ?_, hword⟩
    rw [Raises, h.mode_eq]
    exact hraises

theorem Driven.orderly (h : machine.Driven) (hsized : Cache.Sized machine.cache) :
    machine.Orderly := by
  rcases h with h | h
  · have hport : Cache.Sized (Cache.port.context machine).memory := hsized
    have hstep := Cache.step_on_lines machine.pipeline hport
    rw [Orderly, h.mode_eq]
    exact ⟨h.finds, hstep, congrArg (fun found => found.2.2.memory.refused) hstep⟩
  · have hstep := machine.pipeline.step_on LineStore.standsFor_of (MainMemory.port.context machine)
    rw [Orderly, h.mode_eq]
    exact ⟨h.finds, hstep, congrArg (fun found => found.2.2.memory.refused) hstep⟩

-- A run that answers an error has used up its cycles, or one of its instructions has failed.
theorem error_of_run (machine : Machine) (address : Nat) (pipelined : Bool) (mode : MemoryMode)
    (listening : Bool) {error : RunError}
    (h : (machine.run address pipelined mode listening).1 = .error error) :
    error = .cycleLimit machine.config.run.maxCycles ∨ ∃ cause, error = .fault cause ∧
      ∃ n < machine.config.run.maxCycles,
        ((machine.begun address pipelined mode listening).after n).step.1 = .error cause := by
  have hrunning : (machine.begun address pipelined mode listening).pipeline.running = true := by
    cases pipelined <;> rfl
  have hclock : (machine.begun address pipelined mode listening).clock = 0 := by
    cases pipelined <;> rfl
  have hrun : machine.run address pipelined mode listening =
      Machine.drive machine.config.run.maxCycles
    machine.config.run.maxCycles (machine.begun address pipelined mode listening) := rfl
  rw [hrun] at h
  rcases (machine.begun address pipelined mode listening).end_or_running
    machine.config.run.maxCycles with
    hgoes | ⟨n, hn, hgoes, hend⟩
  · rw [drive_of_running _ hgoes] at h
    exact .inl (Except.error.inj h).symm
  · have hturn := turn_of_running (ongoing_of_running hrunning hclock hgoes).running
    rw [drive_of_end _ hn hgoes hend] at h
    refine .inr ?_
    generalize hanswer : ((machine.begun address pipelined mode listening).after n).step.1 =
      answer at hturn hend h
    cases hturn with
    | fault => exact ⟨_, (Except.error.inj h).symm, n, hn, hanswer⟩
    | halted => cases h
    | running => exact absurd rfl hend

-- Nothing but a fault of the program and the limit on its cycles stops a run. The fault is that of
-- an instruction whose word, as it is in memory, asks for what cannot be done; all other failures
-- come from an order that is never left: the numbers in the slots are those of flights, each in its
-- stage, and no line of memory or of the cache refuses what comes to it, nor does memory refuse
-- others who write.
theorem failures_of_visited (h : machine.Visited) (address : Nat) (pipelined : Bool)
    (mode : MemoryMode) (listening : Bool) :
    (∀ error, (machine.run address pipelined mode listening).1 = .error error →
      error = .cycleLimit machine.config.run.maxCycles ∨ ∃ cause, error = .fault cause ∧
        ∃ n < machine.config.run.maxCycles,
        ((machine.begun address pipelined mode listening).after n).Fails cause) ∧
    (∀ n, ((machine.begun address pipelined mode listening).after n).Orderly) ∧
    ∀ attempts, ((LineStore.of machine.memory).pollAll attempts).refused = [] := by
  have hdriven := Driven.begun machine address pipelined mode listening
  refine ⟨?_,
    fun n => (hdriven n).orderly ((h.start address pipelined mode listening).after n).sized, ?_⟩
  · intro error herror
    rcases error_of_run machine address pipelined mode listening herror with
      hlimit | ⟨cause, hcause, n, hn, hstep⟩
    · exact .inl hlimit
    · exact .inr ⟨cause, hcause, n, hn, (hdriven n).fails hstep⟩
  · intro attempts
    rw [LineStore.pollAll_of]
    rfl

end

-- A program that divides by zero, in a small machine.
theorem failures_of_division :
    ∃ fresh, build { memory := ⟨2, 1⟩, cache := ⟨4, false⟩ } = .ok fresh ∧
      let machine :=
  (fresh.load 0 ([.transferImmediate .load 1 7, .scalarImmediate false .divide 2 1 0].map
        Instruction.encode)).2
      (machine.run 0 true .cache false).1 = .error (.fault (.divisionByZero 7)) ∧
      (∃ n < 1000000, ((machine.begun 0 true .cache false).after n).Fails (.divisionByZero 7)) ∧
      ∀ n, ((machine.begun 0 true .cache false).after n).Orderly := by
  have hbuild : build { memory := ⟨2, 1⟩, cache := ⟨4, false⟩ } = .ok _ := rfl
  refine ⟨_, hbuild, ?_⟩
  intro machine
  have hvisited : machine.Visited := (Visited.fresh hbuild _).load 0 _
  have hrun : (machine.run 0 true .cache false).1 = .error (.fault (.divisionByZero 7)) := by
    decide +kernel
  obtain ⟨hfails, horderly, -⟩ := failures_of_visited hvisited 0 true .cache false
  refine ⟨hrun, ?_, horderly⟩
  rcases hfails _ hrun with hlimit | ⟨cause, hcause, n, hn, hfailing⟩
  · cases hlimit
  · obtain rfl := RunError.fault.inj hcause
    exact ⟨n, hn, hfailing⟩

end Machine

end PipelinedProcessor
