import PipelinedProcessor.Machine.Basic

namespace PipelinedProcessor

-- Why a run has not come to its end.
inductive RunError where
  | fault (cause : Fault)
  | cycleLimit (cycles : Nat)
  | stopped
deriving DecidableEq

namespace RunError

def message : RunError → String
  | fault cause => cause.message
  | cycleLimit cycles => "Program did not halt within " ++ cycles.repr ++ " cycles"
  | stopped => "Pipeline stopped without reaching HALT"

end RunError

namespace Machine

-- Begins a run. What an earlier one still waited for is forgotten.
def start (machine : Machine) (address : Nat) (pipelined listening : Bool) : Machine :=
  { machine with
    registers := machine.registers.setCounter address
    pipeline := .start pipelined
    listening := listening
    cache := machine.cache.releaseAll }

-- One cycle, on the memory that the mode names.
def cycle (machine : Machine) : Except Fault Message × Machine :=
  match machine with
  | ⟨config, mode, registers, vectors, pipeline, listening, reports, cache⟩ =>
    match mode with
    | .cache =>
      let (answer, pipeline, context) := pipeline.step ⟨registers, vectors, cache⟩
      (answer, ⟨config, mode, context.registers, context.vectors, pipeline, listening, reports,
        context.memory⟩)
    | .direct =>
      let ((answer, registers, vectors, pipeline), cache) := cache.onMemory fun memory =>
        let (answer, pipeline, context) := pipeline.step ⟨registers, vectors, memory⟩
        ((answer, context.registers, context.vectors, pipeline), context.memory)
      (answer, ⟨config, mode, registers, vectors, pipeline, listening, reports, cache⟩)

-- One cycle, and what follows from its answer: the end of a run is told to who has asked for it,
-- and a fault leaves nothing waiting.
def step (machine : Machine) : Except Fault Message × Machine :=
  match machine.cycle with
  | (.error fault, machine) =>
    (.error fault, { machine with listening := false, cache := machine.cache.releaseAll })
  | (.ok .halted, machine) =>
    let told := if machine.listening then [machine.pipeline.report] else []
    (.ok .halted, { machine with listening := false, reports := machine.reports ++ told })
  | (.ok message, machine) => (.ok message, machine)

-- Forgets the run, and tells nobody.
def dropRun (machine : Machine) : Machine := { machine with pipeline := {}, listening := false }

-- The end of a run that has used up its cycles.
def abort (machine : Machine) : Machine :=
  { machine.dropRun with cache := machine.cache.releaseAll }

-- Steps until the run ends, at most so many times.
def drive (limit : Nat) : Nat → Machine → Except RunError Report × Machine
  | 0, machine => (.error (.cycleLimit limit), machine.abort)
  | cycles + 1, machine =>
    match machine.step with
    | (.error fault, machine) => (.error (.fault fault), machine)
    | (.ok .halted, machine) => (.ok machine.pipeline.report, machine)
    | (.ok .idle, machine) => (.error .stopped, machine)
    | (.ok .running, machine) => drive limit cycles machine

-- Runs the program at an address to its end. A run that has just begun has used no cycles.
def run (machine : Machine) (address : Nat) (pipelined : Bool) (mode : MemoryMode)
    (listening : Bool) : Except RunError Report × Machine :=
  let limit := machine.config.run.maxCycles
  drive limit limit ({ machine with mode := mode }.start address pipelined listening)

-- Runs in the way that the configuration and the mode say.
def runDefault (machine : Machine) (address : Nat) : Except RunError Report × Machine :=
  machine.run address machine.config.run.pipelined machine.mode false

end Machine

end PipelinedProcessor
