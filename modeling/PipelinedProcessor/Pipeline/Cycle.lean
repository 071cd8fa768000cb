import PipelinedProcessor.Flight.Access
import PipelinedProcessor.Flight.Hazard
import PipelinedProcessor.Pipeline.Basic

namespace PipelinedProcessor.Pipeline

-- A new instruction enters if its stage is free and the run is not about to end. Overlapping runs
-- hold back only behind a branch, others until everything before has retired.
def takeIn (pipeline : Pipeline) : Pipeline :=
  let heldBack := if pipeline.pipelined then pipeline.openBranch.isSome else !pipeline.slots.isEmpty
  if pipeline.haltId.isSome || pipeline.slots.fetch.isSome || heldBack then pipeline
  else { pipeline with
    slots.fetch := some { id := pipeline.nextId }
    nextId := pipeline.nextId + 1 }

-- A run begins with one instruction in the first stage and nothing counted.
def start (pipelined : Bool) : Pipeline := takeIn { running := true, pipelined := pipelined }

section

variable {σ : Type} [Storage σ]

-- The work of each stage in one cycle. What waits or has finished its stage does nothing.

def commitStage (pipeline : Pipeline) (context : Context σ) : Pipeline × Context σ :=
  match pipeline.slots.writeBack with
  | none => (pipeline, context)
  | some flight =>
    if flight.state = .ready then
      let (flight, context) := flight.commit context
      ({ pipeline with slots.writeBack := some flight }, context)
    else (pipeline, context)

-- A branch that has passed here no longer holds back others.
def accessStage (pipeline : Pipeline) (context : Context σ) : Option Fault × Pipeline × Context σ :=
  match pipeline.slots.memory with
  | none => (none, pipeline, context)
  | some flight =>
    if flight.state = .ready then
      let (fault, flight, context) := flight.access context
      let decided := flight.state = .completed && pipeline.openBranch = some flight.id
      (fault, { pipeline with
        slots.memory := some flight
        openBranch := if decided then none else pipeline.openBranch }, context)
    else (none, pipeline, context)

def executeStage (pipeline : Pipeline) (registers : Registers) (vectors : VectorRegisters) :
    Except Fault Pipeline :=
  match pipeline.slots.execute with
  | none => .ok pipeline
  | some flight =>
    if flight.state = .ready then
      (flight.execute registers vectors).map fun flight =>
        { pipeline with slots.execute := some flight }
    else .ok pipeline

def decodeStage (pipeline : Pipeline) : Pipeline :=
  match pipeline.slots.decode with
  | none => pipeline
  | some flight =>
    match flight.state with
    | .ready => { pipeline with slots.decode := some (flight.decode pipeline.slots.flights) }
    | .stalled _ => { pipeline with stalls := pipeline.stalls + 1 }
    | .completed => pipeline

-- The word that halts ends its own way here. Every word of the kind of branches holds back those
-- after it, even one that turns out to mean nothing.
def fetchStage (pipeline : Pipeline) (context : Context σ) : Pipeline × Context σ :=
  match pipeline.slots.fetch with
  | none => (pipeline, context)
  | some flight =>
    if flight.state = .ready then
      let (flight, context) := flight.fetch context
      if flight.raw = some Word.halt then
        ({ pipeline with slots.fetch := none, haltId := some flight.id }, context)
      else
        let branches := flight.state = .completed && flight.raw.any (·.kind = Word.branchKind)
        ({ pipeline with
          slots.fetch := some flight
          openBranch := if branches then some flight.id else pipeline.openBranch }, context)
    else (pipeline, context)

-- The stages work from the last to the first, and those before a fault do not work at all.
def work (pipeline : Pipeline) (context : Context σ) : Option Fault × Pipeline × Context σ :=
  let (pipeline, context) := pipeline.commitStage context
  match pipeline.accessStage context with
  | (some fault, pipeline, context) => (some fault, pipeline, context)
  | (none, pipeline, context) =>
    match pipeline.executeStage context.registers context.vectors with
    | .error fault => (some fault, pipeline, context)
    | .ok pipeline =>
      let (pipeline, context) := pipeline.decodeStage.fetchStage context
      (none, pipeline, context)

end

def wakeIf (producer : Nat) (flight : Flight) : Flight :=
  if flight.state = .stalled producer then flight.complete else flight

-- The instruction in the last stage leaves, and those that waited for it wait no longer.
def retire (pipeline : Pipeline) : Pipeline :=
  match pipeline.slots.writeBack with
  | none => pipeline
  | some flight =>
    if flight.state = .completed then
      let slots := { pipeline.slots with writeBack := none }
      { pipeline with slots := slots.map (wakeIf flight.id), retired := pipeline.retired + 1 }
    else pipeline

-- What is in two neighbouring stages after the first has passed its instruction on, if it can.
def passOn (stage : Stage) : Option Flight → Option Flight → Option Flight × Option Flight
  | some flight, none =>
    if flight.state = .completed then (none, some (flight.enter stage)) else (some flight, none)
  | first, second => (first, second)

-- Later stages first, so that a whole row of instructions can move in one cycle.
def moveOn (slots : Slots) : Slots :=
  let (memory, writeBack) := passOn .writeBack slots.memory slots.writeBack
  let (execute, memory) := passOn .memory slots.execute memory
  let (decode, execute) := passOn .execute slots.decode execute
  let (fetch, decode) := passOn .decode slots.fetch decode
  { fetch := fetch, decode := decode, execute := execute, memory := memory, writeBack := writeBack }

def advance (pipeline : Pipeline) : Pipeline :=
  let retired := pipeline.retire
  { retired with slots := moveOn retired.slots }

-- A cycle of the pipeline. A fault ends the run; so does the last instruction before the word
-- that halts, when it retires.
def step {σ : Type} [Storage σ] (pipeline : Pipeline) (context : Context σ) :
    Except Fault Message × Pipeline × Context σ :=
  if pipeline.running then
    match { pipeline with clock := pipeline.clock + 1 }.work context with
    | (some fault, pipeline, context) => (.error fault, { pipeline with running := false }, context)
    | (none, pipeline, context) =>
      let pipeline := pipeline.advance
      if pipeline.haltId.isSome && pipeline.slots.isEmpty then
        (.ok .halted, { pipeline with running := false }, context)
      else (.ok .running, pipeline.takeIn, context)
  else (.ok .idle, pipeline, context)

end PipelinedProcessor.Pipeline
