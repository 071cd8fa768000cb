import PipelinedProcessor.Flight.Basic

namespace PipelinedProcessor

-- One place for an instruction in each stage.
structure Slots where
  fetch : Option Flight := none
  decode : Option Flight := none
  execute : Option Flight := none
  memory : Option Flight := none
  writeBack : Option Flight := none
deriving DecidableEq

namespace Slots

-- In the order of the stages, so that younger instructions come before older ones.
def toList (slots : Slots) : List (Option Flight) :=
  [slots.fetch, slots.decode, slots.execute, slots.memory, slots.writeBack]

def flights (slots : Slots) : List Flight := slots.toList.filterMap id

def isEmpty (slots : Slots) : Bool := slots.flights.isEmpty

def map (f : Flight → Flight) (slots : Slots) : Slots where
  fetch := slots.fetch.map f
  decode := slots.decode.map f
  execute := slots.execute.map f
  memory := slots.memory.map f
  writeBack := slots.writeBack.map f

end Slots

-- What a run has come to. The instruction that halts does not count as retired.
structure Report where
  cycles : Nat
  retired : Nat
  stalls : Nat
  haltId : Option Nat
deriving DecidableEq

def Report.text (report : Report) : String :=
  report.cycles.repr ++ " cycles, " ++ report.retired.repr ++ " instructions retired, " ++
    report.stalls.repr ++ " stall cycles" ++
    report.haltId.elim "" fun id => ", halted at INSTR_" ++ id.repr

-- What a cycle says to those outside.
inductive Message where
  | running
  | halted
  | idle
deriving DecidableEq

structure Pipeline where
  clock : Nat := 0
  running : Bool := false
  pipelined : Bool := true
  slots : Slots := {}
  nextId : Nat := 0
  -- a branch that was fetched and has not decided yet where to go on
  openBranch : Option Nat := none
  haltId : Option Nat := none
  retired : Nat := 0
  stalls : Nat := 0
deriving DecidableEq

namespace Pipeline

def report (pipeline : Pipeline) : Report where
  cycles := pipeline.clock
  retired := pipeline.retired
  stalls := pipeline.stalls
  haltId := pipeline.haltId

def slotText (entry : Stage × Option Flight) : String :=
  Text.padRight 14 entry.1.text ++ " " ++ entry.2.elim "-" Flight.text ++ "\n"

def text (pipeline : Pipeline) : String :=
  "Cycle " ++ pipeline.clock.repr ++ "\n" ++
    String.join ((Stage.pipeline.zip pipeline.slots.toList).map slotText)

end Pipeline

end PipelinedProcessor
