import PipelinedProcessor.Instruction.Encoding
import PipelinedProcessor.Instruction.Text
import PipelinedProcessor.Register.Scalar
import PipelinedProcessor.Register.Vector
import PipelinedProcessor.Stage

namespace PipelinedProcessor

-- A change of a register that an instruction has decided on but not made yet.
inductive RegisterWrite where
  | scalar (number : Nat) (w : Word)
  | vector (number : Nat) (slots : List Slot)
  | append (number : Nat) (w : Word)
deriving DecidableEq

-- An operand that is known, or one that still has to be read from memory.
inductive Source where
  | value (w : Word)
  | deref (address : Nat)
deriving DecidableEq

-- What an instruction still has to do with memory or the program counter once its operands are
-- known. An action that takes several tries keeps here how far it has come.
inductive Action where
  | scalar (op : ScalarOp) (rd : Nat) (swapped : Option Nat) (flags : Word) (first second : Source)
  | load (rd address : Nat)
  | store (address : Nat) (w : Word)
  | vectorLoad (vd base length : Nat) (loaded : List Slot)
  | vectorStore (base : Nat) (data : List Word) (written : Nat)
  | branch (cond : Condition) (target : Nat) (returnAddress : Option Word)
deriving DecidableEq

-- Whether an instruction still has work in its stage, waits there for an older instruction to
-- retire, or can move on.
inductive FlightState where
  | ready
  | stalled (on : Nat)
  | completed
deriving DecidableEq

-- An instruction on its way through the stages. Its number is its place in program order.
structure Flight where
  id : Nat
  stage : Stage := .fetch
  state : FlightState := .ready
  address : Option Nat := none
  raw : Option Word := none
  instr : Option Instruction := none
  stagesDone : List Stage := []
  writes : List Register := []
  reads : List Register := []
  action : Option Action := none
  results : List RegisterWrite := []
deriving DecidableEq

namespace Flight

def complete (flight : Flight) : Flight :=
  { flight with state := .completed, stagesDone := flight.stagesDone ++ [flight.stage] }

def enter (flight : Flight) (stage : Stage) : Flight :=
  { flight with stage := stage, state := .ready }

def isBranch (flight : Flight) : Bool := flight.instr.any Instruction.isBranch

def isCompare (flight : Flight) : Bool := flight.instr.any Instruction.isCompare

def stateText : FlightState → String
  | .ready => ""
  | .stalled id => " (stalled on INSTR_" ++ id.repr ++ ")"
  | .completed => " (done)"

def contentText (flight : Flight) : String :=
  match flight.instr, flight.raw with
  | some instr, _ => ": " ++ instr.text
  | none, some raw => ": 0x" ++ Text.hex 8 raw.toNat
  | none, none => ""

def text (flight : Flight) : String :=
  "INSTR_" ++ flight.id.repr ++ (flight.address.elim "" fun address => " @" ++ address.repr) ++
    contentText flight ++ stateText flight.state

end Flight

end PipelinedProcessor
