import PipelinedProcessor.Assembly.Operand
import PipelinedProcessor.Instruction.Operation

namespace PipelinedProcessor.Assembly

-- The largest numbers that fit into the fields of an instruction.
def maxImmediate : Nat := 0xFF

def maxStoredImmediate : Nat := 0xFFF

def maxVectorField : Nat := 0x1F

def maxBranchOffset : Nat := 0x3FFFFF

-- Why a line is not an instruction.
inductive LineError where
  | empty
  | operand (cause : OperandError)
  | operandCount (mnemonic : String) (expected given : Nat)
  | destination (op : ScalarOp) (given : Operand)
  | scalarOperands (op : ScalarOp) (first second : Option Operand)
  | transferOperands (op : ScalarOp) (first second : Operand)
  | vectorOperands (op : VectorOp) (operands : List Operand)
  | immediateRange (value : Int) (max : Nat)
  | lengthRange (value : Int) (max : Nat)
  | branchForm
  | branchCondition (token : String)
  | branchTarget (given : Operand)
  | branchOffset (offset : Int)
  | shift
  | unknownScalar (mnemonic : String)
  | unknownVector (mnemonic : String)
deriving DecidableEq

namespace LineError

def optionalText : Option Operand → String
  | none => "None"
  | some given => "Some(" ++ given.text ++ ")"

def rangeText (what : String) (value : Int) (max : Nat) : String :=
  what ++ " " ++ value.repr ++ " out of range [0-" ++ max.repr ++ "]"

def message : LineError → String
  | empty => "Empty instruction"
  | operand cause => cause.message
  | operandCount mnemonic expected given =>
    mnemonic ++ " takes " ++ expected.repr ++ " operands, " ++ given.repr ++ " given"
  | destination op given =>
    op.name ++ " destination must be a register, got " ++ optionalText (some given)
  | scalarOperands op first second =>
    "Unsupported operand combination for " ++ op.name ++ ": " ++ optionalText first ++ ", " ++
      optionalText second
  | transferOperands op first second =>
    "Unsupported operand combination for " ++ op.name ++ ": " ++ first.text ++ ", " ++ second.text
  | vectorOperands op operands =>
    "Unsupported operands for vector " ++ op.name ++ ": [" ++
      ", ".intercalate (operands.map Operand.text) ++ "]"
  | immediateRange value max => rangeText "Immediate" value max
  | lengthRange value max => rangeText "Vector length" value max
  | branchForm => "Expected BRANCH <offset> [IF <condition>]"
  | branchCondition token => "Unknown branch condition: " ++ token
  | branchTarget given => "Branch target must be an offset or label, got " ++ given.text
  | branchOffset offset =>
    "Branch offset " ++ offset.repr ++ " exceeds maximum magnitude " ++ maxBranchOffset.repr
  | shift => "SHIFT shares opcode 7 with BRANCH and can't be encoded unambiguously"
  | unknownScalar mnemonic => "Unknown instruction: " ++ mnemonic
  | unknownVector mnemonic => "Unknown vector instruction: " ++ mnemonic

end LineError

end PipelinedProcessor.Assembly
