import PipelinedProcessor.Word
import PipelinedProcessor.Instruction.Operation

namespace PipelinedProcessor

-- Why an instruction cannot be carried out.
inductive Fault where
  | divisionByZero (dividend : Word)
  | moduloByZero (dividend : Word)
  | notArithmetic (op : ScalarOp)
  | notElementwise (op : VectorOp)
  | branchOutside (address : Nat) (offset : Int)
  | returnOutside
  | storeStuck (address : Nat)
deriving DecidableEq

namespace Fault

def message : Fault → String
  | divisionByZero dividend => "Division by zero (" ++ dividend.text ++ " / 0)"
  | moduloByZero dividend => "Division by zero (" ++ dividend.text ++ " % 0)"
  | notArithmetic op => op.name ++ " is not an ALU operation"
  | notElementwise op => "Vector " ++ op.name ++ " has no element-wise form"
  | branchOutside address offset =>
    "Branch from " ++ address.repr ++ " by " ++ offset.repr ++ " leaves the address space"
  | returnOutside => "number too large to fit in target type"
  | storeStuck address => "Vector store to " ++ address.repr ++ " made no progress"

end Fault

-- Whether the condition is true of two words, compared as signed numbers.
def Condition.relates : Condition → Word → Word → Bool
  | .eq, a, b => a = b
  | .ne, a, b => a ≠ b
  | .gt, a, b => b.slt a
  | .gte, a, b => b.sle a
  | .lt, a, b => a.slt b
  | .lte, a, b => a.sle b
  | .always, _, _ => true
  | .ret, _, _ => true

namespace Flags

-- One flag for each condition that tests one.
def compare (a b : Word) : List Bool := Condition.tested.map (·.relates a b)

-- The first flag is the lowest bit.
def pack : List Bool → Word
  | [] => 0
  | flag :: rest => (pack rest <<< 1) ||| (BitVec.ofBool flag).setWidth 32

def unpack (w : Word) : List Bool := Condition.tested.map fun cond => w.getLsbD cond.code

end Flags

-- A shift goes to the left, by the second operand modulo the width of a word. Flags are set by
-- the instruction that names them and not here, as the flags before it are needed.
def ScalarOp.apply (op : ScalarOp) (a b : Word) : Except Fault Word :=
  match op with
  | .add => .ok (a + b)
  | .subtract => .ok (a - b)
  | .multiply => .ok (a * b)
  | .divide => if b = 0 then .error (.divisionByZero a) else .ok (a.sdiv b)
  | .modulo => if b = 0 then .error (.moduloByZero a) else .ok (a.srem b)
  | .and => .ok (a &&& b)
  | .or => .ok (a ||| b)
  | .xor => .ok (a ^^^ b)
  | .not => .ok (~~~a)
  | .shift => .ok (a <<< (b.toNat % 32))
  | .swap => .ok b
  | .compare => .ok (Flags.pack (Flags.compare a b))
  | .setFlag => .error (.notArithmetic .setFlag)
  | .load => .error (.notArithmetic .load)
  | .store => .error (.notArithmetic .store)

def VectorOp.apply (op : VectorOp) (a b : Word) : Except Fault Word :=
  match op with
  | .add => ScalarOp.add.apply a b
  | .subtract => ScalarOp.subtract.apply a b
  | .multiply => ScalarOp.multiply.apply a b
  | .divide => ScalarOp.divide.apply a b
  | .append => .error (.notElementwise .append)
  | .load => .error (.notElementwise .load)
  | .store => .error (.notElementwise .store)

end PipelinedProcessor
