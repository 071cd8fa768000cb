import PipelinedProcessor.Word
import PipelinedProcessor.Register
import PipelinedProcessor.Instruction.Operation

namespace PipelinedProcessor

-- Where a scalar operation with two register fields takes its operands from: both from the
-- registers, both from the memory words the registers point to, or the first from memory only.
inductive Operands where
  | direct | indirect | mixed
deriving DecidableEq

-- Register numbers and lengths are not bounded here; an encoding keeps their low bits only.
-- The condition fields of the arithmetic instructions are carried along and decide nothing.
inductive Instruction where
  | scalar (operands : Operands) (cond : Nat) (op : ScalarOp) (rd r1 r2 : Nat)
  | scalarImmediate (indirect : Bool) (op : ScalarOp) (rd r1 immediate : Nat)
  | transfer (op : ScalarOp) (rd r1 : Nat)
  | transferImmediate (op : ScalarOp) (rd immediate : Nat)
  | branch (cond : Condition) (link : Bool) (offset : Int)
  | vectorTransfer (op : VectorOp) (vd r1 length : Nat)
  | vector (cond : Nat) (op : VectorOp) (vd v1 v2 length : Nat)
  | vectorImmediate (cond : Nat) (op : VectorOp) (vd v1 immediate length : Nat)
  | halt
  | invalid (raw : Word)
deriving DecidableEq

namespace Instruction

def isBranch : Instruction → Bool
  | branch .. => true
  | _ => false

-- The operation of a scalar arithmetic instruction; loads and stores have none.
def scalarOp? : Instruction → Option ScalarOp
  | scalar _ _ op .. => some op
  | scalarImmediate _ op .. => some op
  | _ => none

def isCompare (instr : Instruction) : Bool := instr.scalarOp? = some .compare

def flagsIfSet (op : ScalarOp) : List Register :=
  if op = .setFlag then [.scalar Register.flags] else []

def firstIfUsed (op : ScalarOp) (r1 : Nat) : List Register :=
  if op.usesFirst then [.scalar r1] else []

-- The registers an instruction reads, in the order of its fields. A register may occur twice.
def reads : Instruction → List Register
  | scalar _ _ op _ r1 r2 =>
    firstIfUsed op r1 ++ (if op.usesSecond then [.scalar r2] else []) ++ flagsIfSet op
  | scalarImmediate _ op _ r1 _ => firstIfUsed op r1 ++ flagsIfSet op
  | transfer op rd r1 => .scalar r1 :: if op = .store then [.scalar rd] else []
  | transferImmediate op rd _ => if op = .store then [.scalar rd] else []
  | branch .always _ _ => []
  | branch .ret _ _ => [.scalar Register.link]
  | branch _ _ _ => [.scalar Register.flags]
  | vectorTransfer op vd r1 _ => .scalar r1 :: if op ≠ .load then [.vector vd] else []
  | vector _ _ _ v1 v2 _ => [.vector v1, .vector v2]
  | vectorImmediate _ _ _ v1 _ _ => [.vector v1]
  | halt => []
  | invalid _ => []

def destination (op : ScalarOp) (rd : Nat) : List Register :=
  if op.writesDestination then [.scalar rd] else [.scalar Register.flags]

-- The registers an instruction writes. Only between two registers does a swap write both.
def writes : Instruction → List Register
  | scalar .direct _ .swap rd _ r2 => [.scalar rd, .scalar r2]
  | scalar _ _ op rd _ _ => destination op rd
  | scalarImmediate _ op rd _ _ => destination op rd
  | transfer op rd _ => if op = .load then [.scalar rd] else []
  | transferImmediate op rd _ => if op = .load then [.scalar rd] else []
  | branch _ link _ => if link then [.scalar Register.link] else []
  | vectorTransfer op vd _ _ => if op = .load || op = .append then [.vector vd] else []
  | vector _ _ vd _ _ _ => [.vector vd]
  | vectorImmediate _ _ vd _ _ _ => [.vector vd]
  | halt => []
  | invalid _ => []

end Instruction

end PipelinedProcessor
