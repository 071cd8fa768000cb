import PipelinedProcessor.Instruction.Basic

namespace PipelinedProcessor

namespace Word

-- The word that stops a run. It would otherwise be an instruction of an unknown kind.
def halt : Word := 0x0F000000

-- Which of the kinds of instruction the word is.
def kind (w : Word) : Nat := w.field 24 4

def branchKind : Nat := 7

end Word

def Operands.kind : Operands → Nat
  | direct => 0
  | indirect => 1
  | mixed => 2

namespace Instruction

-- A field keeps the low bits of a number, but of a number past 32 bits nothing is kept. The size
-- is one more than the largest number that fits.
def clip (size n : Nat) : Nat := if n < Word.bound then n % size else 0

theorem clip_lt {size : Nat} (h : 0 < size) (n : Nat) : clip size n < size := by
  unfold clip
  split
  · exact Nat.mod_lt _ h
  · exact h

theorem clip_of_lt {size n : Nat} (h : n < size) (hsize : size ≤ Word.bound) : clip size n = n := by
  rw [clip, if_pos (Nat.lt_of_lt_of_le h hsize), Nat.mod_eq_of_lt h]

def header (cond kind code : Nat) : Nat :=
  clip 0x10 cond * 0x10000000 + kind * 0x1000000 + code * 0x100000

-- The places of the three registers.
def rdField (number : Nat) : Nat := clip 0x10 number * 0x8000

def r1Field (number : Nat) : Nat := clip 0x10 number * 0x800

def r2Field (number : Nat) : Nat := clip 0x10 number * 0x80

-- The fields of one instruction do not overlap, so that adding them places them side by side.
def encodeNat : Instruction → Nat
  | scalar operands cond op rd r1 r2 =>
    header cond operands.kind op.code + rdField rd + r1Field r1 + r2Field r2
  | scalarImmediate indirect op rd r1 immediate =>
    header 0 (if indirect then 4 else 3) op.code + rdField rd + r1Field r1 +
      clip 0x100 immediate * 0x8
  | transfer op rd r1 => header 0 5 op.code + rdField rd + r1Field r1
  | transferImmediate op rd immediate =>
    header 0 6 op.code + rdField rd + clip 0x1000 immediate * 0x8
  | branch cond link offset =>
    header cond.code Word.branchKind 0 + link.toNat * 0x800000 +
      (decide (offset < 0)).toNat * 0x400000 + offset.natAbs % 0x400000
  | vectorTransfer op vd r1 length =>
    header 0 8 op.code + rdField vd + r1Field r1 + clip 0x20 length * 0x40
  | vector cond op vd v1 v2 length =>
    header cond 9 op.code + rdField vd + r1Field v1 + r2Field v2 + clip 0x20 length * 0x4
  | vectorImmediate cond op vd v1 immediate length =>
    header cond 10 op.code + rdField vd + r1Field v1 + clip 0x20 immediate * 0x20 + clip 0x20 length
  | halt => Word.halt.toNat
  | invalid raw => raw.toNat

def encode (instr : Instruction) : Word := BitVec.ofNat 32 instr.encodeNat

def legalScalar? (w : Word) (legal : ScalarOp → Bool) : Option ScalarOp :=
  (ScalarOp.ofCode? (w.field 20 4)).filter legal

def legalVector? (w : Word) (legal : VectorOp → Bool) : Option VectorOp :=
  (VectorOp.ofCode? (w.field 20 4)).filter legal

-- The magnitude of an offset and its sign are stored apart; zero has two spellings.
def branchOffset (w : Word) : Int :=
  if w.field 22 1 = 1 then -(w.field 0 22 : Int) else w.field 0 22

-- The instruction a word stands for, taken to be of the given kind.
def ofKind? (w : Word) (kind : Nat) : Option Instruction :=
  let cond := w.field 28 4
  let rd := w.field 15 4
  let r1 := w.field 11 4
  let r2 := w.field 7 4
  match kind with
  | 0 => (legalScalar? w ScalarOp.isAlu).map (scalar .direct cond · rd r1 r2)
  | 1 => (legalScalar? w ScalarOp.isAlu).map (scalar .indirect cond · rd r1 r2)
  | 2 => (legalScalar? w ScalarOp.isAlu).map (scalar .mixed cond · rd r1 r2)
  | 3 => (legalScalar? w ScalarOp.isAlu).map (scalarImmediate false · rd r1 (w.field 3 8))
  | 4 => (legalScalar? w ScalarOp.isAlu).map (scalarImmediate true · rd r1 (w.field 3 8))
  | 5 => (legalScalar? w ScalarOp.isMemory).map (transfer · rd r1)
  | 6 => (legalScalar? w ScalarOp.isMemory).map (transferImmediate · rd (w.field 3 12))
  | 7 => (Condition.ofCode? cond).map (branch · (w.field 23 1 = 1) (branchOffset w))
  | 8 => (legalVector? w VectorOp.isMemory).map (vectorTransfer · rd r1 (w.field 6 5))
  | 9 => (legalVector? w VectorOp.isAlu).map (vector cond · rd r1 r2 (w.field 2 5))
  | 10 =>
    (legalVector? w VectorOp.isAlu).map (vectorImmediate cond · rd r1 (w.field 5 5) (w.field 0 5))
  | _ => none

-- A word that stands for nothing is kept whole, so that it can be shown and written again.
def ofWord (w : Word) : Instruction :=
  if w = Word.halt then halt else (ofKind? w w.kind).getD (invalid w)

end Instruction

end PipelinedProcessor
