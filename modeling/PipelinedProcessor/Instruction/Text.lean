import PipelinedProcessor.Instruction.Basic

namespace PipelinedProcessor.Instruction

def registerToken (number : Nat) : String := "R" ++ number.repr

def derefToken (number : Nat) : String := "[R" ++ number.repr ++ "]"

def vectorToken (number : Nat) : String := "V" ++ number.repr

-- An operand that the operation does not use is not shown.
def scalarTokens (op : ScalarOp) (rd : Nat) (first second : String) : List String :=
  op.name :: ((if op.writesDestination then [registerToken rd] else []) ++
    (if op.usesFirst then [first] else []) ++ (if op.usesSecond then [second] else []))

-- The words of an instruction in assembler order, as the assembler takes them.
def tokens : Instruction → List String
  | scalar .direct _ op rd r1 r2 => scalarTokens op rd (registerToken r1) (registerToken r2)
  | scalar .indirect _ op rd r1 r2 => scalarTokens op rd (derefToken r1) (derefToken r2)
  | scalar .mixed _ op rd r1 r2 => scalarTokens op rd (derefToken r1) (registerToken r2)
  | scalarImmediate indirect op rd r1 immediate =>
    scalarTokens op rd (if indirect then derefToken r1 else registerToken r1) immediate.repr
  | transfer op rd r1 => [op.name, registerToken rd, registerToken r1]
  | transferImmediate op rd immediate => [op.name, registerToken rd, immediate.repr]
  | branch .ret false 0 => ["RETURN"]
  | branch cond link offset =>
    [if link then "CALL" else "BRANCH", offset.repr] ++ if cond = .always
      then [] else ["IF", cond.name]
  | vectorTransfer .append vd r1 _ => [VectorOp.append.name, vectorToken vd, registerToken r1]
  | vectorTransfer op vd r1 length => [op.name, vectorToken vd, registerToken r1, length.repr]
  | vector _ op vd v1 v2 length =>
    [op.name, vectorToken vd, vectorToken v1, vectorToken v2, length.repr]
  | vectorImmediate _ op vd v1 immediate length =>
    [op.name, vectorToken vd, vectorToken v1, immediate.repr, length.repr]
  | halt => ["HALT"]
  | invalid raw => ["INVALID", "(0x" ++ Text.hex 8 raw.toNat ++ ")"]

def text (instr : Instruction) : String := " ".intercalate instr.tokens

end PipelinedProcessor.Instruction
