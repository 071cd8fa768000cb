import PipelinedProcessor.Assembly.LineError
import PipelinedProcessor.Instruction.Encoding
import PipelinedProcessor.Text.Pieces

namespace PipelinedProcessor.Assembly

def tokens (line : String) : List String := (Text.words line.toList).map String.ofList

def fits? (value : Int) (max : Nat) : Option Nat :=
  if 0 ≤ value ∧ value ≤ max then some value.toNat else none

def immediateField (value : Int) (max : Nat) : Except LineError Nat :=
  (fits? value max).elim (.error (.immediateRange value max)) .ok

def lengthField (value : Int) : Except LineError Nat :=
  (fits? value maxVectorField).elim (.error (.lengthRange value maxVectorField)) .ok

-- The operand kinds choose the form of the instruction. An operand that the operation does not
-- use fits every form, and its field is zero.
def combine (op : ScalarOp) (rd : Nat) :
    Option Operand → Option Operand → Except LineError Instruction
  | none, none => .ok (.scalar .direct 0 op rd 0 0)
  | none, some (.scalar r2) => .ok (.scalar .direct 0 op rd 0 r2)
  | some (.scalar r1), none => .ok (.scalar .direct 0 op rd r1 0)
  | some (.scalar r1), some (.scalar r2) => .ok (.scalar .direct 0 op rd r1 r2)
  | none, some (.indirect r2) => .ok (.scalar .indirect 0 op rd 0 r2)
  | some (.indirect r1), none => .ok (.scalar .indirect 0 op rd r1 0)
  | some (.indirect r1), some (.indirect r2) => .ok (.scalar .indirect 0 op rd r1 r2)
  | some (.indirect r1), some (.scalar r2) => .ok (.scalar .mixed 0 op rd r1 r2)
  | none, some (.immediate value) =>
    (immediateField value maxImmediate).map (.scalarImmediate false op rd 0)
  | some (.scalar r1), some (.immediate value) =>
    (immediateField value maxImmediate).map (.scalarImmediate false op rd r1)
  | some (.indirect r1), some (.immediate value) =>
    (immediateField value maxImmediate).map (.scalarImmediate true op rd r1)
  | first, second => .error (.scalarOperands op first second)

def withSources (op : ScalarOp) (rd : Nat) (sources : List Operand) :
    Except LineError Instruction :=
  if op.usesFirst then
    combine op rd sources[0]? (if op.usesSecond then sources[1]? else none)
  else
    combine op rd none (if op.usesSecond then sources[0]? else none)

def scalar (op : ScalarOp) (operands : List Operand) : Except LineError Instruction :=
  let expected := op.writesDestination.toNat + op.usesFirst.toNat + op.usesSecond.toNat
  if operands.length ≠ expected then .error (.operandCount op.name expected operands.length)
  else if op.writesDestination then
    match operands with
    | .scalar rd :: sources => withSources op rd sources
    | other :: _ => .error (.destination op other)
    | [] => .error (.operandCount op.name expected 0)
  else withSources op 0 operands

def transfer (op : ScalarOp) : List Operand → Except LineError Instruction
  | [.scalar rd, .scalar r1] => .ok (.transfer op rd r1)
  | [.scalar rd, .immediate value] =>
    (immediateField value maxStoredImmediate).map (.transferImmediate op rd)
  | [first, second] => .error (.transferOperands op first second)
  | operands => .error (.operandCount op.name 2 operands.length)

def vectorTransfer (op : VectorOp) (operands : List Operand) : Except LineError Instruction :=
  match op, operands with
  | .append, [.vector vd, .scalar r1] => .ok (.vectorTransfer .append vd r1 0)
  | .load, [.vector vd, .scalar r1, .immediate length] =>
    (lengthField length).map (.vectorTransfer .load vd r1)
  | .store, [.vector vd, .scalar r1, .immediate length] =>
    (lengthField length).map (.vectorTransfer .store vd r1)
  | _, _ => .error (.vectorOperands op operands)

-- The length is looked at before the second operand.
def vector (op : VectorOp) (operands : List Operand) : Except LineError Instruction :=
  match operands with
  | [.vector vd, .vector v1, second, .immediate length] => do
    let length ← lengthField length
    match second with
    | .vector v2 => .ok (.vector 0 op vd v1 v2 length)
    | .immediate value =>
      let immediate ← immediateField value maxVectorField
      .ok (.vectorImmediate 0 op vd v1 immediate length)
    | _ => .error (.vectorOperands op operands)
  | _ => .error (.vectorOperands op operands)

def branchTo (link : Bool) (address : Nat) (labels : Labels) (cond : Condition)
    (target : String) : Except LineError Instruction := do
  let operand ← (Operand.read labels target).mapError .operand
  let offset ← match operand with
    | .immediate offset => .ok offset
    | .label position => .ok ((position : Int) - address)
    | other => .error (.branchTarget other)
  if maxBranchOffset < offset.natAbs then .error (.branchOffset offset)
  else .ok (.branch cond link offset)

-- A label as target stands for its distance from the branch.
def branch (link : Bool) (address : Nat) (labels : Labels) :
    List String → Except LineError Instruction
  | [target] => branchTo link address labels .always target
  | [target, keyword, name] =>
    if Text.upper keyword = "IF" then
      match Condition.ofName? name with
      | some cond => branchTo link address labels cond target
      | none => .error (.branchCondition name)
    else .error .branchForm
  | _ => .error .branchForm

def operands (labels : Labels) : List String → Except LineError (List Operand)
  | [] => .ok []
  | token :: rest => do
    let operand ← (Operand.read labels token).mapError .operand
    let others ← operands labels rest
    .ok (operand :: others)

-- The first operand decides between the scalar and the vector operation of a name.
def operation (mnemonic : String) (operands : List Operand) : Except LineError Instruction :=
  if operands.head?.any Operand.isVector then
    match VectorOp.ofName? mnemonic with
    | none => .error (.unknownVector mnemonic)
    | some op => if op.isMemory then vectorTransfer op operands else vector op operands
  else
    match ScalarOp.ofName? mnemonic with
    | none => .error (.unknownScalar mnemonic)
    | some op => if op.isMemory then transfer op operands else scalar op operands

-- The instruction that a line means at an address, given the labels around it. A line that breaks
-- several rules is refused for the one that is looked at first.
def instruction (labels : Labels) (address : Nat) (line : String) : Except LineError Instruction :=
  match tokens line with
  | [] => .error .empty
  | first :: rest =>
    let mnemonic := Text.upper first
    if (mnemonic = "HALT" || mnemonic = "END") && rest = [] then .ok .halt
    else if mnemonic = "RETURN" && rest = [] then .ok (.branch .ret false 0)
    else if mnemonic = "BRANCH" then branch false address labels rest
    else if mnemonic = "CALL" then branch true address labels rest
    else if mnemonic = "SHIFT" then .error .shift
    else do
      let given ← operands labels rest
      operation mnemonic given

-- A line on its own stands at address zero and knows no labels.
def parse (line : String) : Except LineError Instruction := instruction [] 0 line

end PipelinedProcessor.Assembly
