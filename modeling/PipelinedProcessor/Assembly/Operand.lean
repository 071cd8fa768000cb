import PipelinedProcessor.Text.Numeral
import PipelinedProcessor.Register
import PipelinedProcessor.Word

namespace PipelinedProcessor.Assembly

inductive Operand where
  | scalar (number : Nat)
  | indirect (number : Nat)
  | vector (number : Nat)
  | immediate (value : Int)
  | label (position : Nat)
deriving DecidableEq

-- Where the labels of a program stand, counted in instructions.
abbrev Labels := List (String × Nat)

-- Why a token is not an operand.
inductive OperandError where
  | registerArgument (token : String)
  | registerNumber (number : Nat)
  | immediateValue (token : String)
  | unrecognized (token : String)
deriving DecidableEq

namespace OperandError

def message : OperandError → String
  | registerArgument token => "Failed to parse register argument: " ++ token
  | registerNumber number =>
    "Invalid register number " ++ number.repr ++ ". Valid range is [0-" ++
      Register.count.repr ++ ")"
  | immediateValue token => "Failed to parse immediate value: " ++ token
  | unrecognized token => "Unrecognized operand: " ++ token

end OperandError

namespace Operand

-- How an operand is shown in error messages.
def text : Operand → String
  | scalar number => "Scalar(" ++ number.repr ++ ")"
  | indirect number => "Deref(" ++ number.repr ++ ")"
  | vector number => "Vector(" ++ number.repr ++ ")"
  | immediate value => "Immediate(" ++ value.repr ++ ")"
  | label position => "Label(" ++ position.repr ++ ")"

def isVector : Operand → Bool
  | vector _ => true
  | _ => false

-- The number after a register letter.
def numbered? (letter : Char) : List Char → Option (List Char)
  | [] => none
  | c :: digits => if c.toUpper = letter && Text.isNumeral digits then some digits else none

def enclosed? : List Char → Option (List Char)
  | '[' :: cs => if cs.getLast? = some ']' then some cs.dropLast else none
  | _ => none

def registerNumber (token : String) (digits : List Char) : Except OperandError Nat :=
  match Text.decimal? unsignedBound digits with
  | none => .error (.registerArgument token)
  | some number => if number < Register.count then .ok number else .error (.registerNumber number)

-- The magnitude of a number: nothing if the text is not one, and nothing inside if the text is
-- one that has no value or too large a value.
def magnitude? (cs : List Char) : Option (Option Nat) :=
  match Text.hexDigits? cs with
  | some digits =>
    let value := Text.hexValue digits
    some (if value < signedBound then some value else none)
  | none => if Text.isNumeral cs then some (Text.decimal? signedBound cs) else none

def number? : List Char → Option (Option Int)
  | '-' :: cs => (magnitude? cs).map fun value => value.map fun n => -(n : Int)
  | cs => (magnitude? cs).map fun value => value.map fun n => (n : Int)

-- What looks like a register or a number is one or is an error; only then can it be a label.
def read (labels : Labels) (token : String) : Except OperandError Operand :=
  let cs := token.toList
  match numbered? 'R' cs with
  | some digits => (registerNumber token digits).map scalar
  | none =>
  match (enclosed? cs).bind (numbered? 'R') with
  | some digits => (registerNumber token digits).map indirect
  | none =>
  match numbered? 'V' cs with
  | some digits => (registerNumber token digits).map vector
  | none =>
  match number? cs with
  | some (some value) => .ok (immediate value)
  | some none => .error (.immediateValue token)
  | none =>
  match labels.lookup token with
  | some position => .ok (label position)
  | none => .error (.unrecognized token)

end Operand

end PipelinedProcessor.Assembly
