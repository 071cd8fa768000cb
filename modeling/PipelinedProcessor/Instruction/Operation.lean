import PipelinedProcessor.Text.Column

namespace PipelinedProcessor

inductive ScalarOp where
  | add | subtract | multiply | and | divide | or | setFlag | shift
  | modulo | not | xor | swap | compare | load | store
deriving DecidableEq

namespace ScalarOp

def all : List ScalarOp :=
  [add, subtract, multiply, and, divide, or, setFlag, shift, modulo, not, xor, swap, compare, load,
    store]

def code : ScalarOp → Nat
  | add => 0
  | subtract => 1
  | multiply => 2
  | and => 3
  | divide => 4
  | or => 5
  | setFlag => 6
  | shift => 7
  | modulo => 8
  | not => 9
  | xor => 10
  | swap => 11
  | compare => 12
  | load => 13
  | store => 14

def ofCode? (code : Nat) : Option ScalarOp := all.find? (·.code = code)

def name : ScalarOp → String
  | add => "ADD"
  | subtract => "SUBTRACT"
  | multiply => "MULTIPLY"
  | and => "AND"
  | divide => "DIVIDE"
  | or => "OR"
  | setFlag => "SETFLAG"
  | shift => "SHIFT"
  | modulo => "MODULO"
  | not => "NOT"
  | xor => "XOR"
  | swap => "SWAP"
  | compare => "COMPARE"
  | load => "LOAD"
  | store => "STORE"

-- One operation may also be written with a hyphen.
def spellings : ScalarOp → List String
  | setFlag => ["SETFLAG", "SET-FLAG"]
  | op => [op.name]

def ofName? (text : String) : Option ScalarOp := all.find? (·.spellings.contains (Text.upper text))

def isMemory (op : ScalarOp) : Bool := op = load || op = store

def isAlu (op : ScalarOp) : Bool := !op.isMemory

-- The other two write the flags instead of their destination.
def writesDestination (op : ScalarOp) : Bool := op ≠ compare && op ≠ setFlag

def usesFirst (op : ScalarOp) : Bool := op ≠ setFlag

def usesSecond (op : ScalarOp) : Bool := op ≠ not

theorem ofCode?_code (op : ScalarOp) : ofCode? op.code = some op := by cases op <;> rfl

theorem code_lt (op : ScalarOp) : op.code < 15 := by cases op <;> decide

end ScalarOp

inductive VectorOp where
  | add | subtract | multiply | divide | append | load | store
deriving DecidableEq

namespace VectorOp

def all : List VectorOp := [add, subtract, multiply, divide, append, load, store]

-- Where both groups have an operation, they give it the same code.
def code : VectorOp → Nat
  | add => 0
  | subtract => 1
  | multiply => 2
  | divide => 4
  | append => 7
  | load => 13
  | store => 14

def ofCode? (code : Nat) : Option VectorOp := all.find? (·.code = code)

def name : VectorOp → String
  | add => "ADD"
  | subtract => "SUBTRACT"
  | multiply => "MULTIPLY"
  | divide => "DIVIDE"
  | append => "APPEND"
  | load => "LOAD"
  | store => "STORE"

def ofName? (text : String) : Option VectorOp := all.find? (·.name = Text.upper text)

def isMemory (op : VectorOp) : Bool := op = load || op = store || op = append

def isAlu (op : VectorOp) : Bool := !op.isMemory

theorem ofCode?_code (op : VectorOp) : ofCode? op.code = some op := by cases op <;> rfl

theorem code_lt (op : VectorOp) : op.code < 15 := by cases op <;> decide

end VectorOp

-- Under which condition a branch is taken. A return is always taken, but to another place.
inductive Condition where
  | eq | ne | gt | gte | lt | lte | always | ret
deriving DecidableEq

namespace Condition

def all : List Condition := [eq, ne, gt, gte, lt, lte, always, ret]

-- The conditions that test a flag, in the order of the flags.
def tested : List Condition := [eq, ne, gt, gte, lt, lte]

def code : Condition → Nat
  | eq => 0
  | ne => 1
  | gt => 2
  | gte => 3
  | lt => 4
  | lte => 5
  | always => 6
  | ret => 7

def ofCode? (code : Nat) : Option Condition := all.find? (·.code = code)

def name : Condition → String
  | eq => "EQ"
  | ne => "NE"
  | gt => "GT"
  | gte => "GTE"
  | lt => "LT"
  | lte => "LTE"
  | always => "ALWAYS"
  | ret => "RET"

def spellings : Condition → List String
  | always => ["ALWAYS", "AL"]
  | cond => [cond.name]

def ofName? (text : String) : Option Condition := all.find? (·.spellings.contains (Text.upper text))

-- The bit of the flags register that decides.
def flag? : Condition → Option Nat
  | always => none
  | ret => none
  | cond => some cond.code

theorem ofCode?_code (cond : Condition) : ofCode? cond.code = some cond := by cases cond <;> rfl

theorem code_lt (cond : Condition) : cond.code < 8 := by cases cond <;> decide

end Condition

end PipelinedProcessor
