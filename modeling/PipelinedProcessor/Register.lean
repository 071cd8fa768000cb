namespace PipelinedProcessor

-- A register as an instruction names it. The number may lie past the end of the register file.
inductive Register where
  | scalar (number : Nat)
  | vector (number : Nat)
deriving DecidableEq

inductive RegisterGroup where
  | scalar | vector
deriving DecidableEq

namespace RegisterGroup

def name : RegisterGroup → String
  | scalar => "Scalar"
  | vector => "Vector"

-- Group names are the one kind of name in which case matters.
def ofName? (name : String) : Option RegisterGroup := [scalar, vector].find? (·.name = name)

end RegisterGroup

namespace Register

def count : Nat := 16

-- The flags of the last comparison.
abbrev flags : Nat := 13

-- Where a linking branch leaves the address to return to.
abbrev link : Nat := 14

abbrev counter : Nat := 15

def group : Register → RegisterGroup
  | scalar _ => .scalar
  | vector _ => .vector

def text : Register → String
  | scalar number => "R" ++ number.repr
  | vector number => "V" ++ number.repr

-- Scalar registers come before vector registers, either by number.
def precedes : Register → Register → Bool
  | scalar a, scalar b => a ≤ b
  | vector a, vector b => a ≤ b
  | scalar _, vector _ => true
  | vector _, scalar _ => false

-- The members of a set of registers, once each and in order.
def listing (registers : List Register) : List Register :=
  registers.eraseDups.mergeSort precedes

end Register

end PipelinedProcessor
