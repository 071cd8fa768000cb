import PipelinedProcessor.Word
import PipelinedProcessor.Text.Column

namespace PipelinedProcessor

-- A place in a vector register, empty until something is written to it.
abbrev Slot := Option Word

-- The vector registers. All of them have the same number of slots.
structure VectorRegisters where
  registers : List (List Slot)
deriving DecidableEq

namespace VectorRegisters

def empty (count slots : Nat) : VectorRegisters := ⟨.replicate count (.replicate slots none)⟩

def count (vectors : VectorRegisters) : Nat := vectors.registers.length

def slotCount (vectors : VectorRegisters) : Nat := (vectors.registers.head?.map List.length).getD 0

-- A register that does not exist has no slots, and a slot that does not exist is empty.
def get (vectors : VectorRegisters) (number : Nat) : List Slot := vectors.registers[number]?.getD []

def slot (vectors : VectorRegisters) (number i : Nat) : Slot := (vectors.get number)[i]?.join

-- The slots in use, up to the first empty one.
def length (vectors : VectorRegisters) (number : Nat) : Nat :=
  ((vectors.get number).takeWhile Option.isSome).length

def isEmpty (vectors : VectorRegisters) (number : Nat) : Bool := vectors.length number = 0

-- Values replace the slots from the first on; those without a slot are dropped.
def overwrite : List Slot → List Slot → List Slot
  | [], _ => []
  | slots, [] => slots
  | _ :: slots, value :: values => value :: overwrite slots values

def set (vectors : VectorRegisters) (number : Nat) (values : List Slot) : VectorRegisters :=
  ⟨vectors.registers.modify number (overwrite · values)⟩

theorem get_set (vectors : VectorRegisters) (number other : Nat) (values : List Slot) :
    (vectors.set number values).get other =
      if number = other then overwrite (vectors.get other) values else vectors.get other := by
  simp only [get, set, List.getElem?_modify]
  split
  · cases vectors.registers[other]? <;> simp [overwrite]
  · simp

-- The slots with the first empty one filled, unless all of them are in use.
def fillFirst? (w : Word) : List Slot → Option (List Slot)
  | [] => none
  | none :: slots => some (some w :: slots)
  | some v :: slots => (fillFirst? w slots).map (some v :: ·)

-- A full register stays as it is, and so does one that does not exist.
def append? (vectors : VectorRegisters) (number : Nat) (w : Word) : Option VectorRegisters :=
  (fillFirst? w (vectors.get number)).map fun slots => ⟨vectors.registers.set number slots⟩

def append (vectors : VectorRegisters) (number : Nat) (w : Word) : VectorRegisters :=
  (vectors.append? number w).getD vectors

def clear (vectors : VectorRegisters) : VectorRegisters :=
  ⟨vectors.registers.map fun slots => slots.map fun _ => none⟩

def slotText (slot : Slot) : String := slot.elim "_" Word.text

def lineText (entry : List Slot × Nat) : String :=
  "V" ++ Text.twoDigits entry.2 ++ ": [" ++ ", ".intercalate (entry.1.map slotText) ++ "]\n"

def text (vectors : VectorRegisters) : String := String.join (vectors.registers.zipIdx.map lineText)

-- The registers that hold something, under their numbers.
def inUse (vectors : VectorRegisters) : List (List Slot × Nat) :=
  vectors.registers.zipIdx.filter fun entry => entry.1.any Option.isSome

def textInUse (vectors : VectorRegisters) : String := String.join (vectors.inUse.map lineText)

end VectorRegisters

end PipelinedProcessor
