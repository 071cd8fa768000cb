import PipelinedProcessor.Arithmetic
import PipelinedProcessor.Register
import PipelinedProcessor.Text.Column

namespace PipelinedProcessor

-- The scalar registers. The flags, the link and the program counter are among them, so that an
-- instruction can also use those as operands.
structure Registers where
  words : Vector Word 16 := .replicate 16 0
deriving DecidableEq

namespace Registers

instance : Inhabited Registers := ⟨{}⟩

-- A register that does not exist reads as zero, and writing to it does nothing.
def read (registers : Registers) (number : Nat) : Word := registers.words[number]?.getD 0

def write (registers : Registers) (number : Nat) (w : Word) : Registers :=
  ⟨registers.words.setIfInBounds number w⟩

theorem read_write {registers : Registers} {number other : Nat} {w : Word} :
    (registers.write number w).read other =
      if number = other ∧ other < 16 then w else registers.read other := by
  by_cases h : other < 16
  · simp [read, write, h, Vector.getElem_setIfInBounds]
  · simp [read, write, h]

def counter (registers : Registers) : Nat := (registers.read Register.counter).toAddress

-- An address past 32 bits becomes the last one.
def setCounter (registers : Registers) (address : Nat) : Registers :=
  registers.write Register.counter (BitVec.ofNat 32 (min address (Word.bound - 1)))

-- After the last address comes the first.
def stepCounter (registers : Registers) : Registers :=
  registers.write Register.counter (registers.read Register.counter + 1)

def status (registers : Registers) : List Bool := Flags.unpack (registers.read Register.flags)

-- Whether a branch under the condition is taken.
def holds (registers : Registers) (cond : Condition) : Bool :=
  cond.flag?.all fun i => (registers.read Register.flags).getLsbD i

def label (number : Nat) : String :=
  if number = Register.flags then "CND"
  else if number = Register.link then "LR "
  else if number = Register.counter then "PC "
  else "R" ++ Text.twoDigits number

def text (registers : Registers) : String :=
  let numbered := registers.words.toList.zipIdx.map fun entry =>
    label entry.2 ++ ": " ++ entry.1.text ++ "\n"
  let flags := (Condition.tested.zip registers.status).map fun entry =>
    entry.1.name ++ ": " ++ (if entry.2 then "true" else "false") ++ "\n"
  String.join (numbered ++ flags)

end Registers

end PipelinedProcessor
