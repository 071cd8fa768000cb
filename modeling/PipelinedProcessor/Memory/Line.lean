import PipelinedProcessor.Word
import PipelinedProcessor.Text.Column

namespace PipelinedProcessor

-- Memory and cache move words in lines of this many.
abbrev lineLength : Nat := 4

-- The words from an offset in the line on, replaced by the data as far as both reach.
def patch (words : Vector Word lineLength) (offset : Nat) (data : List Word) :
    Vector Word lineLength :=
  .ofFn fun i => if offset ≤ i then data[i.val - offset]?.getD (words.get i) else words.get i

theorem get_patch (words : Vector Word lineLength) (offset : Nat) (data : List Word)
    (i : Fin lineLength) :
    (patch words offset data).get i =
      if offset ≤ i then data[i.val - offset]?.getD (words.get i) else words.get i := by
  show (patch words offset data)[i.val] = _
  rw [patch, Vector.getElem_ofFn]

theorem get_set (words : Vector Word lineLength) (i j : Fin lineLength) (w : Word) :
    (words.set i w).get j = if i = j then w else words.get j := by
  show (words.set i w)[j.val] = _
  rw [Vector.getElem_set]
  simp only [Fin.val_inj]
  rfl

theorem patch_singleton (words : Vector Word lineLength) (i : Fin lineLength) (w : Word) :
    patch words i [w] = words.set i w := by
  apply Vector.ext
  intro j hj
  show (patch words i [w]).get ⟨j, hj⟩ = (words.set i w).get ⟨j, hj⟩
  rw [get_patch, get_set]
  by_cases hsame : i = ⟨j, hj⟩
  · rw [if_pos hsame, ← hsame, if_pos (Nat.le_refl _), Nat.sub_self]
    rfl
  · rw [if_neg hsame]
    split
    · rename_i hle
      have hlt : i.val < j := Nat.lt_of_le_of_ne hle fun heq => hsame (Fin.ext heq)
      rw [List.getElem?_eq_none (Nat.sub_pos_of_lt hlt)]
      rfl
    · rfl

-- How many of the data go into the line.
def fitting (offset : Nat) (data : List Word) : Nat := min data.length (lineLength - offset)

-- A line may not have been given a place in memory yet.
structure Line where
  start : Option Nat
  words : Vector Word lineLength := .replicate lineLength 0
deriving DecidableEq

-- An access to a line at an address that is not in it.
structure OutsideLine where
  address : Nat
deriving DecidableEq

def OutsideLine.message (error : OutsideLine) : String :=
  "Address " ++ error.address.repr ++ " not contained within line"

namespace Line

def empty : Line := { start := none }

def contains (line : Line) (address : Nat) : Bool :=
  line.start.any fun start => start ≤ address && address < start + lineLength

def get? (line : Line) (address : Nat) : Option Word :=
  line.start.bind fun start => if start ≤ address then line.words[address - start]? else none

-- Writes as many words as fit, and says how many.
def writePartial (line : Line) (address : Nat) (data : List Word) :
    Except OutsideLine (Line × Nat) :=
  match line.start with
  | none => .error ⟨address⟩
  | some start =>
    if line.contains address then
      let offset := address - start
      .ok ({ line with words := patch line.words offset data }, fitting offset data)
    else .error ⟨address⟩

def write (line : Line) (address : Nat) (w : Word) : Except OutsideLine Line :=
  (line.writePartial address [w]).map Prod.fst

def text (line : Line) : String :=
  let place := line.start.elim "<<No Entry>>:" fun start => "<0x" ++ Text.hex 8 start ++ ">:"
  place ++ String.join (line.words.toList.map fun w => " " ++ Text.padLeft 11 w.text)

end Line

end PipelinedProcessor
