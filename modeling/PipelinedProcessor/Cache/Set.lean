import PipelinedProcessor.Memory.Line

namespace PipelinedProcessor

-- A place for one memory line. The start of the line it was last given is its tag, which stays
-- when the line is dropped. The rank tells how many lines of the set were used since this one.
structure CacheLine where
  line : Line := .empty
  valid : Bool := false
  dirty : Bool := false
  rank : Option Nat := none
deriving DecidableEq

namespace CacheLine

def empty : CacheLine := {}

def tag (line : CacheLine) : Option Nat := line.line.start

def word (line : CacheLine) (offset : Fin lineLength) : Word := line.line.words.get offset

-- A line that was never used is younger than every other.
def age (line : CacheLine) : Nat := line.rank.elim 0 (· + 1)

-- The memory address that a line has to be written back to.
def owed? (line : CacheLine) : Option Nat := if line.dirty then line.tag else none

def text (line : CacheLine) : String :=
  "V:" ++ line.valid.toNat.repr ++ " D:" ++ line.dirty.toNat.repr ++ " LRU:" ++
    Text.padLeft 2 (line.rank.elim "-" Nat.repr) ++ " " ++ line.line.text

end CacheLine

-- The lines that an address may be kept in. A position in the list is a way.
abbrev CacheSet := List CacheLine

namespace CacheSet

def lineAt (set : CacheSet) (way : Nat) : CacheLine := set[way]?.getD .empty

-- The way that carries the tag, whether or not its words are still good.
def way? (set : CacheSet) (tag : Nat) : Option Nat := set.findIdx? (·.tag = some tag)

def hit? (set : CacheSet) (tag : Nat) : Option Nat :=
  (set.way? tag).filter fun way => (set.lineAt way).valid

def aged (bound : Option Nat) (line : CacheLine) : CacheLine :=
  match line.rank with
  | none => line
  | some rank => if bound.all (rank < ·) then { line with rank := some (rank + 1) } else line

-- Makes a way the one used last. Only the lines used after its own last use grow older.
def touch (set : CacheSet) (way : Nat) : CacheSet :=
  let before := (set.lineAt way).rank
  set.mapIdx fun i line => if i = way then { line with rank := some 0 } else aged before line

def closedUp (gap : Option Nat) (line : CacheLine) : CacheLine :=
  match gap, line.rank with
  | some gap, some rank => if gap < rank then { line with rank := some (rank - 1) } else line
  | _, _ => line

-- Drops the words of a way but not its tag, and closes the gap it leaves in the ranks.
def withdraw (set : CacheSet) (way : Nat) : CacheSet :=
  let gap := (set.lineAt way).rank
  set.mapIdx fun i line =>
    if i = way then { line with valid := false, dirty := false, rank := none }
    else closedUp gap line

-- A new line in a way, as the one used last.
def install (set : CacheSet) (way : Nat) (line : Line) (dirty : Bool) : CacheSet :=
  let placed : CacheSet := set.modify way fun old =>
    { line := line, valid := true, dirty := dirty, rank := old.rank }
  placed.touch way

-- Other words in a way, which memory then does not have, as the one used last.
def overwrite (set : CacheSet) (way : Nat) (words : Vector Word lineLength) : CacheSet :=
  let placed : CacheSet := set.modify way fun old => { old with line.words := words, dirty := true }
  placed.touch way

def older (best : Option (Nat × Nat)) (entry : CacheLine × Nat) : Option (Nat × Nat) :=
  match best with
  | none => some (entry.1.age, entry.2)
  | some (age, way) => if age ≤ entry.1.age then some (entry.1.age, entry.2) else some (age, way)

-- Of the ways that may be chosen, the one not used for longest; of several, the last.
def oldest? (set : CacheSet) (free : Nat → Bool) : Option Nat :=
  ((set.zipIdx.filter fun entry => free entry.2).foldl older none).map Prod.snd

def unused? (set : CacheSet) (free : Nat → Bool) : Option Nat :=
  (set.zipIdx.find? fun entry => !entry.1.valid && free entry.2).map Prod.snd

-- The way a new line goes to: the one that carries the tag already, else one without a good line,
-- else the one not used for longest. Ways that are not free are taken only if no other is left.
def victim (set : CacheSet) (tag : Nat) (free : Nat → Bool) : Nat :=
  ((set.way? tag <|> set.unused? free <|> set.oldest? free) <|> set.oldest? fun _ => true).getD 0

end CacheSet

end PipelinedProcessor
