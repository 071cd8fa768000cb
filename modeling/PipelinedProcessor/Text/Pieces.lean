import PipelinedProcessor.Text.CharacterClass

namespace PipelinedProcessor.Text

-- The stretches between separators, empty ones included: always one more than separators.
def pieces (separates : Char → Bool) : List Char → List (List Char)
  | [] => [[]]
  | c :: rest =>
    if separates c then [] :: pieces separates rest
    else match pieces separates rest with
      | [] => [[c]]
      | piece :: others => (c :: piece) :: others

theorem pieces_ne_nil (separates : Char → Bool) (cs : List Char) : pieces separates cs ≠ [] := by
  cases cs with
  | nil => simp [pieces]
  | cons c rest =>
    simp only [pieces]
    split
    · simp
    · split <;> simp

-- The longest stretches without blanks.
def words (cs : List Char) : List (List Char) := (pieces isBlank cs).filter (· ≠ [])

def dropReturn (line : List Char) : List Char :=
  if line.getLast? = some '\r' then line.dropLast else line

-- A line ends with a line feed, and a carriage return before it belongs to the ending. Without
-- a line feed the last line ends where the text does, and is a line only if something is left.
def lines (cs : List Char) : List (List Char) :=
  let all := pieces (· = '\n') cs
  all.dropLast.map dropReturn ++ all.getLast?.toList.filter (· ≠ [])

def trim (cs : List Char) : List Char :=
  ((cs.dropWhile isBlank).reverse.dropWhile isBlank).reverse

end PipelinedProcessor.Text
