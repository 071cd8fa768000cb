import PipelinedProcessor.Text.Pieces

namespace PipelinedProcessor.Assembly

-- A line of a source text that is not empty, under its number in the text.
structure SourceLine where
  number : Nat
  text : String
deriving DecidableEq

def endsInLoneBackslash (cs : List Char) : Bool :=
  (cs.reverse.takeWhile (· = '\\')).length = 1

-- A comment reaches to the end of the line. Inside it a backslash belongs to the character after
-- it, so that a single one at the very end is not part of the comment.
def uncomment : List Char → List Char
  | [] => []
  | '/' :: '/' :: comment => if endsInLoneBackslash comment then ['\\'] else []
  | c :: rest => c :: uncomment rest

def numbered : Nat → List (List Char) → List SourceLine
  | _, [] => []
  | number, line :: rest =>
    match Text.trim (uncomment line) with
    | [] => numbered (number + 1) rest
    | text => ⟨number, String.ofList text⟩ :: numbered (number + 1) rest

-- What remains of a source text without comments and empty lines. Lines are counted from one.
def strip (source : String) : List SourceLine := numbered 1 (Text.lines source.toList)

def isLabelName : List Char → Bool
  | [] => false
  | c :: rest => (c.isAlpha || c = '_') && rest.all Text.isWordCharacter

-- The label that a line defines, if it is a name and a colon and nothing else.
def SourceLine.label? (line : SourceLine) : Option String :=
  let cs := line.text.toList
  if cs.getLast? = some ':' && isLabelName cs.dropLast
    then some (String.ofList cs.dropLast) else none

end PipelinedProcessor.Assembly
