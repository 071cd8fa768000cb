import PipelinedProcessor.Assembly.Line
import PipelinedProcessor.Assembly.Source

namespace PipelinedProcessor.Assembly

inductive ProgramError where
  | duplicateLabel (line : SourceLine)
  | badLine (line : SourceLine) (cause : LineError)
deriving DecidableEq

namespace ProgramError

def place (line : SourceLine) : String := "Line " ++ line.number.repr ++ ": "

-- From the outermost statement of what went wrong to its cause.
def causes : ProgramError → List String
  | duplicateLabel line => [place line ++ "Duplicate label " ++ line.text]
  | badLine line cause => [place line ++ line.text, cause.message]

def message (error : ProgramError) : String := ": ".intercalate error.causes

end ProgramError

-- A label names the instruction after it, or the end of the program. `position` counts the
-- instructions before `lines`, and `known` holds the labels defined before them.
def layoutFrom (position : Nat) (known : List String) :
    List SourceLine → Except ProgramError (Labels × List SourceLine)
  | [] => .ok ([], [])
  | line :: rest =>
    match line.label? with
    | some name =>
      if known.contains name then .error (.duplicateLabel line)
      else do
        let (labels, lines) ← layoutFrom position (name :: known) rest
        .ok ((name, position) :: labels, lines)
    | none => do
      let (labels, lines) ← layoutFrom (position + 1) known rest
      .ok (labels, line :: lines)

-- Labels and instructions of a program, apart.
def layout (lines : List SourceLine) : Except ProgramError (Labels × List SourceLine) :=
  layoutFrom 0 [] lines

def instructionsFrom (labels : Labels) (address : Nat) :
    List SourceLine → Except ProgramError (List Instruction)
  | [] => .ok []
  | line :: rest => do
    let instr ← (instruction labels address line.text).mapError (.badLine line)
    let others ← instructionsFrom labels (address + 1) rest
    .ok (instr :: others)

-- All labels are known before the first instruction is read, so that a branch may go forward.
def program (source : String) : Except ProgramError (List Instruction) := do
  let (labels, lines) ← layout (strip source)
  instructionsFrom labels 0 lines

end PipelinedProcessor.Assembly
