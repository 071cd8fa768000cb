import PipelinedProcessor.Assembly.Program
import PipelinedProcessor.CommandLine.Runner
import PipelinedProcessor.Instruction.Text
import PipelinedProcessor.Machine.Load

namespace PipelinedProcessor.CommandLine

structure AssembleOptions where
  verbose : Bool := false
  outputPath : String := "a"
deriving DecidableEq

def retainedText (line : Assembly.SourceLine) : String :=
  "Line " ++ line.number.repr ++ ": Retaining: " ++ line.text ++ "\n"

def instructionText (entry : Instruction × Nat) : String :=
  Text.padLeft 5 entry.2.repr ++ ": 0x" ++ Text.hex 8 entry.1.encode.toNat ++ "  " ++
    entry.1.text ++ "\n"

-- The words of a program as they are stored in a file.
def imageOf (program : List Instruction) : List UInt8 :=
  (withHalt (program.map Instruction.encode)).flatMap Word.bytes

-- What is told on the way when asked for.
def said (options : AssembleOptions) (text : String) : String :=
  if options.verbose then text else ""

-- Assembles the text of a file under the given path. The words go into the file of the outcome.
def assemble (options : AssembleOptions) (path : String) (bytes : List UInt8) : Outcome :=
  let reading := said options ("Reading in file: " ++ path ++ "\n")
  match sourceText bytes with
  | .error message => { exitCode := 1, output := reading, errors := "Error: " ++ message ++ "\n" }
  | .ok source =>
    let retained := said options (String.join ((Assembly.strip source).map retainedText))
    match Assembly.program source with
    | .error error =>
      { exitCode := 1, output := reading ++ retained, errors := "Error: " ++ error.message ++ "\n" }
    | .ok program =>
      let listing := said options (String.join (program.zipIdx.map instructionText))
      let writing := said options ("Writing to path " ++ options.outputPath ++ "\n")
      let appending :=
        if (program.map Instruction.encode).getLast? = some Word.halt then ""
        else said options "Appending HALT\n"
      { output := reading ++ retained ++ listing ++ writing ++ appending
        file := some (imageOf program) }

end PipelinedProcessor.CommandLine
