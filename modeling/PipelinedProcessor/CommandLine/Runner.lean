import PipelinedProcessor.Assembly.Program
import PipelinedProcessor.Machine.Load
import PipelinedProcessor.Machine.Run

namespace PipelinedProcessor.CommandLine

-- What a command leaves behind: how it ended, what it printed, and the file it wrote, if any.
structure Outcome where
  exitCode : Nat := 0
  output : String := ""
  errors : String := ""
  file : Option (List UInt8) := none
deriving DecidableEq

-- Text that is not well-formed is not read at all.
def sourceText (bytes : List UInt8) : Except String String :=
  match String.fromUTF8? ⟨bytes.toArray⟩ with
  | some text => .ok text
  | none => .error "stream did not contain valid UTF-8"

structure RunOptions where
  binary : Bool := false
  start : Nat := 0
  config : Config := {}
deriving DecidableEq

-- Four bytes make a word.
def wordsOfBytes? : List UInt8 → Option (List Word)
  | [] => some []
  | a :: b :: c :: d :: rest => (wordsOfBytes? rest).map (Word.ofBytes a b c d :: ·)
  | _ => none

-- What went wrong, from the outermost statement to its cause.
abbrev Causes := List String

def readProgram (binary : Bool) (bytes : List UInt8) : Except Causes (List Word) :=
  if binary then
    match wordsOfBytes? bytes with
    | some words => .ok words
    | none => .error ["Program length isn't an integer multiple of 32 bits"]
  else do
    let source ← (sourceText bytes).mapError fun message => [message]
    let program ← (Assembly.program source).mapError Assembly.ProgramError.causes
    .ok (program.map Instruction.encode)

def causesText : Causes → String
  | [] => "Error: \n"
  | [message] => "Error: " ++ message ++ "\n"
  | message :: causes =>
    "Error: " ++ message ++ "\n\nCaused by:\n" ++
      String.join (causes.map fun cause => "    " ++ cause ++ "\n")

-- The machine after a run, and the report of the run.
def stateText (machine : Machine) (report : Report) : String :=
  machine.registers.text ++ "\n" ++ machine.vectors.textInUse ++ machine.cache.text ++ "\n" ++
    report.text ++ "\n"

def failed (output : String) (causes : Causes) : Outcome :=
  { exitCode := 1, output := output, errors := causesText causes }

-- Loads a program and runs it to its end.
def run (options : RunOptions) (bytes : List UInt8) : Outcome :=
  match Machine.build options.config with
  | .error error => failed "" [error.message]
  | .ok machine =>
  match readProgram options.binary bytes with
  | .error causes => failed "" causes
  | .ok program =>
  match machine.load options.start program with
  | (.error error, _) => failed "" [error.message]
  | (.ok count, machine) =>
    let loaded := "Loaded " ++ count.repr ++ " words at address " ++ options.start.repr ++ "\n"
    match machine.runDefault options.start with
    | (.error error, machine) =>
      failed loaded ["Run failed at cycle " ++ machine.clock.repr, error.message]
    | (.ok report, machine) => { output := loaded ++ stateText machine report }

end PipelinedProcessor.CommandLine
