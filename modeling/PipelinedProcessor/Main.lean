import PipelinedProcessor.CommandLine.Arguments

namespace PipelinedProcessor.CommandLine

-- Reads the file of a command and leaves behind what the command leads to.
def Command.perform : Command → IO UInt32
  | run path options => do
    let outcome := CommandLine.run options (← IO.FS.readBinFile path).toList
    IO.print outcome.output
    IO.eprint outcome.errors
    return outcome.exitCode.toUInt32
  | assemble path options => do
    let path := (← IO.FS.realPath path).toString
    let outcome := CommandLine.assemble options path (← IO.FS.readBinFile path).toList
    IO.print outcome.output
    IO.eprint outcome.errors
    if let some image := outcome.file then
      IO.FS.writeBinFile options.outputPath ⟨image.toArray⟩
    return outcome.exitCode.toUInt32

end PipelinedProcessor.CommandLine

def main (arguments : List String) : IO UInt32 := do
  match PipelinedProcessor.CommandLine.Command.ofArguments arguments with
  | .error error =>
    IO.eprintln error.message
    return 2
  | .ok command =>
    try command.perform
    catch error =>
      IO.eprintln ("Error: " ++ error.toString)
      return 1
