import PipelinedProcessor.CommandLine.Assembler
import PipelinedProcessor.CommandLine.Runner
import PipelinedProcessor.Text.Numeral

namespace PipelinedProcessor.CommandLine

-- What the arguments ask for, with the file that it concerns.
inductive Command where
  | run (path : String) (options : RunOptions)
  | assemble (path : String) (options : AssembleOptions)
deriving DecidableEq

-- Why the arguments ask for nothing that can be done.
inductive ArgumentError where
  | noCommand
  | unknownCommand (name : String)
  | unknownOption (name : String)
  | noValue (option : String)
  | badValue (option value : String)
  | noFile
  | extraFile (path : String)
deriving DecidableEq

namespace ArgumentError

def message : ArgumentError → String
  | noCommand => "One of the commands run and assemble is needed"
  | unknownCommand name => "Unknown command: " ++ name
  | unknownOption name => "Unknown option: " ++ name
  | noValue option => option ++ " needs a value"
  | badValue option value => option ++ " needs a number, not " ++ value
  | noFile => "A file is needed"
  | extraFile path => "Only one file can be given, not also " ++ path

end ArgumentError

-- An option is set by itself, by the argument after it, or not known.
inductive Setting (α : Type) where
  | flag (options : α)
  | number (set : Nat → α)
  | text (set : String → α)
  | unknown

namespace RunOptions

def setting (options : RunOptions) : String → Setting RunOptions
  | "--binary" => .flag { options with binary := true }
  | "--no-pipeline" => .flag { options with config.run.pipelined := false }
  | "--no-cache" => .flag { options with config.run.cached := false }
  | "--write-allocate" => .flag { options with config.cache.writeAllocate := true }
  | "--start" => .number fun n => { options with start := n }
  | "--cache-lines" => .number fun n => { options with config.cache.lines := n }
  | "--memory-lines" => .number fun n => { options with config.memory.lines := n }
  | "--delay" => .number fun n => { options with config.memory.delay := n }
  | "--max-cycles" => .number fun n => { options with config.run.maxCycles := n }
  | _ => .unknown

end RunOptions

namespace AssembleOptions

def setting (options : AssembleOptions) (name : String) : Setting AssembleOptions :=
  if name = "--verbose" || name = "-v" then .flag { options with verbose := true }
  else if name = "--output-path" || name = "-o" then .text fun path =>
    { options with outputPath := path }
  else .unknown

end AssembleOptions

def number? (text : String) : Option Nat :=
  if text.isEmpty then none else Text.decimal? unsignedBound text.toList

-- Reads options and a file in any order. A later option overrides an earlier one.
def readArguments {α : Type} (setting : α → String → Setting α) (options : α)
    (file : Option String) :
    List String → Except ArgumentError (String × α)
  | [] => file.elim (.error .noFile) fun path => .ok (path, options)
  | argument :: rest =>
    if argument.startsWith "-" then
      match setting options argument, rest with
      | .unknown, _ => .error (.unknownOption argument)
      | .flag options, rest => readArguments setting options file rest
      | .text set, value :: rest => readArguments setting (set value) file rest
      | .number set, value :: rest =>
        match number? value with
        | some n => readArguments setting (set n) file rest
        | none => .error (.badValue argument value)
      | _, [] => .error (.noValue argument)
    else if file.isSome then .error (.extraFile argument)
    else readArguments setting options (some argument) rest

-- The first argument names the command.
def Command.ofArguments : List String → Except ArgumentError Command
  | [] => .error .noCommand
  | "run" :: rest =>
    (readArguments RunOptions.setting {} none rest).map fun given => .run given.1 given.2
  | "assemble" :: rest =>
    (readArguments AssembleOptions.setting {} none rest).map fun given => .assemble given.1 given.2
  | name :: _ => .error (.unknownCommand name)

end PipelinedProcessor.CommandLine
