import PipelinedProcessor.CommandLine.Assembler
import PipelinedProcessor.CommandLine.Runner
import PipelinedProcessor.Proofs.Machine.Fetching

namespace PipelinedProcessor

theorem Word.ofBytes_bytes (w : Word) :
    Word.ofBytes (.ofBitVec (w.extractLsb' 24 8)) (.ofBitVec (w.extractLsb' 16 8))
      (.ofBitVec (w.extractLsb' 8 8)) (.ofBitVec (w.extractLsb' 0 8)) = w := by
  apply BitVec.eq_of_getLsbD_eq
  intro i hi
  simp only [ofBytes, BitVec.getLsbD_append, BitVec.getLsbD_extractLsb']
  grind

theorem withHalt_withHalt (program : List Word) :
    withHalt (withHalt program) = withHalt program := by
  rw [withHalt, if_pos (Machine.getLast?_withHalt program)]

-- The loader sees the same program, whoever has put the word that halts at its end.
theorem Machine.load_withHalt (machine : Machine) (start : Nat) (program : List Word) :
    machine.load start (withHalt program) = machine.load start program := by
  simp only [load, withHalt_withHalt]

namespace CommandLine

theorem wordsOfBytes?_bytes (words : List Word) :
    wordsOfBytes? (words.flatMap Word.bytes) = some words := by
  induction words with
  | nil => rfl
  | cons w rest ih =>
      rw [List.flatMap_cons]
      show (wordsOfBytes? (rest.flatMap Word.bytes)).map (Word.ofBytes _ _ _ _ :: ·) = _
      rw [ih, Option.map_some, Word.ofBytes_bytes]

theorem sourceText_toUTF8 (source : String) :
    sourceText source.toUTF8.data.toList = .ok source := by
  have htext : String.fromUTF8? source.toUTF8 = some source := by
    rw [String.fromUTF8?, String.toUTF8_eq_toByteArray, dif_pos source.isValidUTF8]
    rfl
  rw [sourceText, Array.toArray_toList, htext]

theorem assemble_of_program {source : String} {program : List Instruction}
    (h : Assembly.program source = .ok program) (options : AssembleOptions) (path : String) :
    ∃ output, assemble options path source.toUTF8.data.toList =
      { output := output, file := some (imageOf program) } := by
  simp only [assemble, sourceText_toUTF8, h]
  exact ⟨_, rfl⟩

theorem readProgram_text {source : String} {program : List Instruction}
    (h : Assembly.program source = .ok program) :
    readProgram false source.toUTF8.data.toList = .ok (program.map Instruction.encode) := by
  simp only [readProgram, sourceText_toUTF8, Bool.false_eq_true, if_false]
  show ((Assembly.program source).mapError Assembly.ProgramError.causes).bind _ = _
  rw [h]
  rfl

theorem readProgram_image (program : List Instruction) :
    readProgram true (imageOf program) = .ok (withHalt (program.map Instruction.encode)) := by
  simp only [readProgram, imageOf, wordsOfBytes?_bytes, if_true]

-- A run depends on what is read only through what the loader makes of it.
theorem run_congr {options other : RunOptions} {bytes bytes' : List UInt8}
    {words words' : List Word} (hconfig : other.config = options.config)
    (hstart : other.start = options.start) (hread : readProgram options.binary bytes = .ok words)
    (hread' : readProgram other.binary bytes' = .ok words') (hload : ∀ machine : Machine,
      machine.load options.start words' = machine.load options.start words) :
    run other bytes' = run options bytes := by
  simp only [run, hconfig, hstart, hread, hread', hload]

-- A source text comes to the same in the runner whether it is run as it is or assembled into a file
-- first: the file holds its words with the word that halts after them, unless they end in it
-- already, the loader makes the same of either, and so does the run.
theorem run_of_assembled {source : String} {program : List Instruction}
    (hprogram : Assembly.program source = .ok program) (options : AssembleOptions) (path : String) :
    let text := source.toUTF8.data.toList
    let words := program.map Instruction.encode
    let made := assemble options path text
    made.exitCode = 0 ∧ made.errors = "" ∧ ∃ image decoded, made.file = some image ∧
      readProgram false text = .ok words ∧ readProgram true image = .ok decoded ∧
      (words.getLast? = some Word.halt → decoded = words) ∧
      (words.getLast? ≠ some Word.halt → decoded = words ++ [Word.halt]) ∧
      (∀ (machine : Machine) (start : Nat), machine.load start decoded = machine.load start words) ∧
      ∀ options : RunOptions, run { options with binary := true } image =
        run { options with binary := false } text := by
  intro text words made
  obtain ⟨output, hmade⟩ : ∃ output, made = { output := output, file := some (imageOf program) } :=
    assemble_of_program hprogram options path
  have htext : readProgram false text = .ok words := readProgram_text hprogram
  have himage : readProgram true (imageOf program) = .ok (withHalt words) :=
    readProgram_image program
  rw [hmade]
  refine ⟨rfl, rfl, imageOf program, withHalt words, rfl, htext, himage, fun h => if_pos h,
    fun h => if_neg h, fun machine start => machine.load_withHalt start words, fun options => ?_⟩
  exact run_congr rfl rfl htext himage fun machine => machine.load_withHalt options.start words

-- The empty program gets the word that halts, and one that has it keeps it.
theorem run_of_empty_program :
    (∃ image, (assemble {} "program" "".toUTF8.data.toList).file = some image ∧
      readProgram true image = .ok [Word.halt]) ∧
    ∃ image, (assemble {} "program" "LOAD R1 5\nHALT".toUTF8.data.toList).file = some image ∧
      readProgram true image = .ok [(Instruction.transferImmediate .load 1 5).encode, Word.halt] ∧
      ∀ options : RunOptions, run { options with binary := true } image =
        run { options with binary := false } "LOAD R1 5\nHALT".toUTF8.data.toList := by
  have hempty : Assembly.program "" = .ok [] := ok_of_toOption (by decide +kernel)
  have hended : Assembly.program "LOAD R1 5\nHALT" = .ok [.transferImmediate .load 1 5, .halt] :=
    ok_of_toOption (by decide +kernel)
  constructor
  · obtain ⟨-, -, image, decoded, hfile, -, hread, -, hadded, -⟩ :=
      run_of_assembled hempty {} "program"
    obtain rfl : decoded = [Word.halt] := hadded nofun
    exact ⟨image, hfile, hread⟩
  · obtain ⟨-, -, image, decoded, hfile, -, hread, hkept, -, -, hrun⟩ :=
      run_of_assembled hended {} "program"
    obtain rfl : decoded = [(Instruction.transferImmediate .load 1 5).encode, Word.halt] :=
      hkept (by decide +kernel)
    exact ⟨image, hfile, hread, hrun⟩

end CommandLine

end PipelinedProcessor
