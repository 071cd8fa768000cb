import PipelinedProcessor.Proofs.Memory.Lemmas

namespace PipelinedProcessor

namespace Line

-- The line holds an address of the range `first`, …, `last - 1`.
def Meets (line : Line) (first last : Nat) : Prop :=
  ∃ address, first ≤ address ∧ address < last ∧ line.contains address = true

variable {line : Line} {start : Nat} (hstart : line.start = some start)

include hstart

theorem contains_iff (address : Nat) :
    line.contains address = true ↔ start ≤ address ∧ address < start + lineLength := by
  simp only [contains, hstart, Option.any_some, Bool.and_eq_true, decide_eq_true_eq]

-- That the ends of the range are on either side is not enough: the range may have no address.
theorem meets_iff (first last : Nat) :
    line.Meets first last ↔ first < last ∧ start < last ∧ first < start + lineLength := by
  simp only [Meets, contains_iff hstart, lineLength]
  constructor
  · rintro ⟨address, hfirst, hlast, hlow, hhigh⟩
    omega
  · rintro ⟨hlt, hlast, hfirst⟩
    exact ⟨max first start, by omega⟩

end Line

namespace MainMemory

variable {memory : MainMemory}

-- The line at index `i` holds the addresses from `i * lineLength` on.

theorem lineStart_of_line {i address : Nat} (hi : i < memory.lineCount)
    (hlow : i * lineLength ≤ address) (hhigh : address < i * lineLength + lineLength) :
    memory.lineStart address = i * lineLength := by
  have hcapacity := memory.capacity_eq
  simp only [lineLength] at hlow hhigh
  have hwrap : memory.wrap address = address := Nat.mod_eq_of_lt (by omega)
  rw [lineStart, hwrap, lineLength]
  omega

theorem start_peekLine {i : Nat} (hi : i < memory.lineCount) :
    (memory.peekLine (i * lineLength)).start = some (i * lineLength) :=
  congrArg some (lineStart_of_line hi (Nat.le_refl _) (by simp only [lineLength]; omega))

theorem mem_allLines {line : Line} :
    line ∈ memory.allLines ↔ ∃ i < memory.lineCount, memory.peekLine (i * lineLength) = line := by
  simp only [allLines, List.mem_map, List.mem_range]

theorem mem_linesInRange {first last : Nat} {line : Line} :
    line ∈ memory.linesInRange first last ↔ ∃ i < memory.lineCount,
      i * lineLength < last ∧ first < i * lineLength + lineLength ∧
      memory.peekLine (i * lineLength) = line := by
  simp only [linesInRange, List.mem_map, List.mem_range'_1, lineLength]
  constructor
  · rintro ⟨i, ⟨hlow, hhigh⟩, rfl⟩
    exact ⟨i, by omega, by omega, by omega, rfl⟩
  · rintro ⟨i, hi, hlast, hfirst, rfl⟩
    exact ⟨i, by omega, rfl⟩

theorem ascending_linesInRange (memory : MainMemory) (first last : Nat) :
    (memory.linesInRange first last).Pairwise fun lower upper => lower.start < upper.start := by
  rw [linesInRange, List.pairwise_map]
  refine List.Pairwise.imp_of_mem ?_ List.pairwise_lt_range'
  intro i j hi hj hlt
  rw [List.mem_range'_1] at hi hj
  rw [start_peekLine (by omega), start_peekLine (by omega), Option.some_lt_some, lineLength]
  omega

-- Some of the lines of memory, once each and from the lowest address on.
structure Lists (memory : MainMemory) (chosen : Line → Prop) (lines : List Line) : Prop where
  mem_iff : ∀ line, line ∈ lines ↔ line ∈ memory.allLines ∧ chosen line
  ascending : lines.Pairwise fun lower upper => lower.start < upper.start

-- The range has no address, but its ends are inside one line of memory, after the line's first
-- word.
def EmptyInLine (memory : MainMemory) (first last : Nat) : Prop :=
  last ≤ first ∧ first < memory.capacity ∧ memory.lineStart first < last

theorem emptyInLine_iff {i first : Nat} (hi : i < memory.lineCount) (hlow : i * lineLength ≤ first)
    (hhigh : first < i * lineLength + lineLength) (last : Nat) :
    memory.EmptyInLine first last ↔ last ≤ first ∧ i * lineLength < last := by
  have hcapacity := memory.capacity_eq
  rw [EmptyInLine, lineStart_of_line hi hlow hhigh]
  simp only [lineLength] at hlow hhigh ⊢
  omega

theorem mem_linesInRange_iff {first last : Nat} {line : Line} :
    line ∈ memory.linesInRange first last ↔ line ∈ memory.allLines ∧
      (line.Meets first last ∨ memory.EmptyInLine first last ∧ line.contains first = true) := by
  rw [mem_linesInRange, mem_allLines]
  constructor
  · rintro ⟨i, hi, hlast, hfirst, rfl⟩
    refine ⟨⟨i, hi, rfl⟩, ?_⟩
    rw [Line.meets_iff (start_peekLine hi), Line.contains_iff (start_peekLine hi)]
    by_cases hlt : first < last
    · exact .inl ⟨hlt, hlast, hfirst⟩
    · have hlow : i * lineLength ≤ first := by omega
      exact .inr ⟨(emptyInLine_iff hi hlow hfirst last).mpr ⟨by omega, hlast⟩, hlow, hfirst⟩
  · rintro ⟨⟨i, hi, rfl⟩, hchosen⟩
    rw [Line.meets_iff (start_peekLine hi), Line.contains_iff (start_peekLine hi)] at hchosen
    rcases hchosen with ⟨-, hlast, hfirst⟩ | ⟨hempty, hlow, hfirst⟩
    · exact ⟨i, hi, hlast, hfirst, rfl⟩
    · exact ⟨i, hi, ((emptyInLine_iff hi hlow hfirst last).mp hempty).2, hfirst, rfl⟩

-- Memory has a line for every address below its capacity.
theorem exists_contains {address : Nat} (h : address < memory.capacity) :
    ∃ line ∈ memory.allLines, line.contains address = true := by
  rw [capacity_eq] at h
  have hi : address / lineLength < memory.lineCount := by
    simp only [lineLength]
    omega
  refine ⟨_, mem_allLines.mpr ⟨_, hi, rfl⟩, ?_⟩
  rw [Line.contains_iff (start_peekLine hi)]
  simp only [lineLength]
  omega

-- A range lists the lines that hold an address of it, with the one exception of an empty range
-- inside a line, which lists that line.
theorem lists_linesInRange_iff (memory : MainMemory) (first last : Nat) :
    (memory.Lists (·.Meets first last) (memory.linesInRange first last) ↔
      ¬ memory.EmptyInLine first last) ∧
      memory.Lists (fun line => line.Meets first last ∨
        memory.EmptyInLine first last ∧ line.contains first = true)
        (memory.linesInRange first last) := by
  have hascending := memory.ascending_linesInRange first last
  refine ⟨⟨?_, ?_⟩, fun line => mem_linesInRange_iff, hascending⟩
  · intro hlists hempty
    obtain ⟨line, hline, hcontains⟩ := exists_contains hempty.2.1
    have hlisted := mem_linesInRange_iff.mpr ⟨hline, .inr ⟨hempty, hcontains⟩⟩
    obtain ⟨-, address, hfirst, hlast, -⟩ := (hlists.mem_iff line).mp hlisted
    have hnone := hempty.1
    omega
  · intro hnot
    refine ⟨fun line => ?_, hascending⟩
    simp only [mem_linesInRange_iff, hnot, false_and, or_false]

example :
    ((zeroed 4 0 (by decide)).linesInRange 5 13).map (·.start) = [some 4, some 8, some 12] := by
  decide

-- The range from 1 to 1 is empty, but it is inside the first line.
theorem line_of_empty_range :
    let memory := zeroed 1 0 (by decide)
    memory.linesInRange 1 1 = [memory.peekLine 0] ∧
      ¬ memory.Lists (·.Meets 1 1) (memory.linesInRange 1 1) := by
  intro memory
  refine ⟨rfl, fun hlists => ?_⟩
  obtain ⟨-, address, hfirst, hlast, -⟩ :=
    (hlists.mem_iff (memory.peekLine 0)).mp (List.mem_singleton.mpr rfl)
  omega

end MainMemory

end PipelinedProcessor
