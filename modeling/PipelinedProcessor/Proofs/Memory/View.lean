import PipelinedProcessor.Proofs.Architecture.Basic
import PipelinedProcessor.Proofs.Memory.Lemmas

namespace PipelinedProcessor

namespace MemoryView

theorem put_apply (capacity : Nat) (memory : MemoryView) (address other : Nat) (w : Word) :
    memory.put capacity address w other =
      if other % capacity = address % capacity then w else memory other := rfl

theorem putAll_of_ne {capacity : Nat} {memory : MemoryView} {address other : Nat}
    {words : List Word} (h : ∀ i < words.length, other % capacity ≠ (address + i) % capacity) :
    memory.putAll capacity address words other = memory other := by
  induction words generalizing memory address with
  | nil => rfl
  | cons w rest ih =>
      have hne : other % capacity ≠ address % capacity := h 0 (by simp)
      rw [putAll, ih, put_apply, if_neg hne]
      intro i hi
      rw [show address + 1 + i = address + (i + 1) by omega]
      exact h (i + 1) (by simpa using hi)

-- Fewer words than memory holds do not overwrite each other.
theorem putAll_of_eq {capacity : Nat} {memory : MemoryView} {address other i : Nat}
    {words : List Word} (hlength : words.length ≤ capacity) (hi : i < words.length)
    (hother : other % capacity = (address + i) % capacity) :
    memory.putAll capacity address words other = words[i] := by
  induction words generalizing memory address i with
  | nil => simp at hi
  | cons w rest ih =>
      simp only [List.length_cons] at hlength hi
      cases i with
      | zero =>
          have hsame : other % capacity = address % capacity := hother
          rw [putAll, putAll_of_ne, put_apply, if_pos hsame]
          · rfl
          · intro j hj heq
            have hzero := Nat.sub_mod_eq_zero_of_mod_eq (heq.symm.trans hsame)
            rw [show address + 1 + j - address = j + 1 by omega,
              Nat.mod_eq_of_lt (by omega)] at hzero
            omega
      | succ i =>
          have hrest : other % capacity = (address + 1 + i) % capacity := by
            rw [hother]
            congr 1
            omega
          rw [putAll, ih (by omega) (by omega) hrest]
          rfl

theorem putAll_append (capacity : Nat) (memory : MemoryView) (address : Nat)
    (first second : List Word) :
    memory.putAll capacity address (first ++ second) =
      (memory.putAll capacity address first).putAll capacity (address + first.length) second := by
  induction first generalizing memory address with
  | nil => rfl
  | cons w rest ih =>
      rw [List.cons_append, putAll, ih, putAll, List.length_cons]
      congr 1
      omega

end MemoryView

namespace MainMemory

-- The words of some lines, one at every address.
def wordsOf (memory : MainMemory) (content : Nat → Vector Word lineLength) : MemoryView :=
  fun address => (content address).get (memory.offset address)

theorem wordsOf_peekWords (memory : MainMemory) : memory.wordsOf memory.peekWords = memory.peek :=
  rfl

theorem lineStart_add (memory : MainMemory) (address : Nat) {i : Nat} (hi : i < lineLength) :
    memory.lineStart (memory.lineStart address + i) = memory.lineStart address := by
  have hstart := memory.lineStart_eq address
  have hlt := memory.lineStart_lt address
  have hcapacity := memory.capacity_eq
  simp only [lineLength] at hi
  have hwrap : memory.wrap (memory.lineStart address + i) = memory.lineStart address + i :=
    Nat.mod_eq_of_lt (by omega)
  rw [lineStart, hwrap, lineLength]
  omega

-- A line is made of the words at its addresses.
theorem eq_ofFn_wordsOf (memory : MainMemory) {content : Nat → Vector Word lineLength}
    (hcontent : ∀ {a b : Nat}, memory.lineStart a = memory.lineStart b → content a = content b)
    (address : Nat) :
    content address = .ofFn fun i => memory.wordsOf content (memory.lineStart address + i) := by
  apply Vector.ext
  intro i hi
  have hstart := memory.lineStart_eq address
  have hoffset : memory.offset (memory.lineStart address + i) = ⟨i, hi⟩ := by
    apply Fin.ext
    rw [offset_val, hstart]
    simp only [lineLength] at hi ⊢
    omega
  rw [Vector.getElem_ofFn, wordsOf, hoffset, hcontent (memory.lineStart_add address hi)]
  rfl

theorem peekWords_eq_ofFn (memory : MainMemory) (address : Nat) :
    memory.peekWords address = .ofFn fun i => memory.peek (memory.lineStart address + i) :=
  memory.eq_ofFn_wordsOf memory.peekWords_congr address

theorem mod_eq_of_same_line {memory : MainMemory} {a b : Nat}
    (hline : memory.lineStart b = memory.lineStart a) (hle : memory.offset a ≤ memory.offset b) :
    b % memory.capacity = (a + (memory.offset b - memory.offset a)) % memory.capacity := by
  have ha := memory.wrap_eq_lineStart_add_offset a
  have hb := memory.wrap_eq_lineStart_add_offset b
  have hlt := memory.wrap_lt b
  simp only [wrap] at ha hb hlt
  have hle' : (memory.offset a).val ≤ memory.offset b := hle
  have hsmall : (memory.offset b).val - memory.offset a < memory.capacity := by omega
  have hsum : memory.lineStart a + memory.offset a + ((memory.offset b).val - memory.offset a) <
      memory.capacity := by
    omega
  rw [Nat.add_mod, ha, Nat.mod_eq_of_lt hsmall, Nat.mod_eq_of_lt hsum]
  omega

theorem same_line_of_mod_eq {memory : MainMemory} {a b i : Nat}
    (hi : i < lineLength - memory.offset a) (h : b % memory.capacity = (a + i) % memory.capacity) :
    memory.lineStart b = memory.lineStart a ∧ (memory.offset b).val = memory.offset a + i := by
  have ha := memory.wrap_eq_lineStart_add_offset a
  have hb := memory.wrap_eq_lineStart_add_offset b
  have hstart := memory.lineStart_eq a
  have hstart' := memory.lineStart_eq b
  have hlt := memory.lineStart_lt a
  have hcapacity := memory.capacity_eq
  have hoffset := (memory.offset b).isLt
  simp only [lineLength] at hi hoffset
  have hsmall : i < memory.capacity := by omega
  have hsum : memory.lineStart a + memory.offset a + i < memory.capacity := by omega
  simp only [wrap] at ha hb
  rw [Nat.add_mod, ha, Nat.mod_eq_of_lt hsmall, Nat.mod_eq_of_lt hsum, hb] at h
  omega

-- Replacing words of one line, seen word by word. What does not fit into the line is left out.
theorem wordsOf_patch (memory : MainMemory) (content : Nat → Vector Word lineLength) (a : Nat)
    (data : List Word) :
    (memory.wordsOf fun b =>
        if memory.lineStart b = memory.lineStart a then patch (content b) (memory.offset a) data
        else content b) =
      (memory.wordsOf content).putAll memory.capacity a
        (data.take (fitting (memory.offset a) data)) := by
  have hcapacity := memory.capacity_eq
  have hpos := memory.lineCount_pos
  have hlength : (data.take (fitting (memory.offset a) data)).length =
      fitting (memory.offset a) data := by
    simp [fitting]
  funext b
  by_cases hin : memory.lineStart b = memory.lineStart a ∧ memory.offset a ≤ memory.offset b ∧
      (memory.offset b).val - memory.offset a < data.length
  · obtain ⟨hline, hle, hlt⟩ := hin
    have hoffset := (memory.offset b).isLt
    simp only [lineLength] at hoffset
    have hle' : (memory.offset a).val ≤ memory.offset b := hle
    have hfits : (memory.offset b).val - memory.offset a < fitting (memory.offset a) data := by
      simp only [fitting, lineLength]
      omega
    have hsmall : fitting (memory.offset a) data ≤ memory.capacity := by
      simp only [fitting, lineLength]
      omega
    rw [MemoryView.putAll_of_eq (by rw [hlength]; exact hsmall) (by rw [hlength]; exact hfits)
      (mod_eq_of_same_line hline hle)]
    simp only [wordsOf, if_pos hline, get_patch, if_pos hle', List.getElem_take,
      List.getElem?_eq_getElem hlt, Option.getD_some]
  · rw [MemoryView.putAll_of_ne]
    · simp only [wordsOf]
      split
      · rename_i hline
        rw [get_patch]
        split
        · rename_i hle
          rw [List.getElem?_eq_none]
          · rfl
          · exact Nat.le_of_not_lt fun hlt => hin ⟨hline, hle, hlt⟩
        · rfl
      · rfl
    · intro i hi heq
      rw [hlength, fitting] at hi
      obtain ⟨hline, hoffset⟩ := same_line_of_mod_eq (by omega) heq
      exact hin ⟨hline, Fin.le_def.mpr (by omega), by omega⟩

-- Replacing a whole line.
theorem wordsOf_line (memory : MainMemory) (content : Nat → Vector Word lineLength) (a : Nat)
    (words : Vector Word lineLength) :
    (memory.wordsOf fun b =>
        if memory.lineStart b = memory.lineStart a then words else content b) =
      (memory.wordsOf content).putAll memory.capacity (memory.lineStart a) words.toList := by
  have hzero : (memory.offset (memory.lineStart a)).val = 0 := by
    rw [offset_val, lineStart_eq]
    omega
  have hpatch := memory.wordsOf_patch content (memory.lineStart a) words.toList
  rw [lineStart_lineStart, hzero] at hpatch
  have hfitting : fitting 0 words.toList = words.toList.length := by
    simp [fitting]
  rw [hfitting, List.take_length] at hpatch
  rw [← hpatch]
  congr 1
  funext b
  split
  · ext i hi
    simp [patch]
  · rfl

end MainMemory

end PipelinedProcessor
