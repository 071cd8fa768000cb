import PipelinedProcessor.Assembly.Line
import PipelinedProcessor.Instruction.Text

namespace PipelinedProcessor

namespace Text

theorem pieces_of_none {separates : Char → Bool} {cs : List Char}
    (h : ∀ c ∈ cs, separates c = false) :
    pieces separates cs = [cs] := by
  induction cs with
  | nil => rfl
  | cons c rest ih =>
      simp only [List.mem_cons, forall_eq_or_imp] at h
      simp [pieces, h.1, ih h.2]

theorem pieces_append {separates : Char → Bool} {cs rest : List Char} {separator : Char}
    (hseparator : separates separator) (h : ∀ c ∈ cs, separates c = false) :
    pieces separates (cs ++ separator :: rest) = cs :: pieces separates rest := by
  induction cs with
  | nil => simp [pieces, hseparator]
  | cons c rest ih =>
      simp only [List.mem_cons, forall_eq_or_imp] at h
      simp [pieces, h.1, ih h.2]

theorem pieces_intercalate {separates : Char → Bool} {separator : Char}
    (hseparator : separates separator) {parts : List (List Char)} (hne : parts ≠ [])
    (h : ∀ part ∈ parts, ∀ c ∈ part, separates c = false) :
    pieces separates ([separator].intercalate parts) = parts := by
  induction parts with
  | nil => exact absurd rfl hne
  | cons part rest ih =>
      simp only [List.mem_cons, forall_eq_or_imp] at h
      cases rest with
      | nil => rw [List.intercalate_singleton, pieces_of_none h.1]
      | cons next others =>
          rw [List.intercalate_cons_cons, List.append_assoc, List.singleton_append,
            pieces_append hseparator h.1, ih (List.cons_ne_nil _ _) h.2]

-- What stays together when a line is cut at its blanks.
def IsWord (cs : List Char) : Prop := cs ≠ [] ∧ ∀ c ∈ cs, isBlank c = false

instance (cs : List Char) : Decidable (IsWord cs) :=
  decidable_of_iff (cs ≠ [] ∧ cs.all fun c => !isBlank c) (by simp [IsWord])

theorem words_intercalate {parts : List (List Char)} (h : ∀ part ∈ parts, IsWord part) :
    words ([' '].intercalate parts) = parts := by
  cases parts with
  | nil => rfl
  | cons first rest =>
      rw [words, pieces_intercalate (by decide) (List.cons_ne_nil _ _) fun part hpart =>
        (h part hpart).2, List.filter_eq_self]
      intro part hpart
      simpa using (h part hpart).1

theorem isDigit_of_mem_toDigits {n : Nat} {c : Char} (h : c ∈ Nat.toDigits 10 n) : c.isDigit :=
  Nat.isDigit_of_mem_toDigits (by decide) (by decide) h

theorem isBlank_of_isDigit {c : Char} (h : c.isDigit) : isBlank c = false := by
  simp only [Char.isDigit, Bool.and_eq_true, decide_eq_true_eq, ge_iff_le,
    UInt32.le_iff_toNat_le] at h
  obtain ⟨hlow, hhigh⟩ := h
  have hlow : 0x30 ≤ c.toNat := hlow
  have hhigh : c.toNat ≤ 0x39 := hhigh
  simp [isBlank, inRanges, blankRanges]
  omega

theorem IsWord.append {cs more : List Char} (h : IsWord cs) (hmore : IsWord more) :
    IsWord (cs ++ more) := by
  refine ⟨by simp [h.1], ?_⟩
  intro c hc
  exact (List.mem_append.mp hc).elim (h.2 c) (hmore.2 c)

@[simp] theorem isWord_toDigits (n : Nat) : IsWord (Nat.toDigits 10 n) :=
  ⟨Nat.toDigits_ne_nil, fun _ hc => isBlank_of_isDigit (isDigit_of_mem_toDigits hc)⟩

@[simp] theorem isWord_repr (offset : Int) : IsWord offset.repr.toList := by
  rw [Int.repr_eq_if]
  split
  · simp
  · rw [String.toList_append, Nat.toList_repr]
    exact IsWord.append (by decide) (isWord_toDigits _)

@[simp] theorem isWord_scalarOp (op : ScalarOp) : IsWord op.name.toList := by cases op <;> decide

@[simp] theorem isWord_vectorOp (op : VectorOp) : IsWord op.name.toList := by cases op <;> decide

@[simp] theorem isWord_condition (cond : Condition) : IsWord cond.name.toList := by
    cases cond <;> decide

end Text

namespace Instruction

open Text

@[simp] theorem isWord_registerToken (number : Nat) : IsWord (registerToken number).toList := by
  rw [registerToken, String.toList_append, Nat.toList_repr]
  exact IsWord.append (by decide) (isWord_toDigits number)

@[simp] theorem isWord_vectorToken (number : Nat) : IsWord (vectorToken number).toList := by
  rw [vectorToken, String.toList_append, Nat.toList_repr]
  exact IsWord.append (by decide) (isWord_toDigits number)

@[simp] theorem isWord_derefToken (number : Nat) : IsWord (derefToken number).toList := by
  rw [derefToken, String.toList_append, String.toList_append, Nat.toList_repr]
  exact IsWord.append (IsWord.append (by decide) (isWord_toDigits number)) (by decide)

theorem isWord_of_mem_scalarTokens {op : ScalarOp} {rd : Nat} {first second : String}
    (hfirst : IsWord first.toList) (hsecond : IsWord second.toList) :
    ∀ part ∈ scalarTokens op rd first second, IsWord part.toList := by
  intro part hpart
  simp only [scalarTokens, List.mem_cons, List.mem_append] at hpart
  obtain rfl | (hpart | hpart) | hpart := hpart
  · exact isWord_scalarOp op
  all_goals
    split at hpart
    · obtain rfl := List.mem_singleton.mp hpart
      first | exact isWord_registerToken rd | assumption
    · exact absurd hpart List.not_mem_nil

-- Only a return that goes nowhere else is shown in one word.
theorem tokens_branch {cond : Condition} {link : Bool} {offset : Int}
    (h : ¬ (cond = .ret ∧ link = false ∧ offset = 0)) :
    tokens (branch cond link offset) =
      [if link then "CALL" else "BRANCH", offset.repr] ++ if cond = .always then []
        else ["IF", cond.name] := by
  rw [tokens]
  rintro rfl rfl rfl
  exact h ⟨rfl, rfl, rfl⟩

theorem isWord_of_mem_tokens {instr : Instruction} (h : ∀ raw, instr ≠ invalid raw) :
    ∀ part ∈ instr.tokens, IsWord part.toList := by
  cases instr with
  | scalar operands cond op rd r1 r2 =>
      cases operands <;> exact isWord_of_mem_scalarTokens (by simp) (by simp)
  | scalarImmediate indirect op rd r1 immediate =>
      cases indirect <;> exact isWord_of_mem_scalarTokens (by simp) (by simp)
  | transfer op rd r1 => simp [tokens]
  | transferImmediate op rd immediate => simp [tokens]
  | branch cond link offset =>
      by_cases hreturn : cond = .ret ∧ link = false ∧ offset = 0
      · obtain ⟨rfl, rfl, rfl⟩ := hreturn
        decide
      · have hfirst : IsWord (if link then "CALL" else "BRANCH").toList := by cases link <;> decide
        have hrest : ∀ part ∈ if cond = .always then [] else ["IF", cond.name],
            IsWord part.toList := by
          cases cond <;> decide
        rw [tokens_branch hreturn]
        intro part hpart
        simp only [List.cons_append, List.nil_append, List.mem_cons] at hpart
        obtain rfl | rfl | hpart := hpart
        · exact hfirst
        · exact isWord_repr offset
        · exact hrest part hpart
  | vectorTransfer op vd r1 length => cases op <;> simp [tokens]
  | vector cond op vd v1 v2 length => simp [tokens]
  | vectorImmediate cond op vd v1 immediate length => simp [tokens]
  | halt => decide
  | invalid raw => exact absurd rfl (h raw)

end Instruction

namespace Assembly

theorem tokens_intercalate {parts : List String} (h : ∀ part ∈ parts, Text.IsWord part.toList) :
    tokens (" ".intercalate parts) = parts := by
  rw [tokens, String.toList_intercalate, show " ".toList = [' '] from rfl, Text.words_intercalate]
  · simp [List.map_map, Function.comp_def]
  · intro cs hcs
    obtain ⟨part, hpart, rfl⟩ := List.mem_map.mp hcs
    exact h part hpart

-- A shown instruction falls back into the words that it was put together from.
theorem tokens_text (instr : Instruction) (h : ∀ raw, instr ≠ .invalid raw) :
    tokens instr.text = instr.tokens :=
  tokens_intercalate (Instruction.isWord_of_mem_tokens h)

end Assembly

end PipelinedProcessor
