import PipelinedProcessor.Text.CharacterClass

namespace PipelinedProcessor.Text

-- What is taken for a number where one is expected, in whatever script it is written.
def isNumeral (cs : List Char) : Bool := cs ≠ [] && cs.all isDecimalDigit

-- Only digits of ASCII have a value here, and only below the limit.
def decimal? (limit : Nat) (cs : List Char) : Option Nat :=
  if cs.all Char.isDigit && Nat.ofDigitChars 10 cs 0 < limit then some (Nat.ofDigitChars 10 cs 0)
  else none

def hexDigitValue (c : Char) : Nat :=
  if c.isDigit then c.toNat - '0'.toNat else c.toUpper.toNat - 'A'.toNat + 10

def hexValue (cs : List Char) : Nat := cs.foldl (fun n c => 16 * n + hexDigitValue c) 0

-- The digits after 0x, if that is how the text is written.
def hexDigits? : List Char → Option (List Char)
  | '0' :: x :: cs =>
    if (x = 'x' || x = 'X') && cs ≠ [] && cs.all Char.isHexDigit then some cs else none
  | _ => none

theorem isNumeral_toDigits (n : Nat) : isNumeral (Nat.toDigits 10 n) := by
  have hdigit : ∀ c ∈ Nat.toDigits 10 n, isDecimalDigit c := by
    intro c hc
    have h := Nat.isDigit_of_mem_toDigits (by decide) (by decide) hc
    simp only [Char.isDigit, Bool.and_eq_true, decide_eq_true_eq, ge_iff_le,
      UInt32.le_iff_toNat_le] at h
    simp only [isDecimalDigit, inRanges, decimalDigitRanges, List.any_cons, Bool.or_eq_true,
      Bool.and_eq_true, decide_eq_true_eq]
    exact Or.inl h
  simp only [isNumeral, Bool.and_eq_true, decide_eq_true_eq, List.all_eq_true]
  exact ⟨Nat.toDigits_ne_nil, hdigit⟩

theorem decimal?_toDigits {limit n : Nat} (h : n < limit) :
    decimal? limit (Nat.toDigits 10 n) = some n := by
  have hall : (Nat.toDigits 10 n).all Char.isDigit := by
    simp only [List.all_eq_true]
    exact fun c hc => Nat.isDigit_of_mem_toDigits (by decide) (by decide) hc
  simp [decimal?, hall, Nat.ofDigitChars_toDigits, h]

end PipelinedProcessor.Text
