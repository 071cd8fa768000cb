import PipelinedProcessor.Proofs.Assembly.Tokens
import PipelinedProcessor.Proofs.Result

namespace PipelinedProcessor

namespace Text

theorem toUpper_of_not_isLower {c : Char} (h : ¬ ('a'.val ≤ c.val ∧ c.val ≤ 'z'.val)) :
    c.toUpper = c := by
  delta Char.toUpper
  rw [dif_neg h]

theorem toUpper_of_isDigit {c : Char} (h : c.isDigit) : c.toUpper = c := by
  simp only [Char.isDigit, Bool.and_eq_true, decide_eq_true_eq] at h
  exact toUpper_of_not_isLower fun hlower => absurd (UInt32.le_trans hlower.1 h.2) (by decide)

theorem toUpper_toUpper (c : Char) : c.toUpper.toUpper = c.toUpper := by
  by_cases h : 'a'.val ≤ c.val ∧ c.val ≤ 'z'.val
  · have hval : c.toUpper.val = c.val + ('A'.val - 'a'.val) := by
      delta Char.toUpper
      rw [dif_pos h]
    apply toUpper_of_not_isLower
    rw [hval]
    simp [UInt32.le_iff_toNat_le] at h ⊢
    omega
  · rw [toUpper_of_not_isLower h, toUpper_of_not_isLower h]

theorem upper_upper (text : String) : upper (upper text) = upper text := by
  simp only [upper, String.toList_ofList, List.map_map, Function.comp_def, toUpper_toUpper]

-- Decimal digits are not taken for hexadecimal ones, since no letter is among them.
theorem hexDigits?_toDigits (n : Nat) : hexDigits? (Nat.toDigits 10 n) = none := by
  have hdigit (c : Char) (hc : c ∈ Nat.toDigits 10 n) : c.isDigit := isDigit_of_mem_toDigits hc
  generalize Nat.toDigits 10 n = cs at hdigit
  unfold hexDigits?
  split
  · rename_i x rest
    have hx : x.isDigit := hdigit x (by simp)
    rw [if_neg]
    rintro h
    simp only [Bool.and_eq_true, Bool.or_eq_true, decide_eq_true_eq] at h
    obtain ⟨⟨rfl | rfl, -⟩, -⟩ := h <;> exact absurd hx (by decide)
  · rfl

end Text

namespace Assembly.Operand

open Instruction

-- A register that is named exists.
def InRange : Operand → Prop
  | scalar number => number < Register.count
  | indirect number => number < Register.count
  | vector number => number < Register.count
  | immediate _ => True
  | label _ => True

theorem lt_of_registerNumber {token : String} {digits : List Char} {number : Nat}
    (h : registerNumber token digits = .ok number) : number < Register.count := by
  unfold registerNumber at h
  split at h
  · cases h
  · split at h
    · cases h
      assumption
    · cases h

theorem inRange_of_read {labels : Labels} {token : String} {operand : Operand}
    (h : read labels token = .ok operand) : operand.InRange := by
  unfold read at h
  simp only at h
  split at h
  · obtain ⟨number, hnumber, rfl⟩ := ok_of_map h
    exact lt_of_registerNumber hnumber
  split at h
  · obtain ⟨number, hnumber, rfl⟩ := ok_of_map h
    exact lt_of_registerNumber hnumber
  split at h
  · obtain ⟨number, hnumber, rfl⟩ := ok_of_map h
    exact lt_of_registerNumber hnumber
  split at h
  · cases h
    trivial
  · cases h
  · split at h
    · cases h
      trivial
    · cases h

-- The tokens that instructions are shown with are read back.

theorem registerNumber_toDigits (token : String) {number : Nat} (h : number < Register.count) :
    registerNumber token (Nat.toDigits 10 number) = .ok number := by
  have hbound : number < unsignedBound := Nat.lt_trans h (by decide)
  rw [registerNumber, Text.decimal?_toDigits hbound]
  simp [h]

theorem numbered?_toDigits {letter c : Char} (hc : c.toUpper = letter) (number : Nat) :
    numbered? letter (c :: Nat.toDigits 10 number) = some (Nat.toDigits 10 number) := by
  simp [numbered?, hc, Text.isNumeral_toDigits]

theorem numbered?_of_ne {letter c : Char} (hc : c.toUpper ≠ letter) (digits : List Char) :
    numbered? letter (c :: digits) = none := by
  simp [numbered?, hc]

theorem enclosed?_append (cs : List Char) : enclosed? ('[' :: (cs ++ [']'])) = some cs := by
  simp [enclosed?]

theorem enclosed?_of_ne {c : Char} (hc : c ≠ '[') (cs : List Char) :
    enclosed? (c :: cs) = none := by
  unfold enclosed?
  split
  · rename_i heq
    exact absurd (List.cons.inj heq).1 hc
  · rfl

theorem read_registerToken (labels : Labels) {number : Nat} (h : number < Register.count) :
    read labels (registerToken number) = .ok (scalar number) := by
  have htoken : (registerToken number).toList = 'R' :: Nat.toDigits 10 number := by
    simp [registerToken]
  simp only [read, htoken, numbered?_toDigits (show 'R'.toUpper = 'R' by decide),
    registerNumber_toDigits _ h, Except.map]

theorem read_derefToken (labels : Labels) {number : Nat} (h : number < Register.count) :
    read labels (derefToken number) = .ok (indirect number) := by
  have htoken : (derefToken number).toList = '[' :: (('R' :: Nat.toDigits 10 number) ++ [']']) := by
    simp [derefToken]
  simp only [read, htoken, numbered?_of_ne (show '['.toUpper ≠ 'R' by decide),
    enclosed?_append, Option.bind_some, numbered?_toDigits (show 'R'.toUpper = 'R' by decide),
    registerNumber_toDigits _ h, Except.map]

theorem read_vectorToken (labels : Labels) {number : Nat} (h : number < Register.count) :
    read labels (vectorToken number) = .ok (vector number) := by
  have htoken : (vectorToken number).toList = 'V' :: Nat.toDigits 10 number := by simp [vectorToken]
  simp only [read, htoken, numbered?_of_ne (show 'V'.toUpper ≠ 'R' by decide),
    enclosed?_of_ne (show 'V' ≠ '[' by decide), Option.bind_none,
    numbered?_toDigits (show 'V'.toUpper = 'V' by decide), registerNumber_toDigits _ h, Except.map]

theorem magnitude?_toDigits {n : Nat} (h : n < signedBound) :
    magnitude? (Nat.toDigits 10 n) = some (some n) := by
  simp [magnitude?, Text.hexDigits?_toDigits, Text.isNumeral_toDigits, Text.decimal?_toDigits h]

-- A number starts with a digit or a minus, which no register does.
theorem read_of_number? {labels : Labels} {token : String} {c : Char} {cs : List Char} {value : Int}
    (htoken : token.toList = c :: cs) (hc : c.isDigit ∨ c = '-')
    (hnumber : number? (c :: cs) = some (some value)) :
    read labels token = .ok (immediate value) := by
  have hupper : c.toUpper = c := hc.elim Text.toUpper_of_isDigit fun h => by subst h; decide
  have hne (letter : Char) (hletter : ¬ (letter.isDigit ∨ letter = '-')) : c ≠ letter :=
    fun h => hletter (h ▸ hc)
  have hscalar : c.toUpper ≠ 'R' := hupper.symm ▸ hne 'R' (by decide)
  have hvector : c.toUpper ≠ 'V' := hupper.symm ▸ hne 'V' (by decide)
  simp only [read, htoken, numbered?_of_ne hscalar, enclosed?_of_ne (hne '[' (by decide)),
    Option.bind_none, numbered?_of_ne hvector, hnumber]

theorem read_repr_nat (labels : Labels) {n : Nat} (h : n < signedBound) :
    read labels n.repr = .ok (immediate n) := by
  obtain ⟨c, cs, hcs⟩ := List.exists_cons_of_ne_nil (Nat.toDigits_ne_nil (b := 10) (n := n))
  have hc : c.isDigit := Text.isDigit_of_mem_toDigits (hcs ▸ List.mem_cons_self)
  have hminus : c ≠ '-' := by
    rintro rfl
    exact absurd hc (by decide)
  refine read_of_number? (by rw [Nat.toList_repr, hcs]) (.inl hc) ?_
  rw [number?, ← hcs, magnitude?_toDigits h]
  · rfl
  · rintro rest heq
    exact hminus (List.cons.inj heq).1

theorem read_repr (labels : Labels) {value : Int} (h : value.natAbs < signedBound) :
    read labels value.repr = .ok (immediate value) := by
  rw [Int.repr_eq_if]
  split
  case isTrue hnonneg =>
    rw [read_repr_nat labels (by omega), Int.toNat_of_nonneg hnonneg]
  case isFalse hneg =>
    have hvalue : -(((-value).toNat : Nat) : Int) = value := by omega
    have htoken : ("-" ++ (-value).toNat.repr).toList = '-' :: Nat.toDigits 10 (-value).toNat := by
      simp
    have hlt : (-value).toNat < signedBound := by omega
    refine read_of_number? htoken (.inr rfl) ?_
    rw [number?, magnitude?_toDigits hlt, Option.map_some]
    exact congrArg (some ∘ some) hvalue

end Assembly.Operand

end PipelinedProcessor
