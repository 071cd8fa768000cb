import Mathlib.Algebra.Ring.Int.Defs
import PipelinedProcessor.Flight.Access

namespace PipelinedProcessor

namespace Word

-- The integer that a word holds in place of another one: the same modulo 2 ^ 32, from -2 ^ 31 on
-- and below 2 ^ 31.
def wrap (n : Int) : Int := n.bmod bound

theorem wrap_spec (n : Int) : wrap n % bound = n % bound ∧ -0x80000000 ≤ wrap n ∧
    wrap n < 0x80000000 :=
  ⟨Int.bmod_emod, Int.le_bmod (by decide), Int.bmod_lt (by decide)⟩

section

variable (a b : Word)

theorem wrap_toInt : wrap a.toInt = a.toInt := BitVec.toInt_bmod_cancel a

theorem wrap_add_left (m n : Int) : wrap (wrap m + n) = wrap (m + n) := Int.bmod_add_bmod

theorem wrap_mul_left (m n : Int) : wrap (wrap m * n) = wrap (m * n) := Int.bmod_mul_bmod

theorem toInt_sdiv_eq_wrap : (a.sdiv b).toInt = wrap (a.toInt.tdiv b.toInt) := BitVec.toInt_sdiv a b

-- How far to shift. The residue is the one that is not negative.
theorem toInt_emod_width : (b.toInt % 32).toNat = b.toNat % 32 := by
  rw [BitVec.toInt_eq_toNat_cond]
  split <;> omega

theorem toInt_shift (n : Nat) : (a <<< n).toInt = wrap (a.toInt * 2 ^ n) := by
  have hmul : ((a.toNat <<< n : Nat) : Int) = a.toNat * 2 ^ n := by
    rw [Nat.shiftLeft_eq]
    push_cast
    rfl
  have hshifted : (a <<< n).toInt = wrap (a.toNat * 2 ^ n) := by
    rw [BitVec.toInt_shiftLeft, hmul]
    rfl
  have ha : a.toInt = wrap a.toNat := BitVec.toInt_eq_toNat_bmod a
  rw [hshifted, ha, wrap_mul_left]

-- The least word is its own negative, which makes its quotient by -1 the one that does not fit.

theorem toInt_sdiv_of_fits (h : ¬ (a.toInt = -0x80000000 ∧ b.toInt = -1)) :
    (a.sdiv b).toInt = a.toInt.tdiv b.toInt := by
  apply BitVec.toInt_sdiv_of_ne_or_ne
  by_cases ha : a = BitVec.intMin 32
  · right
    rintro rfl
    exact h ⟨congrArg BitVec.toInt ha, rfl⟩
  · exact .inl ha

theorem sdiv_of_least {a b : Word} (ha : a.toInt = -0x80000000) (hb : b.toInt = -1) :
    (a.sdiv b).toInt = -0x80000000 ∧ (a.srem b).toInt = 0 := by
  obtain rfl : a = BitVec.intMin 32 := BitVec.toInt_inj.mp ha
  obtain rfl : b = -1#32 := BitVec.toInt_inj.mp hb
  exact ⟨rfl, rfl⟩

theorem natAbs_srem_lt {b : Word} (hb : b ≠ 0) : (a.srem b).toInt.natAbs < b.toInt.natAbs := by
  rw [BitVec.toInt_srem, Int.natAbs_tmod]
  exact Nat.mod_lt _ (Int.natAbs_pos.mpr fun hzero => hb (BitVec.toInt_inj.mp hzero))

theorem sign_srem : (a.srem b).toInt = 0 ∨ (a.srem b).toInt.sign = a.toInt.sign := by
  rw [BitVec.toInt_srem, Int.sign_tmod, ← Int.dvd_iff_tmod_eq_zero]
  by_cases hdvd : b.toInt ∣ a.toInt
  · exact .inl hdvd
  · rw [if_neg hdvd]
    exact .inr rfl

-- The dividend comes back out of quotient and remainder, also where the quotient does not fit.
theorem wrap_sdiv_mul_add_srem :
    wrap ((a.sdiv b).toInt * b.toInt + (a.srem b).toInt) = a.toInt := by
  calc wrap ((a.sdiv b).toInt * b.toInt + (a.srem b).toInt)
      = wrap (wrap (wrap (a.toInt.tdiv b.toInt) * b.toInt) + a.toInt.tmod b.toInt) := by
        rw [toInt_sdiv_eq_wrap, BitVec.toInt_srem, wrap_add_left]
    _ = wrap (a.toInt.tdiv b.toInt * b.toInt + a.toInt.tmod b.toInt) := by
        rw [wrap_mul_left, wrap_add_left]
    _ = wrap a.toInt := by rw [Int.tdiv_mul_add_tmod]
    _ = a.toInt := wrap_toInt a

end

end Word

-- Whether the condition is true of two integers.
def Condition.Compares : Condition → Int → Int → Prop
  | .eq, m, n => m = n
  | .ne, m, n => m ≠ n
  | .gt, m, n => m > n
  | .gte, m, n => m ≥ n
  | .lt, m, n => m < n
  | .lte, m, n => m ≤ n
  | .always, _, _ => True
  | .ret, _, _ => True

theorem Condition.relates_iff (cond : Condition) (a b : Word) :
    cond.relates a b ↔ cond.Compares a.toInt b.toInt := by
  cases cond with
  | eq => simp [relates, Compares, BitVec.toInt_inj]
  | ne => simp [relates, Compares, BitVec.toInt_inj]
  | gt => exact BitVec.slt_iff_toInt_lt
  | gte => exact BitVec.sle_iff_toInt_le
  | lt => exact BitVec.slt_iff_toInt_lt
  | lte => exact BitVec.sle_iff_toInt_le
  | always => simp [relates, Compares]
  | ret => simp [relates, Compares]

namespace Flags

-- As many flags as a word has bits can be told from it.
theorem getLsbD_pack {flags : List Bool} (h : flags.length ≤ 32) (i : Nat) :
    (pack flags).getLsbD i = flags[i]?.getD false := by
  induction flags generalizing i with
  | nil => simp [pack]
  | cons flag rest ih =>
      rw [List.length_cons] at h
      have hrest := ih (by omega)
      cases i with
      | zero => simp [pack]
      | succ i =>
          rw [List.getElem?_cons_succ]
          by_cases hi : i + 1 < 32
          · rw [← hrest, BitVec.getLsbD_eq_getElem (show i < 32 by omega)]
            simp [pack, hi]
          · have hpast : rest[i]? = none := List.getElem?_eq_none (by omega)
            rw [BitVec.getLsbD_of_ge _ _ (by omega), hpast]
            rfl

theorem getLsbD_compare {cond : Condition} (h : cond ∈ Condition.tested) (a b : Word) :
    (pack (compare a b)).getLsbD cond.code = cond.relates a b := by
  have hcode : Condition.tested[cond.code]? = some cond := by
    revert cond
    decide
  have hlength : (compare a b).length ≤ 32 := by simp [compare, Condition.tested]
  rw [getLsbD_pack hlength, compare, List.getElem?_map, hcode]
  rfl

end Flags

-- What a branch depends on after a comparison is only what has been compared.
theorem Registers.holds_compare (registers : Registers) (a b : Word) (cond : Condition) :
    (registers.write Register.flags (Flags.pack (Flags.compare a b))).holds cond ↔
    cond.Compares a.toInt b.toInt := by
  rw [← Condition.relates_iff]
  have hread :
      (registers.write Register.flags (Flags.pack (Flags.compare a b))).read Register.flags =
      Flags.pack (Flags.compare a b) := by
    rw [read_write, if_pos ⟨rfl, by decide⟩]
  by_cases htested : cond ∈ Condition.tested
  · have hflag : cond.flag? = some cond.code := by
      revert cond
      decide
    rw [holds, hflag, Option.all_some, hread, Flags.getLsbD_compare htested]
  · have hflag : cond.flag? = none ∧ cond.relates a b = true := by
      cases cond with
      | always => exact ⟨rfl, rfl⟩
      | ret => exact ⟨rfl, rfl⟩
      | _ => exact absurd (by decide) htested
    rw [holds, hflag.1, hflag.2, Option.all_none]

-- What the operations make of two words, in terms of the integers that the words hold.
structure ExactArithmetic (a b : Word) : Prop where
  error_iff : ∀ op : ScalarOp, op ≠ .setFlag → op ≠ .load → op ≠ .store →
    ((∃ fault, op.apply a b = .error fault) ↔ (op = .divide ∨ op = .modulo) ∧ b = 0)
  add : ∃ w, ScalarOp.add.apply a b = .ok w ∧ w.toInt = Word.wrap (a.toInt + b.toInt)
  subtract : ∃ w, ScalarOp.subtract.apply a b = .ok w ∧ w.toInt = Word.wrap (a.toInt - b.toInt)
  multiply : ∃ w, ScalarOp.multiply.apply a b = .ok w ∧ w.toInt = Word.wrap (a.toInt * b.toInt)
  -- The quotient is rounded towards zero. Only one does not fit into a word.
  divide : b ≠ 0 → ∃ q r, ScalarOp.divide.apply a b = .ok q ∧ ScalarOp.modulo.apply a b = .ok r ∧
    Word.wrap (q.toInt * b.toInt + r.toInt) = a.toInt ∧ r.toInt.natAbs < b.toInt.natAbs ∧
    (r.toInt = 0 ∨ r.toInt.sign = a.toInt.sign) ∧
    (¬ (a.toInt = -0x80000000 ∧ b.toInt = -1) → q.toInt = a.toInt.tdiv b.toInt) ∧
    (a.toInt = -0x80000000 ∧ b.toInt = -1 → q.toInt = -0x80000000 ∧ r.toInt = 0)
  shift : ∃ w, ScalarOp.shift.apply a b = .ok w ∧
    w.toInt = Word.wrap (a.toInt * 2 ^ (b.toInt % 32).toNat)
  -- A comparison writes the flags only, and those are what a branch asks for.
  compare : ∃ w, ScalarOp.compare.apply a b = .ok w ∧
    (∀ rd swapped flags, ScalarOp.compare.results rd swapped flags a b =
      .ok [.scalar Register.flags w]) ∧
    ∀ (registers : Registers) (cond : Condition),
      (registers.write Register.flags w).holds cond ↔ cond.Compares a.toInt b.toInt
  -- The operations on vectors are those of the same names.
  vector : ∀ op : VectorOp, op.isAlu →
    ∃ scalar : ScalarOp, scalar.name = op.name ∧ op.apply a b = scalar.apply a b

theorem ScalarOp.apply_error_iff (op : ScalarOp) (a b : Word) (hset : op ≠ .setFlag)
    (hload : op ≠ .load) (hstore : op ≠ .store) : (∃ fault, op.apply a b = .error fault) ↔
    (op = .divide ∨ op = .modulo) ∧ b = 0 := by
  by_cases hb : b = 0
  · cases op <;> simp_all [apply]
  · cases op <;> simp_all [apply]

-- For every two words, however they overflow.
theorem arithmetic_exact (a b : Word) : ExactArithmetic a b where
  error_iff op := op.apply_error_iff a b
  add := ⟨a + b, rfl, BitVec.toInt_add a b⟩
  subtract := ⟨a - b, rfl, BitVec.toInt_sub⟩
  multiply := ⟨a * b, rfl, BitVec.toInt_mul a b⟩
  divide hb := ⟨a.sdiv b, a.srem b, if_neg hb, if_neg hb, Word.wrap_sdiv_mul_add_srem a b,
    Word.natAbs_srem_lt a hb,
    Word.sign_srem a b, Word.toInt_sdiv_of_fits a b, fun h => Word.sdiv_of_least h.1 h.2⟩
  shift := by
    refine ⟨a <<< (b.toNat % 32), rfl, ?_⟩
    rw [Word.toInt_shift, Word.toInt_emod_width]
  compare := ⟨Flags.pack (Flags.compare a b), rfl, fun _ _ _ => rfl,
    fun registers => registers.holds_compare a b⟩
  vector op halu := by
    cases op with
    | add => exact ⟨.add, rfl, rfl⟩
    | subtract => exact ⟨.subtract, rfl, rfl⟩
    | multiply => exact ⟨.multiply, rfl, rfl⟩
    | divide => exact ⟨.divide, rfl, rfl⟩
    | append => exact absurd halu (by decide)
    | load => exact absurd halu (by decide)
    | store => exact absurd halu (by decide)

end PipelinedProcessor
