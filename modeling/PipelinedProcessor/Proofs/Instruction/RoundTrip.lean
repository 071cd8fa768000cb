import PipelinedProcessor.Instruction.Encoding
import Mathlib.Tactic.Common

namespace PipelinedProcessor

-- A field as a digit of the word, between the weights of its lowest bit and of the bit after its
-- highest.
theorem Word.field_eq (w : Word) {low width : Nat} (weight size : Nat)
    (hweight : 1 <<< low = weight) (hsize : 1 <<< width = size) :
    w.field low width = w.toNat / weight % size := by
  subst hweight hsize
  rw [field, BitVec.extractLsb'_toNat, Nat.shiftRight_eq_div_pow, Nat.one_shiftLeft,
    Nat.one_shiftLeft]

-- A field among the lowest fifteen bits does not depend on those above.
theorem Word.field_eq_of_low (w : Word) {low width : Nat} (weight size : Nat)
    (hweight : 1 <<< low = weight) (hsize : 1 <<< width = size) (hfits : weight * size ∣ 0x8000) :
    w.field low width = w.toNat % 0x8000 / weight % size := by
  obtain ⟨rest, hrest⟩ := hfits
  rw [w.field_eq weight size hweight hsize, hrest, Nat.mul_assoc, Nat.mod_mul_right_div_self,
    Nat.mod_mul_right_mod]

namespace Instruction

-- An operation has to be one of those that its form of instruction has. A word that stands for
-- nothing has no operation.
def HasLegalOp : Instruction → Prop
  | scalar _ _ op _ _ _ => op.isAlu
  | scalarImmediate _ op _ _ _ => op.isAlu
  | transfer op _ _ => op.isMemory
  | transferImmediate op _ _ => op.isMemory
  | branch _ _ _ => True
  | vectorTransfer op _ _ _ => op.isMemory
  | vector _ op _ _ _ _ => op.isAlu
  | vectorImmediate _ op _ _ _ _ => op.isAlu
  | halt => True
  | invalid _ => False

-- All fields fit into their places.
def InRange : Instruction → Prop
  | scalar _ cond _ rd r1 r2 => cond < 0x10 ∧ rd < 0x10 ∧ r1 < 0x10 ∧ r2 < 0x10
  | scalarImmediate _ _ rd r1 immediate => rd < 0x10 ∧ r1 < 0x10 ∧ immediate < 0x100
  | transfer _ rd r1 => rd < 0x10 ∧ r1 < 0x10
  | transferImmediate _ rd immediate => rd < 0x10 ∧ immediate < 0x1000
  | branch _ _ offset => offset.natAbs < 0x400000
  | vectorTransfer _ vd r1 length => vd < 0x10 ∧ r1 < 0x10 ∧ length < 0x20
  | vector cond _ vd v1 v2 length => cond < 0x10 ∧ vd < 0x10 ∧ v1 < 0x10 ∧ v2 < 0x10 ∧ length < 0x20
  | vectorImmediate cond _ vd v1 immediate length =>
    cond < 0x10 ∧ vd < 0x10 ∧ v1 < 0x10 ∧ immediate < 0x20 ∧ length < 0x20
  | halt => True
  | invalid _ => True

-- What is left of an instruction if every field keeps only the bits that it has a place for. An
-- offset keeps its sign.
def reduced : Instruction → Instruction
  | scalar operands cond op rd r1 r2 =>
    scalar operands (clip 0x10 cond) op (clip 0x10 rd) (clip 0x10 r1) (clip 0x10 r2)
  | scalarImmediate indirect op rd r1 immediate =>
    scalarImmediate indirect op (clip 0x10 rd) (clip 0x10 r1) (clip 0x100 immediate)
  | transfer op rd r1 => transfer op (clip 0x10 rd) (clip 0x10 r1)
  | transferImmediate op rd immediate => transferImmediate op (clip 0x10 rd) (clip 0x1000 immediate)
  | branch cond link offset => branch cond link (offset.sign * (offset.natAbs % 0x400000 : Nat))
  | vectorTransfer op vd r1 length =>
    vectorTransfer op (clip 0x10 vd) (clip 0x10 r1) (clip 0x20 length)
  | vector cond op vd v1 v2 length =>
    vector (clip 0x10 cond) op (clip 0x10 vd) (clip 0x10 v1) (clip 0x10 v2) (clip 0x20 length)
  | vectorImmediate cond op vd v1 immediate length =>
    vectorImmediate (clip 0x10 cond) op (clip 0x10 vd) (clip 0x10 v1) (clip 0x20 immediate)
      (clip 0x20 length)
  | halt => halt
  | invalid raw => invalid raw

theorem reduced_of_inRange {instr : Instruction} (h : instr.InRange) : instr.reduced = instr := by
  cases instr with
  | scalar operands cond op rd r1 r2 =>
      obtain ⟨hcond, hrd, hr1, hr2⟩ := h
      simp [reduced, clip_of_lt, Word.bound, hcond, hrd, hr1, hr2]
  | scalarImmediate indirect op rd r1 immediate =>
      obtain ⟨hrd, hr1, himmediate⟩ := h
      simp [reduced, clip_of_lt, Word.bound, hrd, hr1, himmediate]
  | transfer op rd r1 => simp [reduced, clip_of_lt, Word.bound, h.1, h.2]
  | transferImmediate op rd immediate => simp [reduced, clip_of_lt, Word.bound, h.1, h.2]
  | branch cond link offset =>
      rw [reduced, Nat.mod_eq_of_lt h, Int.sign_mul_natAbs]
  | vectorTransfer op vd r1 length =>
      obtain ⟨hvd, hr1, hlength⟩ := h
      simp [reduced, clip_of_lt, Word.bound, hvd, hr1, hlength]
  | vector cond op vd v1 v2 length =>
      obtain ⟨hcond, hvd, hv1, hv2, hlength⟩ := h
      simp [reduced, clip_of_lt, Word.bound, hcond, hvd, hv1, hv2, hlength]
  | vectorImmediate cond op vd v1 immediate length =>
      obtain ⟨hcond, hvd, hv1, himmediate, hlength⟩ := h
      simp [reduced, clip_of_lt, Word.bound, hcond, hvd, hv1, himmediate, hlength]
  | halt => rfl
  | invalid raw => rfl

-- Decoding.

theorem ofWord_of_kind {w : Word} {kind : Nat} {instr : Instruction} (hkind : w.kind = kind)
    (h : ofKind? w kind = some instr) : ofWord w = instr := by
  have hne : w ≠ Word.halt := by
    rintro rfl
    subst hkind
    cases h
  rw [ofWord, if_neg hne, hkind, h, Option.getD_some]

theorem legalScalar?_eq {w : Word} {op : ScalarOp} {legal : ScalarOp → Bool}
    (hcode : w.field 20 4 = op.code) (hlegal : legal op = true) :
    legalScalar? w legal = some op := by
  simp [legalScalar?, hcode, ScalarOp.ofCode?_code, hlegal]

theorem legalVector?_eq {w : Word} {op : VectorOp} {legal : VectorOp → Bool}
    (hcode : w.field 20 4 = op.code) (hlegal : legal op = true) :
    legalVector? w legal = some op := by
  simp [legalVector?, hcode, VectorOp.ofCode?_code, hlegal]

-- What all instructions but branches have in common: the condition, the kind and the operation on
-- top, then the destination, and fifteen bits below that every kind divides in its own way.
structure Packed (w : Word) (cond kind code rd low : Nat) : Prop where
  kind_eq : w.kind = kind
  code_eq : w.field 20 4 = code
  cond_eq : w.field 28 4 = clip 0x10 cond
  rd_eq : w.field 15 4 = clip 0x10 rd
  low_eq : w.toNat % 0x8000 = low

theorem packed_ofNat {cond kind code rd low n : Nat} (hkind : kind < 0x10) (hcode : code < 0x10)
    (hlow : low < 0x8000) (hn : n = header cond kind code + rdField rd + low) :
    Packed (BitVec.ofNat 32 n) cond kind code rd low := by
  have hcond := clip_lt (show 0 < 0x10 by decide) cond
  have hrd := clip_lt (show 0 < 0x10 by decide) rd
  simp only [header, rdField] at hn
  have hw : (BitVec.ofNat 32 n).toNat = n := by
    rw [BitVec.toNat_ofNat]
    omega
  refine ⟨?_, ?_, ?_, ?_, ?_⟩
  · rw [Word.kind, Word.field_eq _ 0x1000000 0x10 rfl rfl, hw]
    omega
  · rw [Word.field_eq _ 0x100000 0x10 rfl rfl, hw]
    omega
  · rw [Word.field_eq _ 0x10000000 0x10 rfl rfl, hw]
    omega
  · rw [Word.field_eq _ 0x8000 0x10 rfl rfl, hw]
    omega
  · rw [hw]
    omega

section

variable {w : Word} {cond kind code rd low : Nat}

theorem Packed.field_eq (h : Packed w cond kind code rd low) {place width : Nat}
    (weight size : Nat) (hweight : 1 <<< place = weight) (hsize : 1 <<< width = size)
    (hfits : weight * size ∣ 0x8000) : w.field place width = low / weight % size := by
  rw [w.field_eq_of_low weight size hweight hsize hfits, h.low_eq]

theorem Packed.r1_eq {r1 rest : Nat} (h : Packed w cond kind code rd (r1Field r1 + rest))
    (hrest : rest < 0x800) :
    w.field 11 4 = clip 0x10 r1 := by
  have hr1 := clip_lt (show 0 < 0x10 by decide) r1
  rw [h.field_eq 0x800 0x10 rfl rfl (by decide), r1Field]
  omega

theorem Packed.r2_eq {r1 r2 rest : Nat}
    (h : Packed w cond kind code rd (r1Field r1 + (r2Field r2 + rest))) (hrest : rest < 0x80) :
    w.field 7 4 = clip 0x10 r2 := by
  have hr2 := clip_lt (show 0 < 0x10 by decide) r2
  rw [h.field_eq 0x80 0x10 rfl rfl (by decide), r1Field, r2Field]
  omega

end

-- One form of instruction after the other. The fields of each are read back from where it has them.

theorem ofWord_encode_scalar (operands : Operands) (cond : Nat) {op : ScalarOp}
    (hop : op.isAlu = true) (rd r1 r2 : Nat) :
    ofWord (encode (scalar operands cond op rd r1 r2)) =
      reduced (scalar operands cond op rd r1 r2) := by
  have hcode := op.code_lt
  have hr1 := clip_lt (show 0 < 0x10 by decide) r1
  have hr2 := clip_lt (show 0 < 0x10 by decide) r2
  have hpacked : Packed (encode (scalar operands cond op rd r1 r2)) cond operands.kind op.code rd
      (r1Field r1 + (r2Field r2 + 0)) := by
    refine packed_ofNat ?_ (by omega) ?_ ?_
    · cases operands <;> decide
    · rw [r1Field, r2Field]
      omega
    · rw [encodeNat]
      omega
  have hform (w : Word) : ofKind? w operands.kind = (legalScalar? w ScalarOp.isAlu).map
      (scalar operands (w.field 28 4) · (w.field 15 4) (w.field 11 4) (w.field 7 4)) := by
    cases operands <;> rfl
  refine ofWord_of_kind hpacked.kind_eq ?_
  rw [hform, legalScalar?_eq hpacked.code_eq hop, Option.map_some, hpacked.cond_eq, hpacked.rd_eq,
    hpacked.r1_eq (by rw [r2Field]; omega), hpacked.r2_eq (by decide)]
  rfl

theorem ofWord_encode_scalarImmediate (indirect : Bool) {op : ScalarOp} (hop : op.isAlu = true)
    (rd r1 immediate : Nat) :
    ofWord (encode (scalarImmediate indirect op rd r1 immediate)) =
      reduced (scalarImmediate indirect op rd r1 immediate) := by
  have hcode := op.code_lt
  have hr1 := clip_lt (show 0 < 0x10 by decide) r1
  have himmediate := clip_lt (show 0 < 0x100 by decide) immediate
  have hpacked : Packed (encode (scalarImmediate indirect op rd r1 immediate)) 0 (if indirect
      then 4 else 3) op.code rd (r1Field r1 + clip 0x100 immediate * 0x8) := by
    refine packed_ofNat ?_ (by omega) ?_ ?_
    · cases indirect <;> decide
    · rw [r1Field]
      omega
    · rw [encodeNat]
      omega
  have hform (w : Word) :
      ofKind? w (if indirect then 4 else 3) = (legalScalar? w ScalarOp.isAlu).map
      (scalarImmediate indirect · (w.field 15 4) (w.field 11 4) (w.field 3 8)) := by
    cases indirect <;> rfl
  have hfield : (encode (scalarImmediate indirect op rd r1 immediate)).field 3 8 =
      clip 0x100 immediate := by
    rw [hpacked.field_eq 0x8 0x100 rfl rfl (by decide), r1Field]
    omega
  refine ofWord_of_kind hpacked.kind_eq ?_
  rw [hform, legalScalar?_eq hpacked.code_eq hop, Option.map_some, hpacked.rd_eq,
    hpacked.r1_eq (by omega), hfield]
  rfl

theorem ofWord_encode_transfer {op : ScalarOp} (hop : op.isMemory = true) (rd r1 : Nat) :
    ofWord (encode (transfer op rd r1)) = reduced (transfer op rd r1) := by
  have hcode := op.code_lt
  have hr1 := clip_lt (show 0 < 0x10 by decide) r1
  have hpacked : Packed (encode (transfer op rd r1)) 0 5 op.code rd (r1Field r1 + 0) := by
    refine packed_ofNat (by decide) (by omega) ?_ ?_
    · rw [r1Field]
      omega
    · rw [encodeNat]
      omega
  refine ofWord_of_kind hpacked.kind_eq ?_
  simp only [ofKind?, legalScalar?_eq hpacked.code_eq hop, Option.map_some, hpacked.rd_eq,
    hpacked.r1_eq (by decide)]
  rfl

theorem ofWord_encode_transferImmediate {op : ScalarOp} (hop : op.isMemory = true)
    (rd immediate : Nat) :
    ofWord (encode (transferImmediate op rd immediate)) =
      reduced (transferImmediate op rd immediate) := by
  have hcode := op.code_lt
  have himmediate := clip_lt (show 0 < 0x1000 by decide) immediate
  have hpacked :
      Packed (encode (transferImmediate op rd immediate)) 0 6 op.code rd
        (clip 0x1000 immediate * 0x8) :=
    packed_ofNat (by decide) (by omega) (by omega) rfl
  have hfield : (encode (transferImmediate op rd immediate)).field 3 12 =
      clip 0x1000 immediate := by
    rw [hpacked.field_eq 0x8 0x1000 rfl rfl (by decide)]
    omega
  refine ofWord_of_kind hpacked.kind_eq ?_
  simp only [ofKind?, legalScalar?_eq hpacked.code_eq hop, Option.map_some, hpacked.rd_eq, hfield]
  rfl

theorem ofWord_encode_vectorTransfer {op : VectorOp} (hop : op.isMemory = true)
    (vd r1 length : Nat) :
    ofWord (encode (vectorTransfer op vd r1 length)) =
      reduced (vectorTransfer op vd r1 length) := by
  have hcode := op.code_lt
  have hr1 := clip_lt (show 0 < 0x10 by decide) r1
  have hlength := clip_lt (show 0 < 0x20 by decide) length
  have hpacked : Packed (encode (vectorTransfer op vd r1 length)) 0 8 op.code vd
      (r1Field r1 + clip 0x20 length * 0x40) := by
    refine packed_ofNat (by decide) (by omega) ?_ ?_
    · rw [r1Field]
      omega
    · rw [encodeNat]
      omega
  have hfield : (encode (vectorTransfer op vd r1 length)).field 6 5 = clip 0x20 length := by
    rw [hpacked.field_eq 0x40 0x20 rfl rfl (by decide), r1Field]
    omega
  refine ofWord_of_kind hpacked.kind_eq ?_
  simp only [ofKind?, legalVector?_eq hpacked.code_eq hop, Option.map_some, hpacked.rd_eq,
    hpacked.r1_eq (show clip 0x20 length * 0x40 < 0x800 by omega), hfield]
  rfl

theorem ofWord_encode_vector (cond : Nat) {op : VectorOp} (hop : op.isAlu = true)
    (vd v1 v2 length : Nat) :
    ofWord (encode (vector cond op vd v1 v2 length)) =
      reduced (vector cond op vd v1 v2 length) := by
  have hcode := op.code_lt
  have hv1 := clip_lt (show 0 < 0x10 by decide) v1
  have hv2 := clip_lt (show 0 < 0x10 by decide) v2
  have hlength := clip_lt (show 0 < 0x20 by decide) length
  have hrest : r2Field v2 + clip 0x20 length * 0x4 < 0x800 := by
    rw [r2Field]
    omega
  have hpacked : Packed (encode (vector cond op vd v1 v2 length)) cond 9 op.code vd
      (r1Field v1 + (r2Field v2 + clip 0x20 length * 0x4)) := by
    refine packed_ofNat (by decide) (by omega) ?_ ?_
    · rw [r1Field]
      omega
    · rw [encodeNat]
      omega
  have hfield : (encode (vector cond op vd v1 v2 length)).field 2 5 = clip 0x20 length := by
    rw [hpacked.field_eq 0x4 0x20 rfl rfl (by decide), r1Field, r2Field]
    omega
  refine ofWord_of_kind hpacked.kind_eq ?_
  simp only [ofKind?, legalVector?_eq hpacked.code_eq hop, Option.map_some,
    hpacked.cond_eq, hpacked.rd_eq, hpacked.r1_eq hrest,
    hpacked.r2_eq (show clip 0x20 length * 0x4 < 0x80 by omega), hfield]
  rfl

theorem ofWord_encode_vectorImmediate (cond : Nat) {op : VectorOp} (hop : op.isAlu = true)
    (vd v1 immediate length : Nat) :
    ofWord (encode (vectorImmediate cond op vd v1 immediate length)) =
      reduced (vectorImmediate cond op vd v1 immediate length) := by
  have hcode := op.code_lt
  have hv1 := clip_lt (show 0 < 0x10 by decide) v1
  have himmediate := clip_lt (show 0 < 0x20 by decide) immediate
  have hlength := clip_lt (show 0 < 0x20 by decide) length
  have hpacked : Packed (encode (vectorImmediate cond op vd v1 immediate length)) cond 10 op.code vd
      (r1Field v1 + (clip 0x20 immediate * 0x20 + clip 0x20 length)) := by
    refine packed_ofNat (by decide) (by omega) ?_ ?_
    · rw [r1Field]
      omega
    · rw [encodeNat]
      omega
  have hfield : (encode (vectorImmediate cond op vd v1 immediate length)).field 5 5 =
      clip 0x20 immediate := by
    rw [hpacked.field_eq 0x20 0x20 rfl rfl (by decide), r1Field]
    omega
  have hfield' : (encode (vectorImmediate cond op vd v1 immediate length)).field 0 5 =
      clip 0x20 length := by
    rw [hpacked.field_eq 0x1 0x20 rfl rfl (by decide), r1Field]
    omega
  refine ofWord_of_kind hpacked.kind_eq ?_
  simp only [ofKind?, legalVector?_eq hpacked.code_eq hop, Option.map_some,
    hpacked.cond_eq, hpacked.rd_eq,
    hpacked.r1_eq (show clip 0x20 immediate * 0x20 + clip 0x20 length < 0x800 by omega),
    hfield, hfield']
  rfl

-- In a branch the link and the sign stand where the others have their operation.
theorem ofWord_encode_branch (cond : Condition) (link : Bool) (offset : Int) :
    ofWord (encode (branch cond link offset)) = reduced (branch cond link offset) := by
  have hcond : clip 0x10 cond.code = cond.code :=
    clip_of_lt (Nat.lt_trans cond.code_lt (by decide)) (by decide)
  have hcode := cond.code_lt
  have hlink := link.toNat_le
  have hsign := (decide (offset < 0)).toNat_le
  have hlt := Nat.mod_lt offset.natAbs (show 0 < 0x400000 by decide)
  have hw : (encode (branch cond link offset)).toNat = cond.code * 0x10000000 + 7 * 0x1000000 +
      link.toNat * 0x800000 + (decide (offset < 0)).toNat * 0x400000 +
        offset.natAbs % 0x400000 := by
    rw [encode, BitVec.toNat_ofNat, encodeNat, header, hcond, Word.branchKind]
    omega
  have hkind : (encode (branch cond link offset)).kind = 7 := by
    rw [Word.kind, Word.field_eq _ 0x1000000 0x10 rfl rfl, hw]
    omega
  have hcondition : (encode (branch cond link offset)).field 28 4 = cond.code := by
    rw [Word.field_eq _ 0x10000000 0x10 rfl rfl, hw]
    omega
  have hlinked : (encode (branch cond link offset)).field 23 1 = link.toNat := by
    rw [Word.field_eq _ 0x800000 0x2 rfl rfl, hw]
    omega
  have hnegative : (encode (branch cond link offset)).field 22 1 = (decide (offset < 0)).toNat := by
    rw [Word.field_eq _ 0x400000 0x2 rfl rfl, hw]
    omega
  have hmagnitude : (encode (branch cond link offset)).field 0 22 = offset.natAbs % 0x400000 := by
    rw [Word.field_eq _ 0x1 0x400000 rfl rfl, hw]
    omega
  have hoffset : branchOffset (encode (branch cond link offset)) =
      offset.sign * (offset.natAbs % 0x400000 : Nat) := by
    rw [branchOffset, hnegative, hmagnitude]
    rcases Int.lt_trichotomy offset 0 with hneg | rfl | hpos
    · simp [hneg, Int.sign_eq_neg_one_of_neg hneg]
    · rfl
    · simp [Int.not_lt.mpr (Int.le_of_lt hpos), Int.sign_eq_one_of_pos hpos]
  refine ofWord_of_kind hkind ?_
  simp only [ofKind?, hcondition, Condition.ofCode?_code, Option.map_some, hlinked, hoffset]
  cases link <;> rfl

theorem ofWord_encode {instr : Instruction} (h : instr.HasLegalOp) :
    ofWord instr.encode = instr.reduced := by
  cases instr with
  | scalar operands cond op rd r1 r2 => exact ofWord_encode_scalar operands cond h rd r1 r2
  | scalarImmediate indirect op rd r1 immediate =>
      exact ofWord_encode_scalarImmediate indirect h rd r1 immediate
  | transfer op rd r1 => exact ofWord_encode_transfer h rd r1
  | transferImmediate op rd immediate => exact ofWord_encode_transferImmediate h rd immediate
  | branch cond link offset => exact ofWord_encode_branch cond link offset
  | vectorTransfer op vd r1 length => exact ofWord_encode_vectorTransfer h vd r1 length
  | vector cond op vd v1 v2 length => exact ofWord_encode_vector cond h vd v1 v2 length
  | vectorImmediate cond op vd v1 immediate length =>
      exact ofWord_encode_vectorImmediate cond h vd v1 immediate length
  | halt => rfl
  | invalid raw => exact h.elim

-- What a word can stand for.

theorem isLegal_of_legalScalar? {w : Word} {legal : ScalarOp → Bool} {op : ScalarOp}
    (h : legalScalar? w legal = some op) : legal op = true := (Option.filter_eq_some_iff.mp h).2

theorem isLegal_of_legalVector? {w : Word} {legal : VectorOp → Bool} {op : VectorOp}
    (h : legalVector? w legal = some op) : legal op = true := (Option.filter_eq_some_iff.mp h).2

theorem natAbs_branchOffset_lt (w : Word) : (branchOffset w).natAbs < 0x400000 := by
  have hlt := w.field_lt 0 22
  unfold branchOffset
  split <;> omega

theorem wellFormed_of_ofKind? {w : Word} {kind : Nat} {instr : Instruction}
    (h : ofKind? w kind = some instr) :
    instr.InRange ∧ instr.HasLegalOp := by
  have hcond : w.field 28 4 < 0x10 := w.field_lt 28 4
  have hrd : w.field 15 4 < 0x10 := w.field_lt 15 4
  have hr1 : w.field 11 4 < 0x10 := w.field_lt 11 4
  have hr2 : w.field 7 4 < 0x10 := w.field_lt 7 4
  unfold ofKind? at h
  split at h
  case h_12 => cases h
  case h_8 =>
    obtain ⟨cond, -, rfl⟩ := Option.map_eq_some_iff.mp h
    exact ⟨natAbs_branchOffset_lt w, trivial⟩
  all_goals obtain ⟨op, hop, rfl⟩ := Option.map_eq_some_iff.mp h
  case h_1 | h_2 | h_3 => exact ⟨⟨hcond, hrd, hr1, hr2⟩, isLegal_of_legalScalar? hop⟩
  case h_4 | h_5 => exact ⟨⟨hrd, hr1, w.field_lt 3 8⟩, isLegal_of_legalScalar? hop⟩
  case h_6 => exact ⟨⟨hrd, hr1⟩, isLegal_of_legalScalar? hop⟩
  case h_7 => exact ⟨⟨hrd, w.field_lt 3 12⟩, isLegal_of_legalScalar? hop⟩
  case h_9 => exact ⟨⟨hrd, hr1, w.field_lt 6 5⟩, isLegal_of_legalVector? hop⟩
  case h_10 => exact ⟨⟨hcond, hrd, hr1, hr2, w.field_lt 2 5⟩, isLegal_of_legalVector? hop⟩
  case h_11 =>
      exact ⟨⟨hcond, hrd, hr1, w.field_lt 5 5, w.field_lt 0 5⟩, isLegal_of_legalVector? hop⟩

theorem ofWord_cases (w : Word) :
    ofWord w = halt ∨ ofWord w = invalid w ∨ (ofWord w).InRange ∧ (ofWord w).HasLegalOp := by
  unfold ofWord
  split
  · exact .inl rfl
  · cases h : ofKind? w w.kind with
    | none => exact .inr (.inl rfl)
    | some instr => exact .inr (.inr (wellFormed_of_ofKind? h))

theorem ofWord_encode_of_inRange {instr : Instruction} (hop : instr.HasLegalOp)
    (hrange : instr.InRange) :
    ofWord instr.encode = instr := by
  rw [ofWord_encode hop, reduced_of_inRange hrange]

theorem encode_invalid (raw : Word) : encode (invalid raw) = raw := by
  rw [encode, encodeNat, BitVec.ofNat_toNat, BitVec.setWidth_eq]

-- Encoding an instruction and decoding the word gives the instruction back, with every field cut
-- down to its own bits. Every word stands for an instruction of that kind or for nothing, and the
-- instruction has a word that stands for it again.
theorem decode_encode_inverse :
    (∀ instr : Instruction, instr.HasLegalOp → ofWord instr.encode = instr.reduced ∧
      (instr.InRange → ofWord instr.encode = instr)) ∧
    ∀ w : Word,
    (ofWord w = halt ∨ ofWord w = invalid w ∨ (ofWord w).InRange ∧ (ofWord w).HasLegalOp) ∧
      ofWord (ofWord w).encode = ofWord w := by
  refine ⟨fun instr hop => ⟨ofWord_encode hop, ofWord_encode_of_inRange hop⟩,
    fun w => ⟨ofWord_cases w, ?_⟩⟩
  rcases ofWord_cases w with hhalt | hinvalid | ⟨hrange, hop⟩
  · rw [hhalt]
    rfl
  · rw [hinvalid, encode_invalid, hinvalid]
  · exact ofWord_encode_of_inRange hop hrange

-- A call too far back: the sign is kept, and of the distance its lowest bits.
theorem decode_encode_of_call :
    HasLegalOp (branch .lt true (-0x400005)) ∧
      ofWord (encode (branch .lt true (-0x400005))) = branch .lt true (-5) ∧
      ofWord (encode (ofWord 0xF7FFFFFF)) = ofWord 0xF7FFFFFF :=
  have hop : HasLegalOp (branch .lt true (-0x400005)) := trivial
  ⟨hop, (decode_encode_inverse.1 _ hop).1, (decode_encode_inverse.2 _).2⟩

end Instruction

end PipelinedProcessor
