import PipelinedProcessor.Assembly.Program
import PipelinedProcessor.Proofs.Assembly.Operands
import PipelinedProcessor.Proofs.Assembly.Tokens
import PipelinedProcessor.Proofs.Instruction.RoundTrip

namespace PipelinedProcessor

namespace Instruction

-- What decides nothing is zero, and of several forms for the same work there is one: setting a flag
-- uses no first operand and negation no second one, so that neither has a form with operands of two
-- kinds. A shift has no form at all, as its code is taken for that of a branch.
def Settled : Instruction → Prop
  | scalar operands cond op rd r1 r2 =>
    cond = 0 ∧ op ≠ .shift ∧ (op.writesDestination = false → rd = 0) ∧
    (op.usesFirst = false → r1 = 0) ∧
      (op.usesSecond = false → r2 = 0) ∧ (operands = .mixed → op.usesFirst ∧ op.usesSecond)
  | scalarImmediate indirect op rd r1 _ =>
    op ≠ .shift ∧ (op.writesDestination = false → rd = 0) ∧
    (op.usesFirst = false → r1 = 0) ∧ op.usesSecond ∧
      (indirect → op.usesFirst)
  | vectorTransfer op _ _ length => op = .append → length = 0
  | vector cond _ _ _ _ _ => cond = 0
  | vectorImmediate cond _ _ _ _ _ => cond = 0
  | _ => True

-- The instructions that have a line of their own.
structure Canonical (instr : Instruction) : Prop where
  inRange : instr.InRange
  legalOp : instr.HasLegalOp
  settled : instr.Settled

theorem Canonical.ofWord_encode {instr : Instruction} (h : instr.Canonical) :
    ofWord instr.encode = instr :=
  ofWord_encode_of_inRange h.legalOp h.inRange

end Instruction

namespace Assembly

-- What a line is read as.

theorem le_of_fits? {value : Int} {max n : Nat} (h : fits? value max = some n) : n ≤ max := by
  unfold fits? at h
  split at h
  · cases h
    omega
  · cases h

theorem le_of_immediateField {value : Int} {max n : Nat} (h : immediateField value max = .ok n) :
    n ≤ max := by
  unfold immediateField at h
  cases hfits : fits? value max with
  | none => simp [hfits] at h
  | some m =>
      obtain rfl : m = n := by simpa [hfits] using h
      exact le_of_fits? hfits

theorem le_of_lengthField {value : Int} {n : Nat} (h : lengthField value = .ok n) :
    n ≤ maxVectorField := by
  unfold lengthField at h
  cases hfits : fits? value maxVectorField with
  | none => simp [hfits] at h
  | some m =>
      obtain rfl : m = n := by simpa [hfits] using h
      exact le_of_fits? hfits

-- A register field that exists, and that is zero unless it is used.
def Kept (used : Bool) (number : Nat) : Prop :=
  number < Register.count ∧ (used = false → number = 0)

theorem kept_zero (used : Bool) : Kept used 0 := ⟨by decide, fun _ => rfl⟩

theorem kept_of_used {used : Bool} {number : Nat} (hused : used) (h : number < Register.count) :
    Kept used number :=
  ⟨h, fun hunused => absurd hused (by simp [hunused])⟩

section

variable {op : ScalarOp} {rd : Nat} (halu : op.isAlu) (hshift : op ≠ .shift)
  (hrd : Kept op.writesDestination rd)

include halu hshift hrd

theorem canonical_scalar {operands : Operands} {r1 r2 : Nat} (hr1 : Kept op.usesFirst r1)
    (hr2 : Kept op.usesSecond r2) (hmixed : operands = .mixed → op.usesFirst ∧ op.usesSecond) :
    (Instruction.scalar operands 0 op rd r1 r2).Canonical :=
  ⟨⟨by decide, hrd.1, hr1.1, hr2.1⟩, halu, rfl, hshift, hrd.2, hr1.2, hr2.2, hmixed⟩

theorem canonical_scalarImmediate {indirect : Bool} {r1 : Nat} {value : Int} {instr : Instruction}
    (hr1 : Kept op.usesFirst r1) (hsecond : op.usesSecond) (hindirect : indirect → op.usesFirst)
    (h : (immediateField value maxImmediate).map (.scalarImmediate indirect op rd r1) = .ok instr) :
    instr.Canonical := by
  obtain ⟨immediate, himmediate, rfl⟩ := ok_of_map h
  have hlt : immediate < 0x100 := Nat.lt_succ_of_le (le_of_immediateField himmediate)
  exact ⟨⟨hrd.1, hr1.1, hlt⟩, halu, hshift, hrd.2, hr1.2, hsecond, hindirect⟩

-- The operands that are given are those that the operation uses.
theorem canonical_of_combine {first second : Option Operand} {instr : Instruction}
    (hfirst : ∀ operand ∈ first, operand.InRange) (hsecond : ∀ operand ∈ second, operand.InRange)
    (huses : first.isSome → op.usesFirst) (huses' : second.isSome → op.usesSecond)
    (h : combine op rd first second = .ok instr) : instr.Canonical := by
  unfold combine at h
  split at h
  case h_1 =>
    cases h
    exact canonical_scalar halu hshift hrd (kept_zero _) (kept_zero _) nofun
  case h_2 | h_5 =>
    cases h
    exact canonical_scalar halu hshift hrd (kept_zero _)
      (kept_of_used (huses' rfl) (hsecond _ rfl)) nofun
  case h_3 | h_6 =>
    cases h
    exact canonical_scalar halu hshift hrd (kept_of_used (huses rfl) (hfirst _ rfl))
      (kept_zero _) nofun
  case h_4 | h_7 =>
    cases h
    exact canonical_scalar halu hshift hrd (kept_of_used (huses rfl) (hfirst _ rfl))
      (kept_of_used (huses' rfl) (hsecond _ rfl)) nofun
  case h_8 =>
    cases h
    exact canonical_scalar halu hshift hrd (kept_of_used (huses rfl) (hfirst _ rfl))
      (kept_of_used (huses' rfl) (hsecond _ rfl)) fun _ => ⟨huses rfl, huses' rfl⟩
  case h_9 => exact canonical_scalarImmediate halu hshift hrd (kept_zero _) (huses' rfl) (by simp) h
  case h_10 =>
    exact canonical_scalarImmediate halu hshift hrd (kept_of_used (huses rfl) (hfirst _ rfl))
      (huses' rfl) (by simp) h
  case h_11 =>
    exact canonical_scalarImmediate halu hshift hrd (kept_of_used (huses rfl) (hfirst _ rfl))
      (huses' rfl) (fun _ => huses rfl) h
  case h_12 => cases h

theorem canonical_of_withSources {sources : List Operand} {instr : Instruction}
    (hsources : ∀ operand ∈ sources, operand.InRange) (h : withSources op rd sources = .ok instr) :
    instr.Canonical := by
  have hgiven (i : Nat) : ∀ operand ∈ sources[i]?, operand.InRange := fun operand hmem =>
    hsources operand (List.mem_of_getElem? hmem)
  have hlast (i : Nat) : ∀ operand ∈ (if op.usesSecond then sources[i]? else none),
      operand.InRange := by
    split
    · exact hgiven i
    · nofun
  have huses (i : Nat) : (if op.usesSecond then sources[i]? else none).isSome → op.usesSecond := by
    split <;> simp_all
  unfold withSources at h
  split at h
  case isTrue hused =>
      exact canonical_of_combine halu hshift hrd (hgiven 0) (hlast 1) (fun _ => hused) (huses 1) h
  case isFalse =>
    exact canonical_of_combine halu hshift hrd (by simp) (hlast 0) (by simp) (huses 0) h

end

theorem canonical_of_scalar {op : ScalarOp} {given : List Operand} {instr : Instruction}
    (halu : op.isAlu) (hshift : op ≠ .shift) (hgiven : ∀ operand ∈ given, operand.InRange)
    (h : scalar op given = .ok instr) :
    instr.Canonical := by
  unfold scalar at h
  simp only at h
  split at h
  · cases h
  · split at h
    case isTrue hwrites =>
      split at h
      · rename_i rd sources _
        have hrd : Kept op.writesDestination rd :=
          kept_of_used hwrites (hgiven _ List.mem_cons_self)
        have hsources : ∀ operand ∈ sources, operand.InRange := fun operand hmem =>
          hgiven operand (List.mem_cons_of_mem _ hmem)
        exact canonical_of_withSources halu hshift hrd hsources h
      · cases h
      · cases h
    case isFalse => exact canonical_of_withSources halu hshift (kept_zero _) hgiven h

theorem canonical_of_transfer {op : ScalarOp} {given : List Operand} {instr : Instruction}
    (hmemory : op.isMemory) (hgiven : ∀ operand ∈ given, operand.InRange)
    (h : transfer op given = .ok instr) : instr.Canonical := by
  unfold transfer at h
  split at h
  · cases h
    exact ⟨⟨hgiven (.scalar _) (by simp), hgiven (.scalar _) (by simp)⟩, hmemory, trivial⟩
  · obtain ⟨immediate, himmediate, rfl⟩ := ok_of_map h
    exact ⟨⟨hgiven (.scalar _) (by simp), Nat.lt_succ_of_le (le_of_immediateField himmediate)⟩,
      hmemory, trivial⟩
  · cases h
  · cases h

theorem canonical_of_vectorTransfer {op : VectorOp} {given : List Operand} {instr : Instruction}
    (hgiven : ∀ operand ∈ given, operand.InRange) (h : vectorTransfer op given = .ok instr) :
    instr.Canonical := by
  unfold vectorTransfer at h
  split at h
  · cases h
    exact ⟨⟨hgiven (.vector _) (by simp), hgiven (.scalar _) (by simp), by decide⟩,
      rfl, fun _ => rfl⟩
  · obtain ⟨length, hlength, rfl⟩ := ok_of_map h
    exact ⟨⟨hgiven (.vector _) (by simp), hgiven (.scalar _) (by simp),
      Nat.lt_succ_of_le (le_of_lengthField hlength)⟩, rfl, nofun⟩
  · obtain ⟨length, hlength, rfl⟩ := ok_of_map h
    exact ⟨⟨hgiven (.vector _) (by simp), hgiven (.scalar _) (by simp),
      Nat.lt_succ_of_le (le_of_lengthField hlength)⟩, rfl, nofun⟩
  · cases h

theorem canonical_of_vector {op : VectorOp} {given : List Operand} {instr : Instruction}
    (halu : op.isAlu) (hgiven : ∀ operand ∈ given, operand.InRange)
    (h : vector op given = .ok instr) : instr.Canonical := by
  unfold vector at h
  split at h
  · obtain ⟨length, hlength, h⟩ := ok_of_bind h
    have hlength : length < 0x20 := Nat.lt_succ_of_le (le_of_lengthField hlength)
    split at h
    · cases h
      exact ⟨⟨by decide, hgiven (.vector _) (by simp), hgiven (.vector _) (by simp),
        hgiven (.vector _) (by simp), hlength⟩, halu, rfl⟩
    · obtain ⟨immediate, himmediate, h⟩ := ok_of_bind h
      cases h
      exact ⟨⟨by decide, hgiven (.vector _) (by simp), hgiven (.vector _) (by simp),
        Nat.lt_succ_of_le (le_of_immediateField himmediate), hlength⟩, halu, rfl⟩
    · cases h
  · cases h

theorem canonical_of_branchTo {link : Bool} {address : Nat} {labels : Labels} {cond : Condition}
    {target : String} {instr : Instruction}
    (h : branchTo link address labels cond target = .ok instr) : instr.Canonical := by
  have hchecked (offset : Int) (h : (if maxBranchOffset < offset.natAbs then
      Except.error (LineError.branchOffset offset) else .ok (.branch cond link offset)) =
      .ok instr) :
      instr.Canonical := by
    split at h
    · cases h
    · cases h
      rename_i hfits
      exact ⟨Nat.lt_succ_of_le (Nat.le_of_not_lt hfits), trivial, trivial⟩
  unfold branchTo at h
  obtain ⟨operand, -, h⟩ := ok_of_bind h
  cases operand with
  | immediate offset => exact hchecked offset h
  | label position => exact hchecked _ h
  | scalar number => cases h
  | indirect number => cases h
  | vector number => cases h

theorem canonical_of_branch {link : Bool} {address : Nat} {labels : Labels} {parts : List String}
    {instr : Instruction} (h : branch link address labels parts = .ok instr) : instr.Canonical := by
  unfold branch at h
  split at h
  · exact canonical_of_branchTo h
  · split at h
    · split at h
      · exact canonical_of_branchTo h
      · cases h
    · cases h
  · cases h

theorem inRange_of_operands {labels : Labels} {parts : List String} {given : List Operand}
    (h : operands labels parts = .ok given) : ∀ operand ∈ given, operand.InRange := by
  induction parts generalizing given with
  | nil =>
      cases h
      simp
  | cons token rest ih =>
      obtain ⟨operand, hread, h⟩ := ok_of_bind h
      obtain ⟨others, hothers, h⟩ := ok_of_bind h
      cases h
      simp only [List.mem_cons, forall_eq_or_imp]
      exact ⟨Operand.inRange_of_read (ok_of_mapError hread), ih hothers⟩

theorem upper_eq_of_ofName?_shift {text : String} (h : ScalarOp.ofName? text = some .shift) :
    Text.upper text = "SHIFT" := by
  simpa [ScalarOp.spellings, ScalarOp.name] using List.find?_some h

theorem canonical_of_operation {mnemonic : String} {given : List Operand} {instr : Instruction}
    (hshift : ScalarOp.ofName? mnemonic ≠ some .shift) (hgiven : ∀ operand ∈ given, operand.InRange)
    (h : operation mnemonic given = .ok instr) : instr.Canonical := by
  unfold operation at h
  split at h
  · split at h
    · cases h
    · split at h
      case isTrue => exact canonical_of_vectorTransfer hgiven h
      case isFalse hmemory =>
          exact canonical_of_vector (by simpa [VectorOp.isAlu] using hmemory) hgiven h
  · split at h
    · cases h
    · rename_i op hop
      split at h
      case isTrue hmemory => exact canonical_of_transfer hmemory hgiven h
      case isFalse hmemory =>
        exact canonical_of_scalar (by simpa [ScalarOp.isAlu] using hmemory)
          (fun heq => hshift (heq ▸ hop)) hgiven h

theorem canonical_of_instruction {labels : Labels} {address : Nat} {line : String}
    {instr : Instruction} (h : instruction labels address line = .ok instr) : instr.Canonical := by
  unfold instruction at h
  split at h
  · cases h
  · simp only at h
    split at h
    · cases h
      exact ⟨trivial, trivial, trivial⟩
    split at h
    · cases h
      exact ⟨show (0 : Int).natAbs < 0x400000 by decide, trivial, trivial⟩
    split at h
    · exact canonical_of_branch h
    split at h
    · exact canonical_of_branch h
    split at h
    · cases h
    · rename_i hshift
      obtain ⟨given, hgiven, h⟩ := ok_of_bind h
      refine canonical_of_operation (fun hname => hshift ?_) (inRange_of_operands hgiven) h
      rw [← Text.upper_upper, upper_eq_of_ofName?_shift hname]

theorem canonical_of_instructionsFrom {labels : Labels} {address : Nat} {lines : List SourceLine}
    {instrs : List Instruction} (h : instructionsFrom labels address lines = .ok instrs) :
    ∀ instr ∈ instrs, instr.Canonical := by
  induction lines generalizing address instrs with
  | nil =>
      cases h
      simp
  | cons line rest ih =>
      obtain ⟨instr, hinstr, h⟩ := ok_of_bind h
      obtain ⟨others, hothers, h⟩ := ok_of_bind h
      cases h
      simp only [List.mem_cons, forall_eq_or_imp]
      exact ⟨canonical_of_instruction (ok_of_mapError hinstr), ih hothers⟩

theorem canonical_of_program {source : String} {instrs : List Instruction}
    (h : program source = .ok instrs) :
    ∀ instr ∈ instrs, instr.Canonical := by
  obtain ⟨⟨labels, lines⟩, -, h⟩ := ok_of_bind h
  exact canonical_of_instructionsFrom h

end Assembly

end PipelinedProcessor
