import PipelinedProcessor.Assembly.Program
import PipelinedProcessor.Flight.Execution
import PipelinedProcessor.Proofs.Result
import Mathlib.Tactic.Choose

namespace PipelinedProcessor

namespace Text

theorem isDecimalDigit_of_isAlpha {c : Char} (h : c.isAlpha) : isDecimalDigit c = false := by
  have hletter : 0x39 < c.toNat ∧ c.toNat < 0x660 := by
    have hcase : c.isUpper ∨ c.isLower := Bool.or_eq_true_iff.mp h
    obtain hupper | hlower := hcase
    · obtain ⟨hlow, hhigh⟩ : 'A'.val ≤ c.val ∧ c.val ≤ 'Z'.val := of_decide_eq_true hupper
      have hlow : 65 ≤ c.toNat := UInt32.le_iff_toNat_le.mp hlow
      have hhigh : c.toNat ≤ 90 := UInt32.le_iff_toNat_le.mp hhigh
      omega
    · obtain ⟨hlow, hhigh⟩ := Bool.and_eq_true_iff.mp hlower
      have hlow : 97 ≤ c.toNat := UInt32.le_iff_toNat_le.mp (of_decide_eq_true hlow)
      have hhigh : c.toNat ≤ 122 := UInt32.le_iff_toNat_le.mp (of_decide_eq_true hhigh)
      omega
  have hranges : ∀ range ∈ decimalDigitRanges, range.2 ≤ 0x39 ∨ 0x660 ≤ range.1 := by decide
  simp only [isDecimalDigit, inRanges, List.any_eq_false, Bool.and_eq_true,
    decide_eq_true_eq, not_and]
  intro range hrange hlow hhigh
  have := hranges range hrange
  omega

end Text

namespace Assembly

-- The lines of a program that stand for an instruction each; the others define a label.
def instructionLines (lines : List SourceLine) : List SourceLine := lines.filter (·.label?.isNone)

def labelNames (lines : List SourceLine) : List String := lines.filterMap (·.label?)

-- The place of the first instruction that does not stand before the line `k`.
def placeOf (lines : List SourceLine) (k : Nat) : Nat := (instructionLines (lines.take k)).length

-- The labels that `lines` define, each with its place, when `position` instructions stand before
-- all of them.
def labelsFrom (position : Nat) (lines : List SourceLine) : Labels :=
  (List.range lines.length).filterMap fun k =>
    (lines[k]?.bind (·.label?)).map fun name => (name, position + placeOf lines k)

def labelsOf (lines : List SourceLine) : Labels := labelsFrom 0 lines

section Lines

variable {line : SourceLine} {lines : List SourceLine} {name : String} {position : Nat}

theorem instructionLines_of_label (h : line.label? = some name) :
    instructionLines (line :: lines) = instructionLines lines := by
  simp [instructionLines, h]

theorem instructionLines_of_none (h : line.label? = none) :
    instructionLines (line :: lines) = line :: instructionLines lines := by
  simp [instructionLines, h]

theorem labelNames_of_label (h : line.label? = some name) :
    labelNames (line :: lines) = name :: labelNames lines := by
  simp [labelNames, h]

theorem labelNames_of_none (h : line.label? = none) :
    labelNames (line :: lines) = labelNames lines := by
  simp [labelNames, h]

@[simp] theorem placeOf_zero (lines : List SourceLine) : placeOf lines 0 = 0 := rfl

theorem placeOf_of_label (h : line.label? = some name) (k : Nat) :
    placeOf (line :: lines) (k + 1) = placeOf lines k := by
  rw [placeOf, List.take_succ_cons, instructionLines_of_label h, placeOf]

theorem placeOf_of_none (h : line.label? = none) (k : Nat) :
    placeOf (line :: lines) (k + 1) = placeOf lines k + 1 := by
  rw [placeOf, List.take_succ_cons, instructionLines_of_none h, List.length_cons, placeOf]

theorem labelsFrom_of_label (h : line.label? = some name) :
    labelsFrom position (line :: lines) = (name, position) :: labelsFrom position lines := by
  simp only [labelsFrom, List.length_cons, List.range_succ_eq_map, List.filterMap_cons,
    List.filterMap_map, List.getElem?_cons_zero, List.getElem?_cons_succ, Function.comp_def,
    Option.bind_some, h, Option.map_some,
    placeOf_zero, placeOf_of_label h, Nat.add_zero, Nat.succ_eq_add_one]

theorem labelsFrom_of_none (h : line.label? = none) :
    labelsFrom position (line :: lines) = labelsFrom (position + 1) lines := by
  simp only [labelsFrom, List.length_cons, List.range_succ_eq_map, List.filterMap_cons,
    List.filterMap_map, List.getElem?_cons_zero, List.getElem?_cons_succ, Function.comp_def,
    Option.bind_some, h, Option.map_none,
    placeOf_of_none h, Nat.succ_eq_add_one, Nat.add_assoc, Nat.add_comm 1]

end Lines

-- The first pass gives up at a second definition of a name only.
theorem layoutFrom_eq_ok_iff (position : Nat) (known : List String) (lines : List SourceLine)
    (labels : Labels) (rest : List SourceLine) :
    layoutFrom position known lines = .ok (labels, rest) ↔
      ((labelNames lines).Nodup ∧ ∀ name ∈ labelNames lines, name ∉ known) ∧
        labels = labelsFrom position lines ∧ rest = instructionLines lines := by
  induction lines generalizing position known labels rest with
  | nil => simp [layoutFrom, labelNames, labelsFrom, instructionLines, eq_comm]
  | cons line lines ih =>
      cases hlabel : line.label? with
      | none =>
          simp only [layoutFrom, hlabel, labelNames_of_none hlabel, labelsFrom_of_none hlabel,
            instructionLines_of_none hlabel]
          constructor
          · intro h
            obtain ⟨⟨labels', rest'⟩, hrest, heq⟩ := ok_of_bind h
            cases heq
            obtain ⟨hnames, rfl, rfl⟩ := (ih ..).mp hrest
            exact ⟨hnames, rfl, rfl⟩
          · rintro ⟨hnames, rfl, rfl⟩
            rw [(ih ..).mpr ⟨hnames, rfl, rfl⟩]
            rfl
      | some name =>
          simp only [layoutFrom, hlabel, labelNames_of_label hlabel, labelsFrom_of_label hlabel,
            instructionLines_of_label hlabel, List.nodup_cons, List.mem_cons, forall_eq_or_imp]
          by_cases hknown : name ∈ known
          · simp [hknown]
          · rw [if_neg (by simpa using hknown)]
            constructor
            · intro h
              obtain ⟨⟨labels', rest'⟩, hrest, heq⟩ := ok_of_bind h
              cases heq
              obtain ⟨⟨hnodup, hfresh⟩, rfl, rfl⟩ := (ih ..).mp hrest
              have hname : name ∉ labelNames lines :=
                fun hmem => hfresh name hmem List.mem_cons_self
              exact ⟨⟨⟨hname, hnodup⟩, hknown, fun other hmem hother =>
                hfresh other hmem (List.mem_cons_of_mem _ hother)⟩, rfl, rfl⟩
            · rintro ⟨⟨⟨hname, hnodup⟩, -, hfresh⟩, rfl, rfl⟩
              have hfresh' : ∀ other ∈ labelNames lines, other ∉ name :: known := by
                intro other hmem hother
                obtain rfl | hother := List.mem_cons.mp hother
                · exact hname hmem
                · exact hfresh other hmem hother
              rw [(ih ..).mpr ⟨⟨hnodup, hfresh'⟩, rfl, rfl⟩]
              rfl

-- A line stands at the address that is the number of instructions before it.
theorem instructionsFrom_eq_ok_iff (labels : Labels) (address : Nat) (lines : List SourceLine)
    (instrs : List Instruction) :
    instructionsFrom labels address lines = .ok instrs ↔
      instrs.length = lines.length ∧ ∀ i line, lines[i]? = some line →
        ∃ instr, instrs[i]? = some instr ∧
        instruction labels (address + i) line.text = .ok instr := by
  induction lines generalizing address instrs with
  | nil => simp [instructionsFrom, eq_comm]
  | cons line lines ih =>
      constructor
      · intro h
        obtain ⟨instr, hinstr, h⟩ := ok_of_bind h
        obtain ⟨others, hothers, heq⟩ := ok_of_bind h
        cases heq
        obtain ⟨hlength, hall⟩ := (ih ..).mp hothers
        refine ⟨by simp [hlength], fun i other hother => ?_⟩
        cases i with
        | zero =>
            obtain rfl := Option.some.inj hother
            exact ⟨instr, rfl, ok_of_mapError hinstr⟩
        | succ i =>
            obtain ⟨instr', hget, hparse⟩ := hall i other hother
            exact ⟨instr', hget, by rwa [Nat.add_right_comm] at hparse⟩
      · rintro ⟨hlength, hall⟩
        obtain ⟨instr, hget, hparse⟩ := hall 0 line rfl
        obtain ⟨others, rfl⟩ : ∃ others, instrs = instr :: others := by
          cases instrs with
          | nil => cases hget
          | cons first others => exact ⟨others, by rw [Option.some.inj hget]⟩
        have hothers : instructionsFrom labels (address + 1) lines = .ok others := by
          refine (ih ..).mpr ⟨by simpa using hlength, fun i other hother => ?_⟩
          obtain ⟨instr', hget', hparse'⟩ := hall (i + 1) other hother
          exact ⟨instr', hget', by rwa [← Nat.add_assoc, Nat.add_right_comm] at hparse'⟩
        simp only [instructionsFrom, hothers]
        rw [show instruction labels address line.text = .ok instr from hparse]
        rfl

theorem exists_instructionsFrom_iff (labels : Labels) (address : Nat) (lines : List SourceLine) :
    (∃ instrs, instructionsFrom labels address lines = .ok instrs) ↔
      ∀ i line, lines[i]? = some line →
      ∃ instr, instruction labels (address + i) line.text = .ok instr := by
  constructor
  · rintro ⟨instrs, h⟩ i line hline
    obtain ⟨instr, -, hparse⟩ := ((instructionsFrom_eq_ok_iff ..).mp h).2 i line hline
    exact ⟨instr, hparse⟩
  · intro h
    have : Nonempty Instruction := ⟨.halt⟩
    choose! parsed hparsed using h
    refine ⟨lines.mapIdx parsed,
      (instructionsFrom_eq_ok_iff ..).mpr ⟨List.length_mapIdx, fun i line hline => ?_⟩⟩
    exact ⟨parsed i line, by rw [List.getElem?_mapIdx, hline, Option.map_some],
      hparsed i line hline⟩

theorem program_eq_ok_iff (source : String) (instrs : List Instruction) :
    program source = .ok instrs ↔
      (labelNames (strip source)).Nodup ∧
        instructionsFrom (labelsOf (strip source)) 0 (instructionLines (strip source)) =
          .ok instrs := by
  constructor
  · intro h
    obtain ⟨⟨labels, lines⟩, hlayout, hinstrs⟩ := ok_of_bind h
    obtain ⟨⟨hnodup, -⟩, rfl, rfl⟩ := (layoutFrom_eq_ok_iff ..).mp hlayout
    exact ⟨hnodup, hinstrs⟩
  · rintro ⟨hnodup, hinstrs⟩
    have hlayout :
        layout (strip source) = .ok (labelsOf (strip source), instructionLines (strip source)) :=
      (layoutFrom_eq_ok_iff ..).mpr ⟨⟨hnodup, fun _ _ => List.not_mem_nil⟩, rfl, rfl⟩
    rw [program, hlayout]
    exact hinstrs

section Branches

variable {lines : List SourceLine} {line : SourceLine} {labels : Labels} {k position address : Nat}
  {name : String}

theorem lookup_labelsFrom (hnodup : (labelNames lines).Nodup) (hline : lines[k]? = some line)
    (hlabel : line.label? = some name) :
    (labelsFrom position lines).lookup name = some (position + placeOf lines k) := by
  induction lines generalizing position k with
  | nil => cases hline
  | cons first rest ih =>
      cases hfirst : first.label? with
      | none =>
          cases k with
          | zero => cases hline; rw [hfirst] at hlabel; cases hlabel
          | succ k =>
              rw [labelNames_of_none hfirst] at hnodup
              rw [labelsFrom_of_none hfirst, ih hnodup hline, placeOf_of_none hfirst,
                Nat.add_right_comm, Nat.add_assoc]
      | some other =>
          rw [labelNames_of_label hfirst, List.nodup_cons] at hnodup
          rw [labelsFrom_of_label hfirst]
          cases k with
          | zero =>
              cases hline
              obtain rfl := Option.some.inj (hlabel.symm.trans hfirst)
              simp
          | succ k =>
              have hmem : name ∈ labelNames rest :=
                List.mem_filterMap.mpr ⟨line, List.mem_of_getElem? hline, hlabel⟩
              have hne : name ≠ other := fun h => hnodup.1 (h ▸ hmem)
              rw [List.lookup_cons, beq_false_of_ne hne, ih hnodup.2 hline, placeOf_of_label hfirst]

theorem isLabelName_of_label (h : line.label? = some name) : isLabelName name.toList := by
  simp only [SourceLine.label?] at h
  split at h
  · rename_i hname
    cases h
    simp only [Bool.and_eq_true] at hname
    simpa using hname.2
  · cases h

theorem number?_of_isLabelName {cs : List Char} (h : isLabelName cs) :
    Operand.number? cs = none := by
  obtain _ | ⟨c, rest⟩ := cs
  · cases h
  simp only [isLabelName, Bool.and_eq_true, Bool.or_eq_true, decide_eq_true_eq] at h
  have hdigit : Text.isDecimalDigit c = false := by
    obtain ⟨halpha | rfl, -⟩ := h
    · exact Text.isDecimalDigit_of_isAlpha halpha
    · decide
  have hminus : c ≠ '-' := by rintro rfl; simp at h
  have hzero : c ≠ '0' := by rintro rfl; simp at h
  have hhex : Text.hexDigits? (c :: rest) = none := by
    unfold Text.hexDigits?
    split
    · rename_i heq
      exact absurd (List.cons.inj heq).1 hzero
    · rfl
  have hnumeral : Text.isNumeral (c :: rest) = false := by simp [Text.isNumeral, hdigit]
  rw [Operand.number?]
  · simp [Operand.magnitude?, hhex, hnumeral]
  · rintro cs heq
    exact hminus (List.cons.inj heq).1

-- A label that is named like a register is no operand; all others are read as what they stand for.
theorem position_of_read {operand : Operand} (hname : isLabelName name.toList)
    (h : Operand.read labels name = .ok operand) (hkind : ∀ number, operand ≠ .scalar number ∧
      operand ≠ .indirect number ∧ operand ≠ .vector number) :
    ∃ position, labels.lookup name = some position ∧ operand = .label position := by
  unfold Operand.read at h
  simp only [number?_of_isLabelName hname] at h
  split at h
  · obtain ⟨number, -, rfl⟩ := ok_of_map h
    exact absurd rfl (hkind number).1
  split at h
  · obtain ⟨number, -, rfl⟩ := ok_of_map h
    exact absurd rfl (hkind number).2.1
  split at h
  · obtain ⟨number, -, rfl⟩ := ok_of_map h
    exact absurd rfl (hkind number).2.2
  split at h
  · rename_i position hlookup
    cases h
    exact ⟨position, hlookup, rfl⟩
  · cases h

theorem offset_of_branchTo {link : Bool} {cond : Condition} {instr : Instruction}
    (hname : isLabelName name.toList) (h : branchTo link address labels cond name = .ok instr) :
    ∃ position, labels.lookup name = some position ∧
    instr = .branch cond link ((position : Int) - address) := by
  obtain ⟨operand, hread, h⟩ := ok_of_bind h
  have hread := ok_of_mapError hread
  obtain ⟨position, hlookup, rfl⟩ : ∃ position, labels.lookup name = some position ∧
      operand = .label position :=
    position_of_read hname hread fun number => by
      refine ⟨?_, ?_, ?_⟩ <;> (rintro rfl; cases h)
  change (if maxBranchOffset < _ then _ else _) = Except.ok instr at h
  split at h
  · cases h
  · cases h
    exact ⟨position, hlookup, rfl⟩

-- The forms of a branch differ in their condition only.
theorem branch_eq_ok {link : Bool} {target : String} {rest : List String} {instr : Instruction}
    (h : branch link address labels (target :: rest) = .ok instr) :
    ∃ cond, branchTo link address labels cond target = .ok instr := by
  unfold branch at h
  split at h
  · rename_i heq
    cases heq
    exact ⟨.always, h⟩
  · rename_i heq
    cases heq
    split at h
    · split at h
      · exact ⟨_, h⟩
      · cases h
    · cases h
  · cases h

theorem offset_of_instruction {text keyword target : String} {rest : List String}
    {instr : Instruction} (htokens : tokens text = keyword :: target :: rest)
    (hkeyword : Text.upper keyword = "BRANCH" ∨ Text.upper keyword = "CALL")
    (hname : isLabelName target.toList) (h : instruction labels address text = .ok instr) :
    ∃ cond position, labels.lookup target = some position ∧
      instr = .branch cond (Text.upper keyword = "CALL") ((position : Int) - address) := by
  have hbranch :
      branch (Text.upper keyword = "CALL") address labels (target :: rest) = .ok instr := by
    simp only [instruction, htokens] at h
    obtain hkeyword | hkeyword := hkeyword <;> simpa [hkeyword] using h
  obtain ⟨cond, hto⟩ := branch_eq_ok hbranch
  exact ⟨cond, offset_of_branchTo hname hto⟩

end Branches

-- The instructions of a program are those of its lines, each at its own place. A branch to a label
-- leads, from wherever the program lies, to the instruction after the label or to the end; only
-- with the condition of a return it makes no use of that.
theorem program_resolves_labels (source : String) :
    let lines := strip source
    ((∃ instrs, program source = .ok instrs) ↔
      (labelNames lines).Nodup ∧ ∀ i line, (instructionLines lines)[i]? = some line →
        ∃ instr, instruction (labelsOf lines) i line.text = .ok instr) ∧
    ∀ instrs, program source = .ok instrs →
      instrs.length = (instructionLines lines).length ∧
      ∀ i line, (instructionLines lines)[i]? = some line →
        ∃ instr, instrs[i]? = some instr ∧ instruction (labelsOf lines) i line.text = .ok instr ∧
          ∀ keyword target rest k definition, tokens line.text = keyword :: target :: rest →
            (Text.upper keyword = "BRANCH" ∨ Text.upper keyword = "CALL") →
            lines[k]? = some definition → definition.label? = some target →
            ∃ cond offset, instr = .branch cond (Text.upper keyword = "CALL") offset ∧
              (i : Int) + offset = placeOf lines k ∧
              ∀ start, branchTarget (start + i) offset =
                if start + i < signedBound ∧ start + placeOf lines k < signedBound then
                  .ok (start + placeOf lines k)
                else .error (.branchOutside (start + i) offset) := by
  intro lines
  refine ⟨?_, fun instrs hinstrs => ?_⟩
  · simp only [program_eq_ok_iff, exists_and_left, exists_instructionsFrom_iff, Nat.zero_add, lines]
  obtain ⟨hnodup, hinstrs⟩ := (program_eq_ok_iff source instrs).mp hinstrs
  obtain ⟨hlength, hall⟩ := (instructionsFrom_eq_ok_iff ..).mp hinstrs
  refine ⟨hlength, fun i line hline => ?_⟩
  obtain ⟨instr, hget, hparse⟩ := hall i line hline
  rw [Nat.zero_add] at hparse
  refine ⟨instr, hget, hparse,
    fun keyword target rest k definition htokens hkeyword hdefinition hlabel => ?_⟩
  obtain ⟨cond, position, hlookup, rfl⟩ :=
    offset_of_instruction htokens hkeyword (isLabelName_of_label hlabel) hparse
  have hposition : position = placeOf lines k := by
    have := hlookup.symm.trans (lookup_labelsFrom hnodup hdefinition hlabel)
    simpa using this
  refine ⟨cond, _, rfl, by omega, fun start => ?_⟩
  have htarget : ((start + i : Nat) : Int) + ((position : Int) - i) =
      ((start + position : Nat) : Int) := by omega
  simp only [branchTarget, htarget, ← hposition, Int.toNat_natCast]
  exact if_congr (by omega) rfl rfl

-- One branch forwards over a comment, to the end, and one backwards.
theorem program_resolves_labels_of_loop :
    let source := "top:\nBRANCH end IF EQ // away\n\nCALL top\nend:"
    ∃ instrs away again, program source = .ok instrs ∧
      instrs[0]? = some (.branch .eq false away) ∧ (0 : Int) + away = 2 ∧
      instrs[1]? = some (.branch .always true again) ∧ (1 : Int) + again = 0 ∧
      branchTarget (1000 + 0) away = .ok 1002 ∧ branchTarget (1000 + 1) again = .ok 1000 := by
  intro source
  have hlines :
      strip source = [⟨1, "top:"⟩, ⟨2, "BRANCH end IF EQ"⟩, ⟨4, "CALL top"⟩, ⟨5, "end:"⟩] := by
    decide +kernel
  have hinstructions : instructionLines (strip source) =
      [⟨2, "BRANCH end IF EQ"⟩, ⟨4, "CALL top"⟩] := by
    decide +kernel
  have hprogram : program source = .ok [.branch .eq false 2, .branch .always true (-1)] :=
    ok_of_toOption (by decide +kernel)
  obtain ⟨-, hall⟩ := (program_resolves_labels source).2 _ hprogram
  obtain ⟨first, hfirst, -, hfirst'⟩ := hall 0 ⟨2, "BRANCH end IF EQ"⟩ (by rw [hinstructions]; rfl)
  obtain ⟨second, hsecond, -, hsecond'⟩ := hall 1 ⟨4, "CALL top"⟩ (by rw [hinstructions]; rfl)
  obtain ⟨_, away, haway, -, htarget⟩ :=
    hfirst' "BRANCH" "end" ["IF", "EQ"] 3 ⟨5, "end:"⟩ (by decide +kernel)
    (by decide +kernel) (by rw [hlines]; rfl) (by decide +kernel)
  obtain ⟨_, again, hagain, -, htarget'⟩ :=
    hsecond' "CALL" "top" [] 0 ⟨1, "top:"⟩ (by decide +kernel)
    (by decide +kernel) (by rw [hlines]; rfl) (by decide +kernel)
  have hend : placeOf (strip source) 3 = 2 := by decide +kernel
  rw [hend] at htarget
  obtain rfl := Option.some.inj hfirst
  obtain rfl := Option.some.inj hsecond
  cases haway
  cases hagain
  exact ⟨_, _, _, hprogram, rfl, rfl, rfl, rfl, htarget 1000, htarget' 1000⟩

end Assembly

end PipelinedProcessor
