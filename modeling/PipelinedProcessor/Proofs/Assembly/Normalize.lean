import PipelinedProcessor.Proofs.Architecture.Decomposition
import PipelinedProcessor.Proofs.Assembly.Canonical

namespace PipelinedProcessor

-- Where only one of two operands is used, the other one does not count for the form.
def Operands.normalize (op : ScalarOp) : Operands → Operands
  | direct => direct
  | indirect => indirect
  | mixed => if op.usesFirst then if op.usesSecond then mixed else indirect else direct

namespace Instruction

-- A field that is not used is left at zero.
def fieldIf (used : Bool) (number : Nat) : Nat := if used then number else 0

-- The instruction that the text of an instruction stands for. A number that is not used is not
-- shown, and without one the instruction has the form of one without a number.
def normalize : Instruction → Instruction
  | scalar operands _ op rd r1 r2 =>
    scalar (operands.normalize op) 0 op (fieldIf op.writesDestination rd) (fieldIf op.usesFirst r1)
      (fieldIf op.usesSecond r2)
  | scalarImmediate indirect op rd r1 immediate =>
    if op.usesSecond then
      scalarImmediate (indirect && op.usesFirst) op (fieldIf op.writesDestination rd)
        (fieldIf op.usesFirst r1) immediate
    else
      scalar (if indirect then .indirect else .direct) 0 op (fieldIf op.writesDestination rd)
        (fieldIf op.usesFirst r1) 0
  | vectorTransfer .append vd r1 _ => vectorTransfer .append vd r1 0
  | vector _ op vd v1 v2 length => vector 0 op vd v1 v2 length
  | vectorImmediate _ op vd v1 immediate length => vectorImmediate 0 op vd v1 immediate length
  | instr => instr

-- Nothing changes of what is shown and of which registers are read and written.

theorem tokens_normalize (instr : Instruction) : instr.normalize.tokens = instr.tokens := by
  cases instr with
  | scalar operands cond op rd r1 r2 => cases operands <;> cases op <;> rfl
  | scalarImmediate indirect op rd r1 immediate => cases indirect <;> cases op <;> rfl
  | vectorTransfer op vd r1 length => cases op <;> rfl
  | _ => rfl

theorem text_normalize (instr : Instruction) : instr.normalize.text = instr.text := by
  rw [text, tokens_normalize, text]

theorem reads_normalize (instr : Instruction) : instr.normalize.reads = instr.reads := by
  cases instr with
  | scalar operands cond op rd r1 r2 => cases op <;> rfl
  | scalarImmediate indirect op rd r1 immediate => cases op <;> rfl
  | vectorTransfer op vd r1 length => cases op <;> rfl
  | _ => rfl

theorem writes_normalize (instr : Instruction) : instr.normalize.writes = instr.writes := by
  cases instr with
  | scalar operands cond op rd r1 r2 => cases operands <;> cases op <;> rfl
  | scalarImmediate indirect op rd r1 immediate => cases indirect <;> cases op <;> rfl
  | vectorTransfer op vd r1 length => cases op <;> rfl
  | _ => rfl

theorem fieldIf_lt {used : Bool} {number : Nat} (h : number < 0x10) :
    fieldIf used number < 0x10 := by
  unfold fieldIf
  split <;> omega

theorem fieldIf_of_unused {used : Bool} (number : Nat) (h : used = false) :
    fieldIf used number = 0 := by
  rw [fieldIf, h]
  rfl

theorem canonical_normalize {instr : Instruction} (hrange : instr.InRange)
    (hlegal : instr.HasLegalOp) (hshift : instr.scalarOp? ≠ some .shift) :
    instr.normalize.Canonical := by
  cases instr with
  | scalar operands cond op rd r1 r2 =>
      obtain ⟨-, hrd, hr1, hr2⟩ := hrange
      have hop : op ≠ .shift := fun heq => hshift (congrArg some heq)
      have hmixed : operands.normalize op = .mixed → op.usesFirst ∧ op.usesSecond := by
        cases operands <;> cases op <;> decide
      exact ⟨⟨by decide, fieldIf_lt hrd, fieldIf_lt hr1, fieldIf_lt hr2⟩, hlegal, rfl,
        hop, fieldIf_of_unused rd, fieldIf_of_unused r1, fieldIf_of_unused r2, hmixed⟩
  | scalarImmediate indirect op rd r1 immediate =>
      obtain ⟨hrd, hr1, himmediate⟩ := hrange
      have hop : op ≠ .shift := fun heq => hshift (congrArg some heq)
      simp only [normalize]
      split
      case isTrue hsecond =>
        have hindirect : (indirect && op.usesFirst) = true → op.usesFirst := by simp
        exact ⟨⟨fieldIf_lt hrd, fieldIf_lt hr1, himmediate⟩, hlegal, hop, fieldIf_of_unused rd,
          fieldIf_of_unused r1, hsecond, hindirect⟩
      case isFalse =>
        have hmixed : (if indirect then .indirect else .direct) = Operands.mixed →
            op.usesFirst ∧ op.usesSecond := by
          cases indirect <;> nofun
        exact ⟨⟨by decide, fieldIf_lt hrd, fieldIf_lt hr1, by decide⟩, hlegal, rfl,
          hop, fieldIf_of_unused rd, fieldIf_of_unused r1, fun _ => rfl, hmixed⟩
  | vectorTransfer op vd r1 length =>
      obtain ⟨hvd, hr1, hlength⟩ := hrange
      cases op with
      | append => exact ⟨⟨hvd, hr1, by decide⟩, hlegal, fun _ => rfl⟩
      | _ => exact ⟨⟨hvd, hr1, hlength⟩, hlegal, nofun⟩
  | vector cond op vd v1 v2 length => exact ⟨⟨by decide, hrange.2⟩, hlegal, rfl⟩
  | vectorImmediate cond op vd v1 immediate length => exact ⟨⟨by decide, hrange.2⟩, hlegal, rfl⟩
  | _ => exact ⟨hrange, hlegal, trivial⟩

end Instruction

-- An action that does not write its destination names none.
def Action.normalize : Action → Action
  | scalar op rd swapped flags first second =>
    scalar op (Instruction.fieldIf op.writesDestination rd) swapped flags first second
  | action => action

def Work.normalize : Work → Work
  | action todo => action todo.normalize
  | work => work

theorem Work.normalize_results (writes : Except Fault (List RegisterWrite)) :
    (writes.map Work.results).map Work.normalize = writes.map Work.results := by
  cases writes <;> rfl

namespace Instruction

-- A flag that is set by a register or a number is left to Memory Access if the form of the
-- instruction has an operand in memory, though that is not used. Otherwise the form makes no
-- difference.
theorem work_normalize (instr : Instruction) (address : Nat) (registers : Registers)
    (vectors : VectorRegisters) :
    instr.normalize.work address registers vectors =
      (instr.work address registers vectors).map Work.normalize ∨
    ∃ rd flags a b writes, ScalarOp.setFlag.results rd none flags a b = .ok writes ∧
      instr.work address registers vectors =
        .ok (.action (.scalar .setFlag rd none flags (.value a) (.value b))) ∧
      instr.normalize.work address registers vectors = .ok (.results writes) := by
  cases instr with
  | scalar operands cond op rd r1 r2 =>
      cases operands with
      | direct =>
          refine .inl ?_
          simp only [work, Work.normalize_results]
          cases op <;> rfl
      | indirect =>
          refine .inl ?_
          cases op <;> rfl
      | mixed =>
          cases op with
          | setFlag => exact .inr ⟨rd, _, _, _, _, rfl, rfl, rfl⟩
          | _ => exact .inl rfl
  | scalarImmediate indirect op rd r1 immediate =>
      cases indirect with
      | false =>
          refine .inl ?_
          simp only [work, Work.normalize_results]
          cases op <;> rfl
      | true =>
          cases op with
          | setFlag => exact .inr ⟨rd, _, _, _, _, rfl, rfl, rfl⟩
          | _ => exact .inl rfl
  | vector cond op vd v1 v2 length =>
      refine .inl ?_
      simp only [normalize, work, map_map, Work.normalize]
  | vectorImmediate cond op vd v1 immediate length =>
      refine .inl ?_
      simp only [normalize, work, map_map, Work.normalize]
  | vectorTransfer op vd r1 length => 
    cases op <;> exact .inl rfl
  | transfer op rd r1 => 
    cases op <;> exact .inl rfl
  | transferImmediate op rd r1 => 
    cases op <;> exact .inl rfl
  | branch cond link offset =>
      have hsame (target : Except Fault Nat) (back : Except Fault (Option Word)) :
          (target.bind fun place => back.bind fun w => .ok (.action (.branch cond place w))) =
            (target.bind fun place => back.bind fun w => .ok (.action (.branch cond place w))).map
              Work.normalize := by
        cases target with
        | error fault => rfl
        | ok place => cases back <;> rfl
      refine .inl ?_
      simp only [normalize, work]
      split <;> split <;> exact hsame _ _
  | halt => exact .inl rfl
  | invalid raw => exact .inl rfl

end Instruction

end PipelinedProcessor
