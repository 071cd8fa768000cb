import PipelinedProcessor.Proofs.Architecture.Staged
import PipelinedProcessor.Proofs.Instruction.RoundTrip
import PipelinedProcessor.Proofs.Result

namespace PipelinedProcessor

-- What an instruction does at once is what its stages do one after the other: operands are read,
-- memory is asked, and what was decided on is written in the end.

-- An operand that is not used may be any word.
theorem results_congr {op : ScalarOp} {rd : Nat} {swapped : Option Nat}
    {flags flags' a a' b b' : Word} (hflags : op = .setFlag → flags = flags')
    (ha : op.usesFirst = true → a = a') (hb : op.usesSecond = true → b = b') :
    op.results rd swapped flags a b = op.results rd swapped flags' a' b' := by
  cases op with
  | setFlag =>
      obtain rfl := hflags rfl
      obtain rfl := hb rfl
      rfl
  | not =>
      obtain rfl := ha rfl
      rfl
  | _ =>
      obtain rfl := ha rfl
      obtain rfl := hb rfl
      rfl

namespace Work

def outcome (capacity : Nat) (holds : Condition → Bool) (view : MemoryView) :
    Work → Except Fault Outcome
  | nothing => .ok ⟨[], view, none⟩
  | results writes => .ok ⟨writes, view, none⟩
  | action todo => todo.outcome capacity holds view

def StoresTo (capacity : Nat) (work : Work) (address : Nat) : Prop :=
  match work with
  | action todo => todo.StoresTo capacity address
  | _ => False

theorem word_operand (view : MemoryView) (used : Bool) (source : Source) :
    used = true → (if used then source else .value 0).word view = source.word view := by
  rintro rfl
  rfl

theorem outcome_scalarAction (capacity : Nat) (holds : Condition → Bool) (view : MemoryView)
    (op : ScalarOp) (rd : Nat) (flags : Word) (first second : Source) :
    (Instruction.scalarAction op rd flags first second).outcome capacity holds view =
      (op.results rd none flags (first.word view) (second.word view)).map fun writes =>
        ⟨writes, view, none⟩ := by
  rw [Instruction.scalarAction, Work.outcome, Action.outcome, results_congr (fun _ => rfl)
    (word_operand view op.usesFirst first) (word_operand view op.usesSecond second)]

end Work

namespace Instruction

-- What the encoding ensures.
def Legal : Instruction → Prop
  | transfer op _ _ => op.isMemory
  | transferImmediate op _ _ => op.isMemory
  | branch _ _ offset => offset.natAbs < 0x400000
  | vectorTransfer op _ _ _ => op.isMemory
  | _ => True

theorem legal_of_inRange {instr : Instruction} (hrange : instr.InRange) (hop : instr.HasLegalOp) :
    instr.Legal := by
  cases instr with
  | transfer op rd r1 => exact hop
  | transferImmediate op rd immediate => exact hop
  | branch cond link offset => exact hrange
  | vectorTransfer op vd r1 length => exact hop
  | _ => trivial

theorem legal_ofWord (w : Word) : (ofWord w).Legal := by
  rcases ofWord_cases w with hhalt | hinvalid | ⟨hrange, hop⟩
  · rw [hhalt]
    trivial
  · rw [hinvalid]
    trivial
  · exact legal_of_inRange hrange hop

-- A branch has the kind of branches.
theorem kind_of_isBranch {w : Word} (h : (ofWord w).isBranch = true) :
    w.kind = Word.branchKind := by
  unfold ofWord at h
  split at h
  · cases h
  · cases hkind : ofKind? w w.kind with
    | none =>
        rw [hkind] at h
        cases h
    | some instr =>
        rw [hkind] at h
        unfold ofKind? at hkind
        split at hkind
        case h_8 => assumption
        case h_12 => cases hkind
        all_goals
          obtain ⟨op, -, rfl⟩ := Option.map_eq_some_iff.mp hkind
          cases h

-- All stages together, on operands read from a state.
def outcome (capacity : Nat) (instr : Instruction) (address : Nat) (s : ArchState) :
    Except Fault Outcome :=
  (instr.work address s.registers s.vectors).bind fun work =>
    work.outcome capacity s.registers.holds s.memory

end Instruction

namespace ArchState

-- The next instruction of a state, in stages.
def staged (capacity : Nat) (s : ArchState) : Except Fault Outcome :=
  s.instr.outcome capacity s.address s.stepped

variable {capacity : Nat}

theorem operate_eq (s : ArchState) (op : ScalarOp) (rd : Nat) (swapped : Option Nat) (a b : Word)
    {swapped' : Option Nat} (hswap : op = .swap → swapped' = swapped) :
    s.operate op rd swapped a b =
      ((op.results rd swapped' (s.value Register.flags) a b).map fun writes =>
      (⟨writes, s.memory, none⟩ : Outcome)).map (·.apply s) := by
  cases op with
  | swap =>
      obtain rfl := hswap rfl
      cases swapped' <;> rfl
  | divide =>
      simp only [operate, ScalarOp.results, ScalarOp.apply]
      split <;> rfl
  | modulo =>
      simp only [operate, ScalarOp.results, ScalarOp.apply]
      split <;> rfl
  | _ => rfl

-- The target of a branch, and what it leaves in the link register.

def branchTarget (s : ArchState) (cond : Condition) (offset : Int) (address : Nat) : Int :=
  if cond = .ret then s.place Register.link else address + offset

def branchBack (link : Bool) (address : Nat) : Option Word :=
  if link then some (BitVec.ofNat 32 (address + 1)) else none

theorem work_branch (s : ArchState) (cond : Condition) (link : Bool) {offset : Int} {address : Nat}
    (hoffset : offset.natAbs < 0x400000) (haddress : address < Word.bound) :
    (Instruction.branch cond link offset).work address s.registers s.vectors =
      if s.branchTarget cond offset address < 0 then .error (.branchOutside address offset)
      else if link ∧ Word.bound ≤ address + 1 then .error .returnOutside
      else .ok (.action
        (.branch cond (s.branchTarget cond offset address).toNat (branchBack link address))) := by
  have hback (target : Nat) : ((do
      let back ← if link then (returnAddress address).map some else .ok none
      .ok (.action (.branch cond target back))) : Except Fault Work) =
      if link ∧ Word.bound ≤ address + 1 then .error .returnOutside
      else .ok (.action (.branch cond target (branchBack link address))) := by
    cases link with
    | false => rfl
    | true =>
        by_cases hlast : address + 1 < Word.bound
        · simp only [returnAddress, hlast, if_true, true_and, Nat.not_le.mpr hlast, if_false]
          rfl
        · simp only [returnAddress, hlast, if_true, true_and, Nat.not_lt.mp hlast, if_false]
          rfl
  simp only [Instruction.work]
  by_cases hret : cond = .ret
  · have hpos : ¬s.branchTarget cond offset address < 0 := by
      rw [branchTarget, if_pos hret]
      omega
    rw [if_neg hpos, if_pos hret, branchTarget, if_pos hret]
    exact hback _
  · rw [branchTarget, if_neg hret, if_neg hret, PipelinedProcessor.branchTarget]
    have hbounds : (address : Int) < signedBound ∧ (address : Int) + offset < signedBound := by
      simp only [signedBound, Word.bound] at *
      omega
    by_cases hneg : (address : Int) + offset < 0
    · rw [if_pos hneg, if_neg (by omega)]
      rfl
    · rw [if_neg hneg, if_pos (by omega)]
      exact hback _

theorem branch_eq (s : ArchState) (cond : Condition) (link : Bool) {offset : Int} {address : Nat}
    (hoffset : offset.natAbs < 0x400000) (haddress : address < Word.bound) :
    s.branch cond link offset address =
      ((Instruction.branch cond link offset).outcome capacity address s).map (·.apply s) := by
  rw [Instruction.outcome, s.work_branch cond link hoffset haddress, branch]
  show (if s.branchTarget cond offset address < 0 then _ else _) = _
  split
  · rfl
  · split
    · rfl
    · simp only [Except.bind, Work.outcome, Action.outcome]
      split
      · cases link <;> rfl
      · rfl

theorem effect_eq (s : ArchState) {instr : Instruction} {address : Nat} (hlegal : instr.Legal)
    (haddress : address < Word.bound) :
    s.effect capacity instr address = (instr.outcome capacity address s).map (·.apply s) := by
  cases instr with
  | scalar operands cond op rd r1 r2 =>
      cases operands with
      | direct =>
          have hswap : op = .swap → (if op = .swap then some r2 else none) = some r2 :=
            fun h => if_pos h
          rw [effect, operate_eq s op rd (some r2) _ _ hswap]
          simp only [Instruction.outcome, Instruction.work, map_bind, Work.outcome, bind_ok]
          rfl
      | indirect =>
          rw [effect, operate_eq s op rd none _ _ fun _ => rfl]
          simp only [Instruction.outcome, Instruction.work, Except.bind, Work.outcome_scalarAction]
          rfl
      | mixed =>
          rw [effect, operate_eq s op rd none _ _ fun _ => rfl]
          simp only [Instruction.outcome, Instruction.work, Except.bind, Work.outcome_scalarAction]
          rfl
  | scalarImmediate indirect op rd r1 immediate =>
      cases indirect with
      | false =>
          rw [effect, operate_eq s op rd none _ _ fun _ => rfl]
          simp only [Instruction.outcome, Instruction.work, map_bind, Work.outcome, bind_ok]
          rfl
      | true =>
          rw [effect, operate_eq s op rd none _ _ fun _ => rfl]
          simp only [Instruction.outcome, Instruction.work, Except.bind, Work.outcome_scalarAction]
          rfl
  | transfer op rd r1 => cases op <;> rfl
  | transferImmediate op rd immediate => cases op <;> rfl
  | branch cond link offset => exact s.branch_eq cond link hlegal haddress
  | vectorTransfer op vd r1 length => cases op <;> rfl
  | vector cond op vd v1 v2 length =>
      simp only [effect, Instruction.outcome, Instruction.work, map_bind,
        Work.outcome, bind_ok, map_map]
      rfl
  | vectorImmediate cond op vd v1 immediate length =>
      simp only [effect, Instruction.outcome, Instruction.work, map_bind,
        Work.outcome, bind_ok, map_map]
      rfl
  | halt => rfl
  | invalid raw => rfl

theorem address_lt (s : ArchState) : s.address < Word.bound := Word.toAddress_lt _

theorem step_of_halt {s : ArchState} (h : s.word = Word.halt) : s.step capacity = .ok none := by
  rw [step, if_pos h]

theorem step_of_word {s : ArchState} (h : s.word ≠ Word.halt) :
    s.step capacity = (s.staged capacity).map fun outcome => some (outcome.apply s.stepped) := by
  have hlegal : s.instr.Legal := Instruction.legal_ofWord s.word
  rw [step, if_neg h, effect_eq s.stepped hlegal s.address_lt, map_map]
  rfl

end ArchState

end PipelinedProcessor
