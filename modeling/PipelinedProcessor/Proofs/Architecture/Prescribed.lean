import PipelinedProcessor.Proofs.Architecture.Decomposition

namespace PipelinedProcessor

namespace ArchState

variable {s : ArchState} {cond : Condition} {link : Bool} {offset : Int} {address capacity : Nat}

-- What a branch that is taken leaves.
def jumped (link : Bool) (address target : Nat) (s : ArchState) : ArchState :=
  let there := { s with registers := s.registers.setCounter target }
  if link then there.write Register.link (BitVec.ofNat 32 (address + 1)) else there

-- A branch as the instruction set is documented. One that is not taken does nothing. Only one that
-- is taken needs its target, and the address to return to if it links, and these have to be
-- addresses.
def prescribedBranch (cond : Condition) (link : Bool) (offset : Int) (address : Nat)
    (s : ArchState) :
    Except Fault ArchState :=
  let target := s.branchTarget cond offset address
  if s.registers.holds cond then
    if target < 0 then .error (.branchOutside address offset)
    else if link ∧ Word.bound ≤ address + 1 then .error .returnOutside
    else if Word.bound ≤ target.toNat then .error (.branchOutside address offset)
    else .ok (s.jumped link address target.toNat)
  else .ok s

-- All other instructions have the effect that they are documented with.
def prescribedStep (capacity : Nat) (s : ArchState) : Except Fault (Option ArchState) :=
  if s.word = Word.halt then .ok none
  else
    (match s.instr with
      | .branch cond link offset => s.stepped.prescribedBranch cond link offset s.address
      | instr => s.stepped.effect capacity instr s.address).map some

def prescribedNext (capacity : Nat) (s : ArchState) : ArchState :=
  match s.prescribedStep capacity with
  | .ok (some after) => after
  | _ => s

def prescribedAfter (capacity : Nat) : Nat → ArchState → ArchState
  | 0, s => s
  | n + 1, s => (s.prescribedAfter capacity n).prescribedNext capacity

-- A branch that is not taken and faults nevertheless.
def FaultsUntaken (cond : Condition) (link : Bool) (offset : Int) (address : Nat) (s : ArchState) :
    Prop :=
  s.registers.holds cond = false ∧
    (s.branchTarget cond offset address < 0 ∨ link = true ∧ Word.bound ≤ address + 1)

-- A branch that is taken to a target past the last address and does not fault.
def JumpsPastEnd (cond : Condition) (link : Bool) (offset : Int) (address : Nat) (s : ArchState) :
    Prop :=
  s.registers.holds cond = true ∧ Word.bound ≤ (s.branchTarget cond offset address).toNat ∧
    ¬(link = true ∧ Word.bound ≤ address + 1)

-- Whether the next instruction is a branch that does what it should not.
def Strays (s : ArchState) : Prop :=
  ∃ cond link offset, s.instr = .branch cond link offset ∧
    (s.stepped.FaultsUntaken cond link offset s.address ∨
      s.stepped.JumpsPastEnd cond link offset s.address)

theorem branch_eq_jumped (cond : Condition) (link : Bool) (offset : Int) (address : Nat)
    (s : ArchState) :
    s.branch cond link offset address =
      if s.branchTarget cond offset address < 0 then .error (.branchOutside address offset)
      else if link ∧ Word.bound ≤ address + 1 then .error .returnOutside
      else if s.registers.holds cond then
        .ok (s.jumped link address (s.branchTarget cond offset address).toNat)
      else .ok s := rfl

-- The two exceptions are all that there are.
theorem branch_eq_prescribed_iff :
    s.branch cond link offset address = s.prescribedBranch cond link offset address ↔
      ¬(s.FaultsUntaken cond link offset address ∨ s.JumpsPastEnd cond link offset address) := by
  rw [branch_eq_jumped, prescribedBranch, FaultsUntaken, JumpsPastEnd]
  generalize s.branchTarget cond offset address = target
  by_cases hneg : target < 0
  · have hzero : target.toNat = 0 := Int.toNat_of_nonpos (Int.le_of_lt hneg)
    cases hholds : s.registers.holds cond with
    | false => simp [hneg]
    | true => simp [hneg, hzero]
  by_cases hlast : link = true ∧ Word.bound ≤ address + 1
  · cases hholds : s.registers.holds cond with
    | false => simp [hneg, hlast]
    | true => simp [hneg, hlast]
  cases hholds : s.registers.holds cond with
  | false => simp [hneg, hlast]
  | true =>
      by_cases hbound : Word.bound ≤ target.toNat
      · simp [hneg, hlast, hbound]
      · simp [hneg, hlast, hbound]

theorem strays_of_branch (h : s.instr = .branch cond link offset) :
    s.Strays ↔ s.stepped.FaultsUntaken cond link offset s.address ∨
      s.stepped.JumpsPastEnd cond link offset s.address := by
  constructor
  · rintro ⟨cond', link', offset', hinstr, hstrays⟩
    obtain ⟨rfl, rfl, rfl⟩ := Instruction.branch.inj (h.symm.trans hinstr)
    exact hstrays
  · intro hstrays
    exact ⟨cond, link, offset, h, hstrays⟩

theorem prescribedStep_of_untaken (hword : s.word ≠ Word.halt)
    (hinstr : s.instr = .branch cond link offset) (hholds : s.stepped.registers.holds cond =
      false) : s.prescribedStep capacity = .ok (some s.stepped) := by
  rw [prescribedStep, if_neg hword, hinstr]
  simp only [prescribedBranch, hholds]
  rfl

theorem step_eq_prescribed_iff : s.step capacity = s.prescribedStep capacity ↔ ¬s.Strays := by
  rw [step, prescribedStep]
  by_cases hhalt : s.word = Word.halt
  · have hinstr : s.instr = .halt := by
      rw [instr, hhalt]
      rfl
    simp [hhalt, Strays, hinstr]
  rw [if_neg hhalt, if_neg hhalt]
  cases hinstr : s.instr with
  | branch cond link offset =>
      have hsome : Function.Injective (Except.map some : Except Fault ArchState → _) := by
        rintro (_ | _) (_ | _) h <;> cases h <;> rfl
      rw [strays_of_branch hinstr, ← branch_eq_prescribed_iff]
      exact hsome.eq_iff
  | _ => simp [Strays, hinstr]

-- Up to the first branch that strays the two interpreters go through the same states.
theorem prescribedAfter_eq {n : Nat} (h : ∀ i < n, ¬(s.after capacity i).Strays) :
    s.prescribedAfter capacity n = s.after capacity n := by
  induction n with
  | zero => rfl
  | succ n ih =>
      have hbefore := ih fun i hi => h i (Nat.lt_succ_of_lt hi)
      have hstep : (s.after capacity n).step capacity =
          (s.after capacity n).prescribedStep capacity :=
        step_eq_prescribed_iff.mpr (h n (Nat.lt_succ_self n))
      rw [prescribedAfter, hbefore, prescribedNext, ← hstep]
      rfl

end ArchState

end PipelinedProcessor
