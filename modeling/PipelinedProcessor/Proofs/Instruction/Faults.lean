import PipelinedProcessor.Proofs.Architecture.Decomposition

namespace PipelinedProcessor

-- A list of results fails with one of them.
theorem error_of_mapM {α β : Type} {f : α → Except Fault β} {cause : Fault} {l : List α}
    (h : l.mapM f = .error cause) : ∃ a ∈ l, f a = .error cause := by
  induction l with
  | nil =>
      rw [List.mapM_nil] at h
      cases h
  | cons a rest ih =>
      rw [List.mapM_cons] at h
      cases hfirst : f a with
      | error cause' =>
          rw [hfirst] at h
          obtain rfl := Except.error.inj h
          exact ⟨a, List.mem_cons_self, hfirst⟩
      | ok b =>
          rw [hfirst] at h
          cases hrest : rest.mapM f with
          | error cause' =>
              rw [hrest] at h
              obtain rfl := Except.error.inj h
              obtain ⟨a', ha', hfault⟩ := ih hrest
              exact ⟨a', List.mem_cons_of_mem _ ha', hfault⟩
          | ok bs =>
              rw [hrest] at h
              cases h

-- Only a division and a modulo look at what they are given, and only at the second operand.

theorem ScalarOp.apply_fault {op : ScalarOp} {a b : Word} {cause : Fault} (hop : op.isAlu = true)
    (hflag : op ≠ .setFlag) (h : op.apply a b = .error cause) :
    b = 0 ∧ (op = .divide ∧ cause = .divisionByZero a ∨
      op = .modulo ∧ cause = .moduloByZero a) := by
  cases op with
  | divide =>
      simp only [apply] at h
      split at h
      · rename_i hzero
        exact ⟨hzero, .inl ⟨rfl, (Except.error.inj h).symm⟩⟩
      · cases h
  | modulo =>
      simp only [apply] at h
      split at h
      · rename_i hzero
        exact ⟨hzero, .inr ⟨rfl, (Except.error.inj h).symm⟩⟩
      · cases h
  | setFlag => exact absurd rfl hflag
  | load => cases hop
  | store => cases hop
  | _ => cases h

theorem ScalarOp.results_fault {op : ScalarOp} {rd : Nat} {swapped : Option Nat} {flags a b : Word}
    {cause : Fault} (hop : op.isAlu = true) (h : op.results rd swapped flags a b = .error cause) :
    b = 0 ∧ (op = .divide ∧ cause = .divisionByZero a ∨
      op = .modulo ∧ cause = .moduloByZero a) := by
  cases op with
  | divide => exact apply_fault hop nofun (error_of_map h)
  | modulo => exact apply_fault hop nofun (error_of_map h)
  | load => cases hop
  | store => cases hop
  | _ => cases h

theorem VectorOp.apply_fault {op : VectorOp} {a b : Word} {cause : Fault} (hop : op.isAlu = true)
    (h : op.apply a b = .error cause) : b = 0 ∧ op = .divide ∧ cause = .divisionByZero a := by
  cases op with
  | divide =>
      have halu : ScalarOp.divide.isAlu = true := rfl
      obtain ⟨hzero, ⟨-, hcause⟩ | ⟨hmodulo, -⟩⟩ := ScalarOp.apply_fault halu nofun h
      · exact ⟨hzero, rfl, hcause⟩
      · cases hmodulo
  | append => cases hop
  | load => cases hop
  | store => cases hop
  | _ => cases h

theorem VectorOp.slots_fault {op : VectorOp} {a b : Nat → Slot} {length : Nat} {cause : Fault}
    (hop : op.isAlu = true) (h : op.slots a b length = .error cause) :
    ∃ i < length, ∃ dividend, a i = some dividend ∧ b i = some 0 ∧ op = .divide ∧
    cause = .divisionByZero dividend := by
  obtain ⟨i, hi, hslot⟩ := error_of_mapM h
  refine ⟨i, List.mem_range.mp hi, ?_⟩
  cases ha : a i with
  | none =>
      rw [ha] at hslot
      cases hslot
  | some x =>
      cases hb : b i with
      | none =>
          rw [ha, hb] at hslot
          cases hslot
      | some y =>
          rw [ha, hb] at hslot
          obtain ⟨rfl, hdivide, hcause⟩ := apply_fault hop (error_of_map hslot)
          exact ⟨x, rfl, rfl, hdivide, hcause⟩

namespace Instruction

-- The operation of a vector arithmetic instruction.
def vectorOp? : Instruction → Option VectorOp
  | vector _ op .. => some op
  | vectorImmediate _ op .. => some op
  | _ => none

-- The faults that are a program's own: there is nothing to divide by, a branch leads below the
-- first address, or the address to return to is past the last one.
inductive Faults (instr : Instruction) (address : Nat) : Fault → Prop where
  | division (dividend : Word) (hop : instr.scalarOp? = some .divide ∨
      instr.vectorOp? = some .divide) :
      Faults instr address (.divisionByZero dividend)
  | modulo (dividend : Word) (hop : instr.scalarOp? = some .modulo) :
      Faults instr address (.moduloByZero dividend)
  | target {cond : Condition} {link : Bool} {offset : Int}
      (hinstr : instr = branch cond link offset)
      (hcond : cond ≠ .ret) (hbelow : (address : Int) + offset < 0) :
      Faults instr address (.branchOutside address offset)
  | back {cond : Condition} {offset : Int} (hinstr : instr = branch cond true offset)
      (hlast : address + 1 = Word.bound) : Faults instr address .returnOutside

variable {instr : Instruction} {address : Nat} {registers : Registers} {vectors : VectorRegisters}
  {cause : Fault}

theorem isAlu_of_scalarOp? {w : Word} {op : ScalarOp} (h : (ofWord w).scalarOp? = some op) :
    op.isAlu = true := by
  rcases ofWord_cases w with hhalt | hinvalid | ⟨-, hop⟩
  · rw [hhalt] at h
    cases h
  · rw [hinvalid] at h
    cases h
  · generalize ofWord w = instr at h hop
    cases instr with
    | scalar operands cond op' rd r1 r2 =>
        obtain rfl := Option.some.inj h
        exact hop
    | scalarImmediate indirect op' rd r1 immediate =>
        obtain rfl := Option.some.inj h
        exact hop
    | _ => cases h

theorem faults_of_results {op : ScalarOp} {rd : Nat} {swapped : Option Nat} {flags a b : Word}
    (hop : op.isAlu = true) (hinstr : instr.scalarOp? = some op)
    (h : op.results rd swapped flags a b = .error cause) : instr.Faults address cause := by
  obtain ⟨-, ⟨rfl, rfl⟩ | ⟨rfl, rfl⟩⟩ := ScalarOp.results_fault hop h
  · exact .division a (.inl hinstr)
  · exact .modulo a hinstr

theorem faults_of_slots {op : VectorOp} {a b : Nat → Slot} {length : Nat} (hop : op.isAlu = true)
    (hinstr : instr.vectorOp? = some op) (h : op.slots a b length = .error cause) :
    instr.Faults address cause := by
  obtain ⟨-, -, dividend, -, -, rfl, rfl⟩ := VectorOp.slots_fault hop h
  exact .division dividend (.inr hinstr)

theorem faults_of_branch {cond : Condition} {link : Bool} {offset : Int}
    (hoffset : offset.natAbs < 0x400000) (haddress : address < Word.bound)
    (h : (branch cond link offset).work address registers vectors = .error cause) :
    (branch cond link offset).Faults address cause := by
  have hwork := ArchState.work_branch ⟨registers, vectors, fun _ => 0⟩ cond link hoffset haddress
  rw [hwork] at h
  split at h
  · rename_i hbelow
    obtain rfl := Except.error.inj h
    by_cases hret : cond = .ret
    · rw [ArchState.branchTarget, if_pos hret] at hbelow
      omega
    · rw [ArchState.branchTarget, if_neg hret] at hbelow
      exact .target rfl hret hbelow
  · split at h
    · rename_i hlast
      obtain rfl := Except.error.inj h
      obtain ⟨rfl, hle⟩ := hlast
      exact .back rfl (by omega)
    · cases h

-- An instruction that a word stands for fails in Execute with a fault of its own only.
theorem faults_of_work {w : Word} (haddress : address < Word.bound)
    (h : (ofWord w).work address registers vectors = .error cause) :
    (ofWord w).Faults address cause := by
  rcases ofWord_cases w with hhalt | hinvalid | ⟨hrange, hop⟩
  · rw [hhalt] at h
    cases h
  · rw [hinvalid] at h
    cases h
  · generalize ofWord w = instr at h hrange hop ⊢
    cases instr with
    | scalar operands cond op rd r1 r2 =>
        cases operands with
        | direct => exact faults_of_results hop rfl (error_of_map h)
        | indirect => cases h
        | mixed => cases h
    | scalarImmediate indirect op rd r1 immediate =>
        cases indirect with
        | false => exact faults_of_results hop rfl (error_of_map h)
        | true => cases h
    | transfer op rd r1 => cases op <;> cases h
    | transferImmediate op rd immediate => cases op <;> cases h
    | branch cond link offset => exact faults_of_branch hrange haddress h
    | vectorTransfer op vd r1 length => cases op <;> cases h
    | vector cond op vd v1 v2 length => exact faults_of_slots hop rfl (error_of_map h)
    | vectorImmediate cond op vd v1 immediate length =>
        exact faults_of_slots hop rfl (error_of_map h)
    | halt => cases h
    | invalid raw => cases h

end Instruction

end PipelinedProcessor
