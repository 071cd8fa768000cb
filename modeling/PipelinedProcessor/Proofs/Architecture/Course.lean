import PipelinedProcessor.Proofs.Architecture.Dependence

namespace PipelinedProcessor

theorem Registers.counter_stepCounter (registers : Registers) :
    registers.stepCounter.counter = (registers.counter + 1) % Word.bound := by
  show ((registers.write Register.counter _).read Register.counter).toNat = _
  rw [read_write, if_pos ⟨rfl, by decide⟩, BitVec.toNat_add]
  rfl

namespace Outcome

variable {outcome : Outcome} {registers : Registers}

theorem jumped_of_none (h : outcome.jump = none) : outcome.jumped registers = registers := by
  rw [jumped, h]
  rfl

theorem read_jumped {number : Nat} (h : number ≠ Register.counter) :
    (outcome.jumped registers).read number = registers.read number := by
  cases hjump : outcome.jump with
  | none => rw [jumped_of_none hjump]
  | some target =>
      rw [jumped, hjump]
      show (registers.setCounter target).read number = _
      rw [Registers.setCounter, Registers.read_write, if_neg]
      rintro ⟨rfl, -⟩
      exact h rfl

theorem read_jumped_congr {registers' : Registers} {number : Nat}
    (h : registers.read number = registers'.read number) :
    (outcome.jumped registers).read number = (outcome.jumped registers').read number := by
  cases hjump : outcome.jump with
  | none => rw [jumped_of_none hjump, jumped_of_none hjump, h]
  | some target =>
      rw [jumped, jumped, hjump]
      show (registers.setCounter target).read number = (registers'.setCounter target).read number
      rw [Registers.setCounter, Registers.setCounter, Registers.read_write, Registers.read_write, h]

theorem apply_agrees {s : ArchState} {r : Register}
    (hr : ∀ write ∈ outcome.writes, write.target ≠ r) (hcounter : r ≠ .scalar Register.counter) :
    (outcome.apply s).Agrees s r := by
  refine (foldl_agrees hr).trans ?_
  cases r with
  | scalar number =>
      refine read_jumped ?_
      rintro rfl
      exact hcounter rfl
  | vector number => rfl

end Outcome

namespace ArchState

variable {capacity : Nat} {s t : ArchState} {outcome : Outcome}

theorem ext_of_read (hread : ∀ number, s.registers.read number = t.registers.read number)
    (hvectors : s.vectors = t.vectors) (hmemory : ∀ x, s.memory x = t.memory x) : s = t := by
  obtain ⟨⟨words⟩, vectors, memory⟩ := s
  obtain ⟨⟨words'⟩, vectors', memory'⟩ := t
  have hwords : words = words' := by
    refine Vector.ext fun i hi => ?_
    have hi' := hread i
    simpa [Registers.read, hi] using hi'
  obtain rfl := hwords
  obtain rfl : vectors = vectors' := hvectors
  obtain rfl : memory = memory' := funext hmemory
  rfl

theorem read_stepped {number : Nat} (h : number ≠ Register.counter) :
    s.stepped.value number = s.value number := by
  show (s.registers.stepCounter).read number = _
  rw [Registers.stepCounter, Registers.read_write, if_neg]
  · rfl
  · rintro ⟨rfl, -⟩
    exact h rfl

theorem stepped_agrees {r : Register} (h : r ≠ .scalar Register.counter) :
    s.stepped.Agrees s r := by
  cases r with
  | scalar number =>
      refine read_stepped ?_
      rintro rfl
      exact h rfl
  | vector number => rfl

theorem staged_of_step (h : s.step capacity = .ok (some t)) :
    s.word ≠ Word.halt ∧ ∃ outcome, s.staged capacity = .ok outcome ∧
    outcome.apply s.stepped = t := by
  by_cases hword : s.word = Word.halt
  · rw [step_of_halt hword] at h
    cases h
  · rw [step_of_word hword] at h
    obtain ⟨outcome, houtcome, happly⟩ := ok_of_map h
    exact ⟨hword, outcome, houtcome, Option.some.inj happly⟩

theorem step_of_staged (hword : s.word ≠ Word.halt) (h : s.staged capacity = .ok outcome) :
    s.step capacity = .ok (some (outcome.apply s.stepped)) := by
  rw [step_of_word hword, h]
  rfl

theorem step_of_fault {fault : Fault} (hword : s.word ≠ Word.halt)
    (h : s.staged capacity = .error fault) :
    s.step capacity = .error fault := by
  rw [step_of_word hword, h]
  rfl

theorem next_of_step (h : s.step capacity = .ok (some t)) : s.next capacity = t := by
  rw [next, h]

theorem next_of_stuck (h : ∀ t, s.step capacity ≠ .ok (some t)) : s.next capacity = s := by
  unfold next
  split
  · rename_i t ht
    exact absurd ht (h t)
  · rfl

theorem outcome_memory {instr : Instruction} {address : Nat} (hlegal : instr.Legal)
    (h : instr.outcome capacity address s = .ok outcome) {x : Nat}
    (hx : ∀ y ∈ s.targets instr, x % capacity ≠ y % capacity) : outcome.memory x = s.memory x := by
  obtain ⟨work, hwork, houtcome⟩ := ok_of_bind h
  have hwithin := Instruction.work_within hlegal hwork
  cases work with
  | nothing =>
      obtain rfl := Except.ok.inj houtcome
      rfl
  | results writes =>
      obtain rfl := Except.ok.inj houtcome
      rfl
  | action todo =>
      refine Action.outcome_memory houtcome ?_
      intro hstores
      obtain ⟨y, hy, heq⟩ := hwithin.targets hstores
      exact hx y hy heq

theorem legal_instr (s : ArchState) : s.instr.Legal := Instruction.legal_ofWord s.word

theorem staged_writes (h : s.staged capacity = .ok outcome) :
    ∀ write ∈ outcome.writes, write.target ∈ s.instr.writes := by
  obtain ⟨work, hwork, houtcome⟩ := ok_of_bind h
  exact ((Instruction.work_within s.legal_instr hwork).outcome houtcome).1

theorem staged_jump (h : s.staged capacity = .ok outcome) (hkind : s.word.kind ≠ Word.branchKind) :
    outcome.jump = none := by
  obtain ⟨work, hwork, houtcome⟩ := ok_of_bind h
  have hbranch := ((Instruction.work_within s.legal_instr hwork).outcome houtcome).2
  cases hjump : outcome.jump with
  | none => rfl
  | some target => exact absurd (Instruction.kind_of_isBranch (hbranch (by rw [hjump]; rfl))) hkind

theorem staged_memory (h : s.staged capacity = .ok outcome) {x : Nat}
    (hx : ∀ y ∈ s.storeTargets, x % capacity ≠ y % capacity) : outcome.memory x = s.memory x :=
  outcome_memory s.legal_instr h hx

-- The registers after the jump, before the results are written.
def turned (capacity : Nat) (s : ArchState) : Registers :=
  match s.staged capacity with
  | .ok outcome => outcome.jumped s.stepped.registers
  | .error _ => s.stepped.registers

theorem turned_of_ok (h : s.staged capacity = .ok outcome) :
    s.turned capacity = outcome.jumped s.stepped.registers := by
  rw [turned, h]

-- Only a branch jumps.
theorem turned_of_straight (hkind : s.word.kind ≠ Word.branchKind) :
    s.turned capacity = s.stepped.registers := by
  unfold turned
  split
  · rename_i outcome h
    exact Outcome.jumped_of_none (staged_jump h hkind)
  · rfl

-- The next state has what it does not share with this one from the instruction.

theorem next_cases (capacity : Nat) (s : ArchState) :
    (∃ outcome, s.staged capacity = .ok outcome ∧ s.next capacity = outcome.apply s.stepped) ∨
      s.next capacity = s := by
  by_cases hstep : ∃ t, s.step capacity = .ok (some t)
  · obtain ⟨t, ht⟩ := hstep
    obtain ⟨-, outcome, houtcome, rfl⟩ := staged_of_step ht
    exact .inl ⟨outcome, houtcome, next_of_step ht⟩
  · exact .inr (next_of_stuck fun t ht => hstep ⟨t, ht⟩)

theorem next_agrees {r : Register} (hr : r ∉ s.instr.writes)
    (hcounter : r ≠ .scalar Register.counter) :
    (s.next capacity).Agrees s r := by
  rcases next_cases capacity s with ⟨outcome, houtcome, hnext⟩ | hsame
  · rw [hnext]
    refine (Outcome.apply_agrees ?_ hcounter).trans (stepped_agrees hcounter)
    rintro write hwrite rfl
    exact hr (staged_writes houtcome write hwrite)
  · rw [hsame]
    exact .refl s r

theorem next_memory {x : Nat} (hx : ∀ y ∈ s.storeTargets, x % capacity ≠ y % capacity) :
    (s.next capacity).memory x = s.memory x := by
  rcases next_cases capacity s with ⟨outcome, houtcome, hnext⟩ | hsame
  · rw [hnext, Outcome.memory_apply]
    exact staged_memory houtcome hx
  · rw [hsame]

theorem counter_next (hstep : ∃ t, s.step capacity = .ok (some t))
    (hcounter : .scalar Register.counter ∉ s.instr.writes) :
    (s.next capacity).value Register.counter = (s.turned capacity).read Register.counter := by
  obtain ⟨t, ht⟩ := hstep
  obtain ⟨-, outcome, houtcome, rfl⟩ := staged_of_step ht
  rw [next_of_step ht, turned_of_ok houtcome]
  have hagrees : (outcome.apply s.stepped).Agrees
      { s.stepped with registers := outcome.jumped s.stepped.registers, memory := outcome.memory }
      (.scalar Register.counter) := by
    refine Outcome.foldl_agrees ?_
    intro write hwrite htarget
    exact hcounter (htarget ▸ staged_writes houtcome write hwrite)
  exact hagrees

end ArchState

-- Whether an instruction leaves the counter to Fetch and to the branches.
def ArchState.Spares (s : ArchState) : Prop :=
  .scalar Register.counter ∉ s.instr.reads ∧ .scalar Register.counter ∉ s.instr.writes

instance (s : ArchState) : Decidable s.Spares := inferInstanceAs (Decidable (_ ∧ _))

theorem ArchState.spares_of_halt {s : ArchState} (h : s.word = Word.halt) : s.Spares := by
  rw [Spares, instr, h]
  decide

-- The first instructions of a course may overlap if none names the counter and none stores to a
-- word from which a later one, or the one after the last, is fetched.
structure Separable (capacity : Nat) (course : Nat → ArchState) (last : Nat) : Prop where
  counter : ∀ i < last, .scalar Register.counter ∉ (course i).instr.reads ∧
    .scalar Register.counter ∉ (course i).instr.writes
  stores : ∀ i j, i < j → j ≤ last → ∀ x ∈ (course i).storeTargets,
    x % capacity ≠ (course j).address % capacity

-- The same for a course that goes on so far.
structure Runnable (capacity : Nat) (course : Nat → ArchState) (last : Nat) : Prop
    extends Separable capacity course last where
  runs : ∀ i < last, ∃ t, (course i).step capacity = .ok (some t)

-- The same for a course that ends at the word that halts.
structure Overlappable (capacity : Nat) (course : Nat → ArchState) (last : Nat) : Prop
    extends Separable capacity course last where
  halts : (course last).word = Word.halt
  runs : ∀ i < last, ∃ t, (course i).step capacity = .ok (some t)

theorem Overlappable.runnable {capacity last : Nat} {course : Nat → ArchState}
    (h : Overlappable capacity course last) : Runnable capacity course last :=
  ⟨h.toSeparable, h.runs⟩

section Course

variable {capacity : Nat} {course : Nat → ArchState}
  (hcourse : ∀ n, course (n + 1) = (course n).next capacity)

include hcourse

-- A register stays as it is until an instruction writes it.
theorem agrees_of_unwritten {r : Register} (hcounter : r ≠ .scalar Register.counter) {i j : Nat}
    (hij : i ≤ j) (hr : ∀ k, i ≤ k → k < j → r ∉ (course k).instr.writes) :
    (course j).Agrees (course i) r := by
  induction j with
  | zero =>
      obtain rfl : i = 0 := by omega
      exact .refl _ r
  | succ j ih =>
      by_cases hlast : i = j + 1
      · subst hlast
        exact .refl _ r
      · rw [hcourse]
        exact (ArchState.next_agrees (hr j (by omega) (by omega)) hcounter).trans
          (ih (by omega) fun k hk hlt => hr k hk (by omega))

theorem Separable.memory_eq {last : Nat} (h : Separable capacity course last) {i j : Nat}
    (hij : i ≤ j) (hj : j ≤ last) : (course i).memory (course j).address = (course j).word := by
  have hsame (k : Nat) (hik : i ≤ k) (hkj : k ≤ j) :
      (course i).memory (course j).address = (course k).memory (course j).address := by
    induction k with
    | zero =>
        obtain rfl : i = 0 := by omega
        rfl
    | succ k ih =>
        by_cases hlast : i = k + 1
        · rw [hlast]
        · rw [ih (by omega) (by omega), hcourse, ArchState.next_memory]
          intro x hx heq
          exact h.stores k j (by omega) hj x hx heq.symm
  exact hsame j hij (Nat.le_refl j)

theorem Runnable.counter_succ {last : Nat} (h : Runnable capacity course last) {i : Nat}
    (hi : i < last) :
    (course (i + 1)).value Register.counter =
      ((course i).turned capacity).read Register.counter := by
  rw [hcourse]
  exact ArchState.counter_next (h.runs i hi) (h.counter i hi).2

end Course

end PipelinedProcessor
