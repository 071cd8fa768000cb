import PipelinedProcessor.Proofs.Architecture.Course

namespace PipelinedProcessor

-- What the registers hold when so many instructions of a course have committed their results.
structure ResultsAt (course : Nat → ArchState) (committed : Nat) (registers : Registers)
    (vectors : VectorRegisters) :
    Prop where
  values : ∀ number ≠ Register.counter, registers.read number = (course committed).value number
  vectors_eq : vectors = (course committed).vectors

-- What the counter holds when so many have committed, have passed Memory Access and were fetched.
-- It runs ahead of the others: it steps with a fetch and jumps in Memory Access.
structure CounterAt (capacity : Nat) (course : Nat → ArchState) (committed accessed fetched : Nat)
    (registers : Registers) : Prop where
  settled : committed = fetched →
    registers.read Register.counter = (course fetched).value Register.counter
  turned : ∀ i, committed ≤ i → fetched = i + 1 → accessed = fetched →
    registers.read Register.counter = ((course i).turned capacity).read Register.counter
  stepped : ∀ i, accessed ≤ i → fetched = i + 1 →
    registers.read Register.counter = (course i).stepped.value Register.counter

section

variable {capacity : Nat} {course : Nat → ArchState} {committed accessed fetched : Nat}
  {s : ArchState} {outcome : Outcome}
  (houtcome : (course committed).staged capacity = .ok outcome)
  (hnext : course (committed + 1) = outcome.apply (course committed).stepped)

include hnext

-- The state that an instruction leaves comes from one that agrees with `s` by the same writes.
theorem value_of_next {number : Nat}
    (hsame : s.value number = (outcome.jumped (course committed).stepped.registers).read number) :
    (outcome.writes.foldl (fun s write => write.apply s) s).value number =
      (course (committed + 1)).value number := by
  rw [hnext]
  exact Outcome.value_foldl_congr hsame

-- The results of the oldest are written.

theorem ResultsAt.commit (h : ResultsAt course committed s.registers s.vectors) :
    let s' := outcome.writes.foldl (fun s write => write.apply s) s
    ResultsAt course (committed + 1) s'.registers s'.vectors := by
  refine ⟨?_, ?_⟩
  · intro number hne
    refine value_of_next hnext ?_
    rw [Outcome.read_jumped hne]
    exact (h.values number hne).trans (ArchState.read_stepped hne).symm
  · rw [hnext]
    exact Outcome.vectors_foldl_congr h.vectors_eq

include houtcome

theorem CounterAt.commit (h : CounterAt capacity course committed accessed fetched s.registers)
    (haccessed : committed < accessed) (hfetched : accessed ≤ fetched)
    (hcounter : committed + 1 < fetched →
      .scalar Register.counter ∉ (course committed).instr.writes) :
    CounterAt capacity course (committed + 1) accessed fetched
      (outcome.writes.foldl (fun s write => write.apply s) s).registers := by
  have hkept (hlt : committed + 1 < fetched) :
      (outcome.writes.foldl (fun s write => write.apply s) s).value Register.counter =
        s.value Register.counter := by
    have hagrees :
        (outcome.writes.foldl (fun s write => write.apply s) s).Agrees s
          (.scalar Register.counter) := by
      refine Outcome.foldl_agrees ?_
      intro write hwrite htarget
      exact hcounter hlt (htarget ▸ ArchState.staged_writes houtcome write hwrite)
    exact hagrees
  refine ⟨?_, ?_, ?_⟩
  · intro hlast
    rw [← hlast]
    refine value_of_next hnext ?_
    rw [← ArchState.turned_of_ok houtcome]
    exact h.turned committed (Nat.le_refl _) hlast.symm (by omega)
  · intro i hi hfetch haccess
    exact (hkept (by omega)).trans (h.turned i (by omega) hfetch haccess)
  · intro i hi hfetch
    exact (hkept (by omega)).trans (h.stepped i hi hfetch)

end

section

variable {capacity : Nat} {course : Nat → ArchState} {committed accessed fetched : Nat}
  {registers : Registers} {vectors : VectorRegisters}

-- An instruction passes Memory Access. It was fetched last if it jumps.

theorem ResultsAt.jump (h : ResultsAt course committed registers vectors) (outcome : Outcome) :
    ResultsAt course committed (outcome.jumped registers) vectors := by
  refine ⟨?_, h.vectors_eq⟩
  intro number hne
  rw [Outcome.read_jumped hne]
  exact h.values number hne

theorem CounterAt.jump (h : CounterAt capacity course committed accessed fetched registers)
    {outcome : Outcome} (houtcome : (course accessed).staged capacity = .ok outcome)
    (hcommitted : committed ≤ accessed) (hfetched : accessed < fetched)
    (hstraight : accessed + 1 < fetched → outcome.jump = none) :
    CounterAt capacity course committed (accessed + 1) fetched (outcome.jumped registers) := by
  refine ⟨by omega, ?_, ?_⟩
  · intro i hi hfetch haccess
    obtain rfl : i = accessed := by omega
    rw [ArchState.turned_of_ok houtcome]
    refine Outcome.read_jumped_congr ?_
    exact h.stepped i (Nat.le_refl _) hfetch
  · intro i hi hfetch
    rw [Outcome.jumped_of_none (hstraight (by omega))]
    exact h.stepped i (by omega) hfetch

-- A word is fetched from where the counter is.

theorem ResultsAt.fetch (h : ResultsAt course committed registers vectors) :
    ResultsAt course committed registers.stepCounter vectors := by
  refine ⟨?_, h.vectors_eq⟩
  intro number hne
  rw [← h.values number hne, Registers.stepCounter, Registers.read_write, if_neg]
  rintro ⟨rfl, -⟩
  exact hne rfl

theorem counterAt_fetch (hcounter : registers.read Register.counter =
    (course fetched).value Register.counter) (hcommitted : committed ≤ accessed)
    (haccessed : accessed ≤ fetched) :
    CounterAt capacity course committed accessed (fetched + 1) registers.stepCounter := by
  refine ⟨by omega, by omega, ?_⟩
  intro i hi hfetch
  obtain rfl : i = fetched := by omega
  show registers.stepCounter.read Register.counter =
    (course i).registers.stepCounter.read Register.counter
  have hsame : registers.read Register.counter = (course i).registers.read Register.counter :=
    hcounter
  rw [Registers.stepCounter, Registers.stepCounter, Registers.read_write,
    Registers.read_write, hsame]

end

end PipelinedProcessor
