import PipelinedProcessor.Proofs.Architecture.Prescribed
import PipelinedProcessor.Proofs.Architecture.Wrapping
import PipelinedProcessor.Proofs.Machine.Runs

namespace PipelinedProcessor

open LawfulStorage LiveStorage

-- Every address names the word that it names modulo the capacity.
theorem Cache.view_wraps (cache : Cache) : MemoryView.Wraps cache.memory.capacity cache.view := by
  intro address
  have hline : cache.memory.lineStart (address % cache.memory.capacity) =
      cache.memory.lineStart address :=
    cache.memory.lineStart_wrap address
  have hoffset : cache.memory.offset (address % cache.memory.capacity) =
      cache.memory.offset address :=
    cache.memory.offset_wrap address
  rw [view_eq, view_eq, hoffset, cache.viewLine_congr hline]

namespace Machine

-- A run whose retirements are the steps of the interpreter from a state, one after the other.
structure Interprets (capacity : Nat) (s : ArchState) (machine : Machine) : Prop where
  start : machine.state = s
  -- after any number of cycles those that have retired are the first of its instructions
  runs : ∀ n, s.Runs capacity (machine.after n).pipeline.retired
  retirements : ∀ n, machine.retirements n =
    (s.trace capacity (machine.after n).pipeline.retired).map fun entry =>
      (some entry.1, some entry.2)
  single : ∀ n, (machine.after (n + 1)).pipeline.retired ≤ (machine.after n).pipeline.retired + 1
  agrees : ∀ n, (machine.after (n + 1)).pipeline.retired ≠ (machine.after n).pipeline.retired →
    (machine.after (n + 1)).state = s.after capacity (machine.after (n + 1)).pipeline.retired
  -- the words are those at the counter modulo the capacity
  fetches : ∀ k, (s.after capacity k).word =
    (s.after capacity k).memory ((s.after capacity k).address % capacity)
  -- it goes as far as the interpreter, and ends as it does
  reaches : ∀ k, s.Runs capacity k → ∃ n, (machine.after n).pipeline.retired = k
  halts : ∀ k, s.Runs capacity k → (s.after capacity k).step capacity = .ok none →
    ∃ n, (machine.after n).step.1 = .ok .halted
  faults : ∀ k cause, s.Runs capacity k → (s.after capacity k).step capacity = .error cause →
    ∃ n, (machine.after n).step.1 = .error cause
  halted : ∀ n k, (machine.after n).step.1 = .ok .halted →
    (machine.after (n + 1)).pipeline.retired = k →
    (s.after capacity k).step capacity = .ok none ∧
    (machine.after (n + 1)).state = s.after capacity k ∧
      (machine.after (n + 1)).pipeline.haltId = some k
  faulted : ∀ n k cause, (machine.after n).step.1 = .error cause →
    (machine.after (n + 1)).pipeline.retired = k →
    (s.after capacity k).step capacity = .error cause

end Machine

open Machine

section

variable {σ : Type} [Storage σ] [LawfulStorage σ] [LiveStorage σ] {port : Port σ}
  {capacity last : Nat} {s : ArchState} {machine : Machine}

theorem Port.Going.interprets (h : port.Going capacity (fun n => s.after capacity n) last machine)
    (hserial : machine.pipeline.pipelined = false) (hzero : machine.pipeline.retired = 0)
    (hstart : machine.state = s) (hwraps : s.memory.Wraps capacity) :
    machine.Interprets capacity s := by
  have hcourse (n : Nat) : s.after capacity (n + 1) = (s.after capacity n).next capacity := rfl
  refine ⟨hstart, h.runs_after hcourse, ?_, ?_, ?_, ?_, ?_, ?_, ?_, ?_, ?_⟩
  · intro n
    rw [h.retirements_eq hcourse hzero, ArchState.trace, List.map_map]
    rfl
  · intro n
    rcases h.retiring_after hcourse n with ⟨hretired, -⟩ | ⟨hretired, -⟩ <;> omega
  · intro n hretired
    exact h.state_after hcourse hserial hretired
  · intro k
    exact (ArchState.after_wraps hwraps k _).symm
  · intro k hruns
    exact h.reaches hcourse hzero hruns
  · intro k hruns hlast
    obtain ⟨n, -, hhalted | ⟨cause, -, hfault⟩⟩ := h.ends hcourse hzero hruns (by simp [hlast])
    · exact ⟨n, hhalted⟩
    · rw [hlast] at hfault
      cases hfault
  · intro k cause hruns hlast
    obtain ⟨n, hretired, hhalted | ⟨cause', hanswer, hfault⟩⟩ :=
      h.ends hcourse hzero hruns (by simp [hlast])
    · obtain ⟨hword, -⟩ := h.halted_after hcourse hhalted
      rw [hretired] at hword
      rw [ArchState.step_of_halt hword] at hlast
      cases hlast
    · rw [hlast] at hfault
      obtain rfl := Except.error.inj hfault
      exact ⟨n, hanswer⟩
  · rintro n k hanswer rfl
    obtain ⟨hword, hstate, hhalt⟩ := h.halted_after hcourse hanswer
    exact ⟨ArchState.step_of_halt hword, hstate, hhalt⟩
  · rintro n k cause hanswer rfl
    exact (h.faulted_after hcourse hanswer).2

theorem Port.interprets_of_good (hgood : port.Good machine.cache) (address : Nat)
    (listening : Bool) :
    (machine.begun address false port.mode listening).Interprets machine.memory.capacity
      (machine.startState address) := by
  have hgoing : port.Going machine.memory.capacity
      (fun n => (machine.startState address).after machine.memory.capacity n) 0
      (machine.begun address false port.mode listening) := .begun hgood rfl nofun
  exact hgoing.interprets rfl (machine.retired_begun address false port.mode listening) rfl
    machine.cache.view_wraps

end

namespace Machine

section

variable {capacity : Nat} {s : ArchState} {machine final : Machine} {limit cycles : Nat}

-- What a whole run answers, and the state that it leaves.

theorem Interprets.of_drive_ok (h : machine.Interprets capacity s) {report : Report}
    (hresult : Machine.drive limit cycles machine = (.ok report, final)) :
    ∃ k, s.Runs capacity k ∧ (s.after capacity k).step capacity = .ok none ∧
    final.state = s.after capacity k ∧
      report.retired = k ∧ report.haltId = some k := by
  obtain ⟨n, -, hanswer, rfl, rfl⟩ := drive_of_ok hresult
  obtain ⟨hstep, hstate, hhalt⟩ := h.halted n _ hanswer rfl
  exact ⟨_, h.runs (n + 1), hstep, hstate, rfl, hhalt⟩

theorem Interprets.of_drive_fault (h : machine.Interprets capacity s) {cause : Fault}
    (hresult : Machine.drive limit cycles machine = (.error (.fault cause), final)) :
    ∃ k, s.Runs capacity k ∧ (s.after capacity k).step capacity = .error cause := by
  obtain ⟨n, -, hanswer, -⟩ := drive_of_fault hresult
  exact ⟨_, h.runs (n + 1), h.faulted n _ cause hanswer rfl⟩

end

theorem Reached.interprets {mode : MemoryMode} {machine : Machine} (h : machine.Reached mode)
    (address : Nat) (listening : Bool) :
    (machine.begun address false mode listening).Interprets machine.memory.capacity
      (machine.startState address) := by
  cases mode with
  | cache => exact Cache.port.interprets_of_good (h.ready Cache.port).good address listening
  | direct =>
      exact MainMemory.port.interprets_of_good (h.ready MainMemory.port).good address listening

-- Without overlap a run carries out the instruction set: from any state that loads and runs lead
-- to, its retirements are the steps of the interpreter, which does not know of stages, waiting and
-- cache. Those are the steps that are prescribed, but for the branches that stray.
theorem interprets_of_reached {mode : MemoryMode} {machine : Machine} (h : machine.Reached mode)
    (address : Nat) (listening : Bool) :
    let s := machine.startState address
    let capacity := machine.memory.capacity
    (machine.begun address false mode listening).Interprets capacity s ∧
    (∀ report final, machine.run address false mode listening = (.ok report, final) →
      ∃ k, s.Runs capacity k ∧ (s.after capacity k).step capacity = .ok none ∧
      final.state = s.after capacity k ∧
        report.retired = k ∧ report.haltId = some k) ∧
    (∀ cause final, machine.run address false mode listening = (.error (.fault cause), final) →
      ∃ k, s.Runs capacity k ∧ (s.after capacity k).step capacity = .error cause) ∧
    ∀ k, (∀ i < k, ¬(s.after capacity i).Strays) →
      s.prescribedAfter capacity k = s.after capacity k ∧
        ((s.after capacity k).step capacity = (s.after capacity k).prescribedStep capacity ↔
          ¬(s.after capacity k).Strays) := by
  intro s capacity
  have hinterprets : (machine.begun address false mode listening).Interprets capacity s :=
    h.interprets address listening
  exact ⟨hinterprets, fun _ _ hrun => hinterprets.of_drive_ok hrun,
    fun _ _ hrun => hinterprets.of_drive_fault hrun,
    fun _ hstrays => ⟨ArchState.prescribedAfter_eq hstrays, ArchState.step_eq_prescribed_iff⟩⟩

-- A program over the end of memory, which is used without its cache from then on.
theorem interprets_past_end :
    ∃ fresh, build { memory := ⟨2, 1⟩, cache := ⟨4, false⟩ } = .ok fresh ∧
      let machine := (fresh.load 6 ([.transferImmediate .load 1 7, .transfer .store 1 1].map
        Instruction.encode)).2
      (machine.begun 14 false .direct true).Interprets 8 (machine.startState 14) := by
  have hbuild : build { memory := ⟨2, 1⟩, cache := ⟨4, false⟩ } = .ok _ := rfl
  refine ⟨_, hbuild, ?_⟩
  intro machine
  have hreached : machine.Reached .direct := (Reached.built hbuild).load 6 _
  have hcapacity : machine.memory.capacity = 8 := by decide +kernel
  rw [← hcapacity]
  exact (interprets_of_reached hreached 14 true).1

-- A branch that is not taken is prescribed to do nothing, so that the word that halts is next. The
-- run faults on it and retires nothing.
theorem interprets_apart :
    ∃ fresh, build { memory := ⟨1, 0⟩, cache := ⟨4, false⟩ } = .ok fresh ∧
      let machine := (fresh.load 0 [(Instruction.branch .eq false (-1)).encode]).2
      let s := machine.startState 0
      (∃ t, s.prescribedStep 4 = .ok (some t) ∧ t.prescribedStep 4 = .ok none) ∧
      (machine.run 0 false .direct false).1 = .error (.fault (.branchOutside 0 (-1))) ∧
      ∀ n, ((machine.begun 0 false .direct false).after n).pipeline.retired = 0 := by
  have hbuild : build { memory := ⟨1, 0⟩, cache := ⟨4, false⟩ } = .ok _ := rfl
  refine ⟨_, hbuild, ?_⟩
  intro machine s
  have hreached : machine.Reached .direct := (Reached.built hbuild).load 0 _
  have hcapacity : machine.memory.capacity = 4 := by decide +kernel
  have hinterprets := hreached.interprets 0 false
  rw [hcapacity] at hinterprets
  have hword : s.word ≠ Word.halt := by decide +kernel
  have hinstr : s.instr = .branch .eq false (-1) := by decide +kernel
  have hholds : s.stepped.registers.holds .eq = false := by decide +kernel
  have hnext : s.stepped.word = Word.halt := by decide +kernel
  have hfault : s.step 4 = .error (.branchOutside 0 (-1)) := by
    rw [ArchState.step, if_neg hword, hinstr]
    rfl
  refine ⟨⟨s.stepped, ArchState.prescribedStep_of_untaken hword hinstr hholds, if_pos hnext⟩,
    by decide +kernel, fun n => ?_⟩
  by_contra hretired
  obtain ⟨t, ht⟩ := hinterprets.runs n 0 (Nat.pos_of_ne_zero hretired)
  cases hfault.symm.trans ht

end Machine

end PipelinedProcessor
