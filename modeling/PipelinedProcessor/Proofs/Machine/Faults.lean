import PipelinedProcessor.Proofs.Machine.Overlap
import PipelinedProcessor.Proofs.Machine.OverlappingRun

namespace PipelinedProcessor

open LawfulStorage LiveStorage Machine

section

variable {σ : Type} [Storage σ] [LawfulStorage σ] [LiveStorage σ] {port : Port σ} {capacity : Nat}
  {course : Nat → ArchState} {last : Nat} {machine : Machine} {cause : Fault}

namespace Port.Keeping

variable (hcourse : ∀ n, course (n + 1) = (course n).next capacity)
  (hfault : (course last).step capacity = .error cause) (hspares : (course last).Spares)
  (h : port.Keeping capacity course last machine)

include hcourse hfault hspares h

-- Where the last one of the course cannot be carried out, the run keeps to it as long as it goes
-- on.
theorem after_of_fault {n : Nat} (hrunning : ∀ i < n, (machine.after i).step.1 = .ok .running) :
    port.Keeping capacity course last (machine.after n) := by
  induction n with
  | zero => exact h
  | succ n ih =>
      have hkept := ih fun i hi => hrunning i (by omega)
      exact hkept.step hcourse (hkept.tracks.certain_of_fault hkept.pipelined hfault hspares)
        (hrunning n (by omega))

-- That one never retires, so that the run comes to its end, which cannot be the word that halts.
theorem exists_fault : ∃ n found, (∀ i < n, (machine.after i).step.1 = .ok .running) ∧
    (machine.after n).step.1 = .error found ∧
    port.Keeping capacity course last (machine.after n) := by
  obtain ⟨n, hrunning, hcame⟩ := h.toLive.reaches (last + 1)
  have hkept := h.after_of_fault hcourse hfault hspares hrunning
  have hle := Nat.le_trans (Pipeline.retired_le_passed _ .memory)
    (hkept.tracks.accessed_le_fault hkept.pipelined hfault)
  have hend := hcame.resolve_left (by omega)
  cases hanswer : (machine.after n).step.1 with
  | error found => exact ⟨n, found, hrunning, hanswer, hkept⟩
  | ok message =>
      cases message with
      | idle => exact absurd hanswer hkept.not_idle
      | running => exact absurd hanswer hend
      | halted =>
          obtain ⟨hmode, htracks, hhalt⟩ := hkept.halted hcourse
            (hkept.tracks.certain_of_fault hkept.pipelined hfault hspares) hanswer
          exact (htracks.not_halted_of_fault hmode hfault hhalt).elim

end Port.Keeping

end

section

variable {σ : Type} [Storage σ] [LawfulStorage σ] [LiveStorage σ]

-- An instruction fails in Execute while the one right before it, which has number `k`, waits in
-- Memory Access.
def Port.Overtakes (port : Port σ) (k : Nat) (found : Fault) (machine : Machine) : Prop :=
  ∃ f, machine.pipeline.Raises (port.context machine) found f ∧
  machine.pipeline.slots.slot .execute = some f ∧
    f.id = k + 1 ∧ ∃ g, machine.pipeline.slots.slot .memory = some g ∧ g.id = k ∧ g.state = .ready

end

namespace Machine

-- The same in the memory mode of the machine.
def Overtakes (machine : Machine) (k : Nat) (found : Fault) : Prop :=
  match machine.mode with
  | .cache => Cache.port.Overtakes k found machine
  | .direct => MainMemory.port.Overtakes k found machine

-- A run that comes to a fault: that of instruction `k`, or the one of the next instruction that
-- overtakes it.
structure Faults (k : Nat) (cause : Fault) (cycles : Nat) (found : Fault) (machine : Machine) :
    Prop where
  running : ∀ i < cycles, (machine.after i).step.1 = .ok .running
  failed : (machine.after cycles).step.1 = .error found
  same_or_overtaken : found = cause ∨ (machine.after cycles).Overtakes k found

end Machine

section

variable {σ : Type} [Storage σ] [LawfulStorage σ] [LiveStorage σ] {port : Port σ}
  {machine : Machine}

theorem Port.exists_faults_of_good (hgood : port.Good machine.cache)
    (hovertakes : ∀ {machine : Machine} {k found}, machine.mode = port.mode →
      port.Overtakes k found machine →
      machine.Overtakes k found) {address k : Nat} {listening : Bool} {cause : Fault}
    (hoverlap : Runnable machine.memory.capacity (machine.course address) k)
    (hfault : (machine.course address k).step machine.memory.capacity = .error cause)
    (hspares : (machine.course address k).Spares) :
    ∃ cycles found, (machine.begun address true port.mode listening).Faults k
      cause cycles found := by
  have hcourse (n : Nat) : machine.course address (n + 1) =
      (machine.course address n).next machine.memory.capacity := rfl
  have hkeeping : port.Keeping machine.memory.capacity (machine.course address) k
      (machine.begun address true port.mode listening) := .begun hgood rfl hoverlap
  obtain ⟨n, found, hrunning, hfound, hkept⟩ := hkeeping.exists_fault hcourse hfault hspares
  obtain ⟨f, hraises⟩ := hkept.raises hfound
  refine ⟨n, found, hrunning, hfound, ?_⟩
  rcases hkept.tracks.fault_cases hkept.pipelined hfault hspares hcourse hkept.running
    hraises with hsame | hbehind
  · exact .inl hsame
  · exact .inr (hovertakes hkept.mode_eq ⟨f, hraises, hbehind⟩)

end

namespace Machine

theorem overtakes_of_cache {machine : Machine} {k : Nat} {found : Fault}
    (hmode : machine.mode = Cache.port.mode) (h : Cache.port.Overtakes k found machine) :
    machine.Overtakes k found := by
  rw [Overtakes, hmode]
  exact h

theorem overtakes_of_direct {machine : Machine} {k : Nat} {found : Fault}
    (hmode : machine.mode = MainMemory.port.mode) (h : MainMemory.port.Overtakes k found machine) :
    machine.Overtakes k found := by
  rw [Overtakes, hmode]
  exact h

-- A run without overlap that fails, by the cycle in which it does.
theorem faulted_of_run {address limit : Nat} {listening : Bool} {mode : MemoryMode}
    {machine final : Machine} {cause : Fault}
    (hrun : (machine.withCycles limit).run address false mode listening =
      (.error (.fault cause), final)) :
    ∃ cycles < limit,
    ((machine.begun address false mode listening).after cycles).step.1 = .error cause ∧
      final = ((machine.begun address false mode listening).after
        (cycles + 1)).withCycles limit := by
  rw [run_withCycles] at hrun
  obtain ⟨hanswer, rfl⟩ := Prod.mk.inj hrun
  obtain ⟨cycles, hlimit, hfailed, hfinal⟩ := drive_of_fault (Prod.ext hanswer rfl)
  exact ⟨cycles, hlimit, hfailed, congrArg (withCycles limit) hfinal⟩

-- What a run answers that fails in one of its cycles.
theorem Faults.run {k address cycles limit : Nat} {pipelined listening : Bool} {mode : MemoryMode}
    {machine : Machine} {cause found : Fault}
    (h : (machine.begun address pipelined mode listening).Faults k cause cycles found)
    (hlimit : cycles < limit) :
    ((machine.withCycles limit).run address pipelined mode listening).1 =
      .error (.fault found) := by
  have hdrive := drive_of_end limit hlimit h.running (by rw [h.failed]; nofun)
  rw [run_withCycles, hdrive, h.failed]
  rfl

-- Where a run without overlap stops with a fault, that of the first instruction in the order of the
-- program that cannot be carried out, the run with overlap stops with a fault too, given cycles
-- enough, if none of the instructions names the counter or stores to a word that is fetched later.
-- The fault is the same, unless the next instruction fails in Execute while this one still waits in
-- Memory Access for what it is to work on.
theorem fault_of_reached {mode : MemoryMode} {machine : Machine} (h : machine.Reached mode)
    (address : Nat) (listening : Bool) {limit : Nat} {cause : Fault} {final : Machine}
    (hserial : (machine.withCycles limit).run address false mode listening =
      (.error (.fault cause), final))
    (hseparable : Separable machine.memory.capacity (machine.course address) final.pipeline.retired)
    (hspares : (machine.course address final.pipeline.retired).Spares) :
    (∀ i < final.pipeline.retired, ∃ t,
      (machine.course address i).step machine.memory.capacity = .ok (some t)) ∧
      (machine.course address final.pipeline.retired).step machine.memory.capacity = .error cause ∧
      ∃ cycles found,
        (∀ limit', cycles < limit' →
          ((machine.withCycles limit').run address true mode listening).1 = .error (.fault found)) ∧
        (found = cause ∨
          ((machine.begun address true mode listening).after cycles).Overtakes
            final.pipeline.retired found) := by
  obtain ⟨cycles, -, hfailed, hfinal⟩ := faulted_of_run hserial
  have hretired :
      ((machine.begun address false mode listening).after (cycles + 1)).pipeline.retired =
      final.pipeline.retired := by
    rw [hfinal]
    rfl
  have hinterprets := h.interprets address listening
  have hruns := hinterprets.runs (cycles + 1)
  rw [hretired] at hruns
  have hfault := hinterprets.faulted cycles _ cause hfailed hretired
  have hoverlap :
      Runnable machine.memory.capacity (machine.course address) final.pipeline.retired :=
    ⟨hseparable, hruns⟩
  obtain ⟨n, found, hfaults⟩ : ∃ n found,
      (machine.begun address true mode listening).Faults final.pipeline.retired cause n found := by
    cases mode with
    | cache =>
        exact Cache.port.exists_faults_of_good (h.ready Cache.port).good overtakes_of_cache
          hoverlap hfault hspares
    | direct =>
        exact MainMemory.port.exists_faults_of_good (h.ready MainMemory.port).good
          overtakes_of_direct hoverlap hfault hspares
  exact ⟨hruns, hfault, n, found, fun limit' => hfaults.run, hfaults.same_or_overtaken⟩

-- A program that divides by zero, in a small machine.
theorem fault_of_division :
    ∃ fresh, build { memory := ⟨2, 1⟩, cache := ⟨4, false⟩ } = .ok fresh ∧
      let machine :=
  (fresh.load 0 ([.transferImmediate .load 1 7, .scalarImmediate false .divide 2 1 0].map
        Instruction.encode)).2
      Separable machine.memory.capacity (machine.course 0) 1 ∧ (machine.course 0 1).Spares ∧
      ∃ final, (machine.withCycles 100).run 0 false .cache false =
        (.error (.fault (.divisionByZero 7)), final) ∧
      final.pipeline.retired = 1 ∧ ∃ cycles found,
        (∀ limit, cycles < limit →
          ((machine.withCycles limit).run 0 true .cache false).1 = .error (.fault found)) ∧
        (found = .divisionByZero 7 ∨
          ((machine.begun 0 true .cache false).after cycles).Overtakes 1 found) := by
  have hbuild : build { memory := ⟨2, 1⟩, cache := ⟨4, false⟩ } = .ok _ := rfl
  refine ⟨_, hbuild, ?_⟩
  intro machine
  have hreached : machine.Reached .cache := (Reached.built hbuild).load 0 _
  have hserial : (machine.withCycles 100).run 0 false .cache false =
      (.error (.fault (.divisionByZero 7)), _) :=
    Prod.ext (by decide +kernel) rfl
  have hretired : ((machine.withCycles 100).run 0 false .cache false).2.pipeline.retired = 1 := by
    decide +kernel
  have hspares : (machine.course 0 1).Spares := by decide +kernel
  have hseparable : Separable machine.memory.capacity (machine.course 0) 1 := by
    refine ⟨by decide +kernel, ?_⟩
    have hstores : ∀ j < 2, ∀ i < j, ∀ x ∈ (machine.course 0 i).storeTargets,
        x % machine.memory.capacity ≠ (machine.course 0 j).address % machine.memory.capacity := by
      decide +kernel
    intro i j hij hj
    exact hstores j (by omega) i hij
  obtain ⟨-, -, hfault⟩ :=
    fault_of_reached hreached 0 false hserial (by rw [hretired]; exact hseparable)
    (by rw [hretired]; exact hspares)
  rw [hretired] at hfault
  exact ⟨hseparable, hspares, _, hserial, hretired, hfault⟩

-- The next instruction may come first: it divides a register by zero while this one waits for the
-- word that it is to divide. And the run with overlap may need more cycles: it fetches the last
-- line of the program while the first instruction still waits for a line that takes its place, and
-- has to fetch it once more.
theorem fault_apart :
    let program : List Instruction :=
  [.scalarImmediate true .divide 1 2 0, .scalarImmediate false .divide 1 2 0]
    let slower : List Instruction :=
  [.transfer .load 5 2, .transferImmediate .load 4 7, .transferImmediate .load 4 7,
      .transferImmediate .load 4 7, .scalarImmediate false .divide 1 1 0]
    (∀ instr ∈ program ++ slower,
      .scalar Register.counter ∉ instr.reads ∧ .scalar Register.counter ∉ instr.writes) ∧
    (∃ fresh, build { memory := ⟨2, 2⟩, cache := ⟨4, false⟩ } = .ok fresh ∧
      let machine := (fresh.load 0 (program.map Instruction.encode)).2
      Separable machine.memory.capacity (machine.course 0) 0 ∧ (machine.course 0 0).Spares ∧
      ((machine.withCycles 100).run 0 false .direct false).1 =
        .error (.fault (.divisionByZero 71340032)) ∧
      ∀ limit, 7 < limit →
        ((machine.withCycles limit).run 0 true .direct false).1 =
          .error (.fault (.divisionByZero 0))) ∧
    ∃ fresh, build { memory := ⟨8, 18⟩, cache := ⟨4, false⟩ } = .ok fresh ∧
      let machine := (fresh.load 11 (slower.map Instruction.encode)).2
      Separable machine.memory.capacity (machine.course 11) 4 ∧ (machine.course 11 4).Spares ∧
      ((machine.withCycles 77).run 11 false .cache false).1 = .error (.fault (.divisionByZero 0)) ∧
      ((machine.withCycles 77).run 11 true .cache false).1 = .error (.cycleLimit 77) := by
  intro program slower
  refine ⟨by decide, ?_, ?_⟩
  · have hbuild : build { memory := ⟨2, 2⟩, cache := ⟨4, false⟩ } = .ok _ := rfl
    refine ⟨_, hbuild, ?_⟩
    intro machine
    have hfailed :
        (machine.begun 0 true .direct false).Faults 0 (.divisionByZero 0) 7 (.divisionByZero 0) :=
      ⟨by decide +kernel, by decide +kernel, .inl rfl⟩
    exact ⟨⟨nofun, by omega⟩, by decide +kernel, by decide +kernel, fun limit => hfailed.run⟩
  · have hbuild : build { memory := ⟨8, 18⟩, cache := ⟨4, false⟩ } = .ok _ := rfl
    refine ⟨_, hbuild, ?_⟩
    intro machine
    have hstores : ∀ i < 4, (machine.course 11 i).storeTargets = [] := by decide +kernel
    refine ⟨⟨by decide +kernel, fun i j hij hj => ?_⟩, by decide +kernel,
      by decide +kernel, by decide +kernel⟩
    rw [hstores i (Nat.lt_of_lt_of_le hij hj)]
    exact List.forall_mem_nil _

end Machine

end PipelinedProcessor
