import PipelinedProcessor.Proofs.Machine.Interpreter

namespace PipelinedProcessor

open LawfulStorage LiveStorage

namespace Machine

-- The first instructions of a course, by their addresses and words.
def executed (course : Nat → ArchState) (count : Nat) : List (Option Nat × Option Word) :=
  (List.range count).map fun i => (some (course i).address, some (course i).word)

-- A run that in its last cycle comes to the word that halts, after so many instructions of a
-- course.
structure Halts (course : Nat → ArchState) (count cycles : Nat) (machine : Machine) : Prop where
  running : ∀ i < cycles, (machine.after i).step.1 = .ok .running
  halted : (machine.after cycles).step.1 = .ok .halted
  retired : (machine.after (cycles + 1)).pipeline.retired = count
  haltId : (machine.after (cycles + 1)).pipeline.haltId = some count
  state : (machine.after (cycles + 1)).state = course count
  retirements : ∀ n, cycles < n → machine.retirements n = executed course count

namespace Halts

variable {course : Nat → ArchState} {count cycles limit : Nat} {machine : Machine}

-- What such a run answers if it may take that many cycles, and what it leaves.

theorem drive_eq (h : machine.Halts course count cycles) (limit : Nat) {tries : Nat}
    (htries : cycles < tries) :
    Machine.drive limit tries machine =
      (.ok (machine.after (cycles + 1)).pipeline.report, machine.after (cycles + 1)) := by
  have hend : (machine.after cycles).step.1 ≠ .ok .running := by
    rw [h.halted]
    decide
  have hdrive := drive_of_end limit htries h.running hend
  rwa [h.halted] at hdrive

theorem run {address : Nat} {pipelined listening : Bool} {mode : MemoryMode}
    (h : (machine.begun address pipelined mode listening).Halts course count cycles)
    (hlimit : cycles < limit) :
    ∃ report final, (machine.withCycles limit).run address pipelined mode listening =
      (.ok report, final) ∧
      report.haltId = some count ∧ report.retired = count ∧ final.state = course count := by
  rw [run_withCycles, h.drive_eq limit hlimit]
  exact ⟨_, _, rfl, h.haltId, h.retired, h.state⟩

end Halts

end Machine

open Machine

namespace Port.Going

variable {σ : Type} [Storage σ] [LawfulStorage σ] [LiveStorage σ] {port : Port σ} {capacity : Nat}
  {course : Nat → ArchState} {last : Nat} {machine : Machine}
    (h : port.Going capacity course last machine)
  (hcourse : ∀ n, course (n + 1) = (course n).next capacity) (hzero : machine.pipeline.retired = 0)

include h hcourse hzero

theorem halts_of_halted {cycles : Nat} (hhalted : (machine.after cycles).step.1 = .ok .halted) :
    machine.Halts course (machine.after (cycles + 1)).pipeline.retired cycles := by
  obtain ⟨-, hstate, hhalt⟩ := h.halted_after hcourse hhalted
  refine ⟨h.running_before hcourse ?_, hhalted, rfl, hhalt, hstate, ?_⟩
  · rw [hhalted]
    decide
  · intro n hn
    rw [h.retirements_eq hcourse hzero, h.after_halted hcourse hhalted hn]
    rfl

-- Where the course comes to the word that halts, the run does.
theorem halts {count : Nat} (hruns : ∀ i < count, ∃ t, (course i).step capacity = .ok (some t))
    (hword : (course count).word = Word.halt) : ∃ cycles, machine.Halts course count cycles := by
  have hlast : (course count).step capacity = .ok none := ArchState.step_of_halt hword
  obtain ⟨cycles, hretired, hhalted | ⟨cause, -, hfault⟩⟩ :=
    h.ends hcourse hzero hruns (by simp [hlast])
  · exact ⟨cycles, hretired ▸ h.halts_of_halted hcourse hzero hhalted⟩
  · rw [hlast] at hfault
    cases hfault

end Port.Going

namespace Machine

-- A run without overlap that halts, by the cycle in which it does.
theorem halted_of_run {address limit : Nat} {listening : Bool} {mode : MemoryMode}
    {machine final : Machine} {report : Report}
    (hrun : (machine.withCycles limit).run address false mode listening = (.ok report, final)) :
    ∃ cycles < limit,
    ((machine.begun address false mode listening).after cycles).step.1 = .ok .halted ∧
      final = ((machine.begun address false mode listening).after (cycles + 1)).withCycles limit ∧
      report = final.pipeline.report := by
  rw [run_withCycles] at hrun
  obtain ⟨hanswer, rfl⟩ := Prod.mk.inj hrun
  obtain ⟨cycles, hlimit, hhalted, hfinal, hreport⟩ := drive_of_ok (Prod.ext hanswer rfl)
  exact ⟨cycles, hlimit, hhalted, congrArg (withCycles limit) hfinal, hreport⟩

end Machine

section

variable {σ : Type} [Storage σ] [LawfulStorage σ] [LiveStorage σ] {port : Port σ}
  {machine : Machine}

theorem Port.exists_halts_of_good (hgood : port.Good machine.cache) {address cycles : Nat}
    {listening : Bool}
    (hhalted : ((machine.begun address false port.mode listening).after cycles).step.1 =
      .ok .halted) :
    ∃ count, (machine.begun address false port.mode listening).Halts
      (machine.course address) count cycles ∧
      (Separable machine.memory.capacity (machine.course address) count → ∃ cycles',
        (machine.begun address true port.mode listening).Halts (machine.course address)
          count cycles') := by
  have hcourse (n : Nat) : machine.course address (n + 1) =
      (machine.course address n).next machine.memory.capacity := rfl
  have hserial : port.Going machine.memory.capacity (machine.course address) 0
      (machine.begun address false port.mode listening) :=
        .begun hgood rfl (fun hmode => by cases hmode)
  obtain ⟨hword, -, -⟩ := hserial.halted_after hcourse hhalted
  have hruns := hserial.runs_after hcourse (cycles + 1)
  refine ⟨_, hserial.halts_of_halted hcourse (machine.retired_begun ..) hhalted, ?_⟩
  intro hseparable
  have hoverlap : port.Going machine.memory.capacity (machine.course address) _
      (machine.begun address true port.mode listening) :=
    .begun hgood rfl fun _ => ⟨hseparable, hword, hruns⟩
  exact hoverlap.halts hcourse (machine.retired_begun ..) hruns hword

end

namespace Machine

-- Overlap makes no difference. Where a run without overlap comes to the word that halts, and no
-- instruction of it names the counter or stores to a word that is fetched later, the run with
-- overlap halts too, after the same instructions and in the same state.
theorem overlap_of_reached {mode : MemoryMode} {machine : Machine} (h : machine.Reached mode)
    (address : Nat) (listening : Bool) {limit : Nat} {report : Report} {final : Machine}
    (hserial : (machine.withCycles limit).run address false mode listening = (.ok report, final))
    (hseparable : Separable machine.memory.capacity (machine.course address) report.retired) :
    (machine.begun address false mode listening).retirements limit =
        executed (machine.course address) report.retired ∧
      ∃ enough, ∀ limit', enough < limit' → ∃ report' final',
        (machine.withCycles limit').run address true mode listening = (.ok report', final') ∧
        report'.haltId = report.haltId ∧ report'.retired = report.retired ∧
        (machine.begun address true mode listening).retirements limit' =
          (machine.begun address false mode listening).retirements limit ∧
        final'.registers = final.registers ∧ final'.vectors = final.vectors ∧
        ∀ x, final'.peek x = final.peek x := by
  obtain ⟨cycles, hlimit, hhalted, rfl, rfl⟩ := halted_of_run hserial
  obtain ⟨count, hhalts, hoverlap⟩ : ∃ count,
      (machine.begun address false mode listening).Halts (machine.course address) count cycles ∧
        (Separable machine.memory.capacity (machine.course address) count → ∃ cycles',
          (machine.begun address true mode listening).Halts (machine.course address)
            count cycles') := by
    cases mode with
    | cache => exact Cache.port.exists_halts_of_good (h.ready Cache.port).good hhalted
    | direct => exact MainMemory.port.exists_halts_of_good (h.ready MainMemory.port).good hhalted
  obtain rfl := hhalts.retired
  obtain ⟨enough, hhalts'⟩ := hoverlap hseparable
  refine ⟨hhalts.retirements limit hlimit, enough, ?_⟩
  intro limit' hlimit'
  obtain ⟨report', final', hrun, hhalt, hretired, hstate⟩ := hhalts'.run hlimit'
  have hsame := hstate.trans hhalts.state.symm
  refine ⟨report', final', hrun, hhalt.trans hhalts.haltId.symm, hretired, ?_,
    congrArg (·.registers) hsame, congrArg (·.vectors) hsame, fun x => congrArg (·.memory x) hsame⟩
  rw [hhalts'.retirements limit' hlimit', hhalts.retirements limit hlimit]

-- A program that stores a word past its end, in a small machine.
theorem overlap_of_store :
    ∃ fresh, build { memory := ⟨2, 1⟩, cache := ⟨4, false⟩ } = .ok fresh ∧
      let machine :=
  (fresh.load 0 ([.transferImmediate .load 1 7, .transferImmediate .store 1 9].map
        Instruction.encode)).2
      Separable machine.memory.capacity (machine.course 0) 2 ∧
      ∃ final, (machine.withCycles 100).run 0 false .cache false = (.ok ⟨13, 2, 0, some 2⟩, final) ∧
      ∃ enough, ∀ limit, enough < limit → ∃ report' final',
        (machine.withCycles limit).run 0 true .cache false = (.ok report', final') ∧
        report'.haltId = some 2 ∧ report'.retired = 2 ∧ final'.registers = final.registers ∧
        final'.vectors = final.vectors ∧ ∀ x, final'.peek x = final.peek x := by
  have hbuild : build { memory := ⟨2, 1⟩, cache := ⟨4, false⟩ } = .ok _ := rfl
  refine ⟨_, hbuild, ?_⟩
  intro machine
  have hreached : machine.Reached .cache := (Reached.built hbuild).load 0 _
  have hserial : (machine.withCycles 100).run 0 false .cache false = (.ok ⟨13, 2, 0, some 2⟩, _) :=
    Prod.ext (by decide +kernel) rfl
  have hseparable : Separable machine.memory.capacity (machine.course 0) 2 := by
    refine ⟨by decide +kernel, ?_⟩
    have hstores : ∀ j < 3, ∀ i < j, ∀ x ∈ (machine.course 0 i).storeTargets,
        x % machine.memory.capacity ≠ (machine.course 0 j).address % machine.memory.capacity := by
      decide +kernel
    intro i j hij hj
    exact hstores j (by omega) i hij
  obtain ⟨-, enough, hoverlap⟩ := overlap_of_reached hreached 0 false hserial hseparable
  refine ⟨hseparable, _, hserial, enough, ?_⟩
  intro limit hlimit
  obtain ⟨report', final', hrun, hhalt, hretired, -, hsame⟩ := hoverlap limit hlimit
  exact ⟨report', final', hrun, hhalt, hretired, hsame⟩

end Machine

end PipelinedProcessor
