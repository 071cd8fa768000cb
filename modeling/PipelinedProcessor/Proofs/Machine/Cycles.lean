import PipelinedProcessor.Proofs.Machine.DirectMode
import PipelinedProcessor.Proofs.Machine.Loading
import PipelinedProcessor.Proofs.Machine.Overlap
import PipelinedProcessor.Proofs.Pipeline.Payment

namespace PipelinedProcessor

open LawfulStorage LiveStorage

-- All that a run costs.
theorem Schedule.ahead_zero (schedule : Schedule) :
    schedule.ahead 0 = schedule.delay + 1 + ((List.range schedule.last).map fun i =>
      schedule.delay + 5 + (schedule.course i).accesses * schedule.delay).sum := by
  have hcosts : (List.range schedule.last).map schedule.cost =
      (List.range schedule.last).map fun i =>
      schedule.delay + 5 + (schedule.course i).accesses * schedule.delay :=
    List.map_congr_left fun i hi => if_pos (List.mem_range.mp hi)
  have hhalt : schedule.cost schedule.last = schedule.delay + 1 := if_neg (Nat.lt_irrefl _)
  rw [ahead, Nat.sub_zero, ← List.range_eq_range', List.range_succ, List.map_append,
    List.sum_append, hcosts, List.map_singleton, List.sum_singleton, hhalt, Nat.add_comm]

-- A run that begins has all of it before it.
theorem Schedule.left_start (schedule : Schedule) (pipelined : Bool) {memory : MainMemory}
    (hidle : memory.pending = none) :
    schedule.left (.start pipelined) memory = schedule.ahead 0 := by
  have hslots : (Pipeline.start pipelined).slots = { fetch := some { id := 0 } } ∧
      (Pipeline.start pipelined).nextId = 1 := by
    cases pipelined <;> exact ⟨rfl, rfl⟩
  have htotal : Slots.total schedule.debt { fetch := some { id := 0 } } = schedule.cost 0 :=
    Nat.add_zero _
  rw [left, hslots.1, hslots.2, htotal, MainMemory.waited_of_idle hidle,
    schedule.ahead_of_le (Nat.zero_le _), Int.sub_zero, Int.natCast_add]

namespace Machine

-- A run on main memory that goes on, and that waits in every access as long as its schedule says.
structure Owing (schedule : Schedule) (capacity : Nat) (machine : Machine) : Prop
    extends MainMemory.port.Going capacity schedule.course schedule.last machine where
  delay_eq : machine.memory.delay = schedule.delay
  active : machine.pipeline.slots.Active
  unstalled : machine.pipeline.pipelined = false → machine.pipeline.stalls = 0

-- What is left of it.
def left (schedule : Schedule) (machine : Machine) : Int :=
  schedule.left machine.pipeline machine.memory

-- What a cycle of such a run comes to.
structure Paid (schedule : Schedule) (capacity : Nat) (machine : Machine) (message : Message)
    (next : Machine) :
    Prop where
  least : next.left schedule + 1 ≤ machine.left schedule
  most : machine.pipeline.pipelined = false → machine.left schedule ≤ next.left schedule + 1
  clock_eq : next.pipeline.clock = machine.pipeline.clock + 1
  pipelined_eq : next.pipeline.pipelined = machine.pipeline.pipelined
  unstalled : next.pipeline.pipelined = false → next.pipeline.stalls = 0
  goes : message = .running → next.Owing schedule capacity
  ends : message = .halted → next.left schedule = 0

namespace Owing

variable {schedule : Schedule} {capacity : Nat} {machine : Machine}

theorem begun (hgood : MainMemory.port.Good machine.cache)
    (hdelay : machine.memory.delay = schedule.delay) {address : Nat} {pipelined listening : Bool}
    (hstart : schedule.course 0 = (machine.begun address pipelined .direct listening).state)
    (hoverlap : pipelined = true →
      Overlappable machine.memory.capacity schedule.course schedule.last) :
    (machine.begun address pipelined .direct listening).Owing schedule machine.memory.capacity :=
  ⟨.begun hgood hstart hoverlap, hdelay, Pipeline.active_start pipelined, fun _ => by
    cases pipelined <;> rfl⟩

variable (h : machine.Owing schedule capacity) (hcovers : schedule.Covers capacity)

include h hcovers

theorem step {message : Message} (hanswer : machine.step.1 = .ok message) :
    machine.Paid schedule capacity message machine.step.2 := by
  obtain ⟨after, hstep, -, -, hcontext⟩ := Port.step_cases h.good h.mode_eq
  rw [hanswer] at hstep
  obtain ⟨hless, hserial, hactive, hhalted⟩ :=
    Pipeline.step_left hcovers h.underway.tracks h.attended h.delay_eq h.running h.active hstep
  have hmemory : after.memory = machine.step.2.memory :=
    congrArg Context.memory (hcontext message hanswer).symm
  rw [hmemory] at hless hserial hhalted
  have hunstalled :
      (machine.pipeline.step (MainMemory.port.context machine)).2.1.pipelined = false → _ :=
    (Pipeline.unstalled_kept.step ⟨h.wellFormed, h.unstalled⟩).2
  rw [hstep] at hunstalled
  refine ⟨hless, hserial, (Pipeline.ticked_of_step h.running hstep).1,
    h.toGoing.pipelined_step, hunstalled, ?_, hhalted⟩
  rintro rfl
  cases h.toGoing.step hcovers.next (Prod.ext hanswer rfl) with
  | running hgoing =>
      have hdelay : machine.step.2.memory.delay = machine.memory.delay :=
        congrArg Prod.snd machine.shape_step
      exact ⟨hgoing, hdelay.trans h.delay_eq, hactive rfl, hunstalled⟩

-- In so many cycles at least as much is paid, and without overlap no more.
theorem after_of_running {n : Nat} (hrunning : ∀ i < n, (machine.after i).step.1 = .ok .running) :
    (machine.after n).Owing schedule capacity ∧
      (machine.after n).left schedule + n ≤ machine.left schedule ∧
      (machine.pipeline.pipelined = false →
        machine.left schedule ≤ (machine.after n).left schedule + n) ∧
      (machine.after n).pipeline.clock = machine.pipeline.clock + n ∧
      (machine.after n).pipeline.pipelined = machine.pipeline.pipelined := by
  induction n with
  | zero =>
      exact ⟨h, Int.le_of_eq (Int.add_zero _),
        fun _ => Int.le_of_eq (Int.add_zero _).symm, rfl, rfl⟩
  | succ n ih =>
      obtain ⟨howing, hleast, hmost, hclock, hmode⟩ := ih fun i hi => hrunning i (by omega)
      have hpaid := howing.step hcovers (hrunning n (by omega))
      have hleast' := hpaid.least
      have hclock' := hpaid.clock_eq
      refine ⟨hpaid.goes rfl, ?_, ?_, ?_, hpaid.pipelined_eq.trans hmode⟩
      · rw [after]
        omega
      · intro hserial
        have hmost' := hpaid.most (hmode.trans hserial)
        have hmost := hmost hserial
        rw [after]
        omega
      · rw [after]
        omega

-- A whole run takes no more cycles than it costs, and without overlap as many.
theorem report_of_halts {count cycles : Nat} (hhalts : machine.Halts schedule.course count cycles)
    (hzero : machine.pipeline.clock = 0) :
    (machine.after (cycles + 1)).pipeline.clock = cycles + 1 ∧ cycles + 1 ≤ machine.left schedule ∧
      (machine.pipeline.pipelined = false →
        machine.left schedule = cycles + 1 ∧ (machine.after (cycles + 1)).pipeline.stalls = 0) := by
  obtain ⟨howing, hleast, hmost, hclock, hmode⟩ := h.after_of_running hcovers hhalts.running
  have hpaid := howing.step hcovers hhalts.halted
  have hleast' := hpaid.least
  have hclock' := hpaid.clock_eq
  have hnothing := hpaid.ends rfl
  refine ⟨by rw [after]; omega, by omega, ?_⟩
  intro hserial
  have hmost' := hpaid.most (hmode.trans hserial)
  have hmost := hmost hserial
  exact ⟨by omega, hpaid.unstalled (hpaid.pipelined_eq.trans (hmode.trans hserial))⟩

end Owing

-- What a run from an address costs, up to so many instructions.
def schedule (machine : Machine) (address count : Nat) : Schedule :=
  ⟨machine.memory.delay, machine.course address, count⟩

section

variable {machine : Machine} (hgood : MainMemory.port.Good machine.cache) {address : Nat}
  {listening : Bool}

include hgood

theorem serial_of_good {cycles : Nat}
    (hhalted : ((machine.begun address false .direct listening).after cycles).step.1 =
      .ok .halted) :
    ∃ count, (machine.begun address false .direct listening).Halts
      (machine.course address) count cycles ∧
      (machine.schedule address count).Covers machine.memory.capacity ∧
      ((machine.begun address false .direct listening).after (cycles + 1)).pipeline.report =
        ⟨cycles + 1, count, 0, some count⟩ ∧
      cycles + 1 = (machine.schedule address count).ahead 0 := by
  obtain ⟨count, hhalts, -⟩ : ∃ count, (machine.begun address false .direct listening).Halts
      (machine.course address) count cycles ∧ _ :=
        MainMemory.port.exists_halts_of_good hgood hhalted
  have howing :
      (machine.begun address false .direct listening).Owing (machine.schedule address count)
      machine.memory.capacity := .begun hgood rfl rfl nofun
  have hcovers : (machine.schedule address count).Covers machine.memory.capacity := by
    obtain ⟨hword, -⟩ := howing.toGoing.halted_after (fun _ => rfl) hhalts.halted
    have hruns := howing.toGoing.runs_after (fun _ => rfl) (cycles + 1)
    rw [hhalts.retired] at hword hruns
    exact ⟨fun _ => rfl, hword, hruns⟩
  obtain ⟨hclock, -, hserial⟩ := howing.report_of_halts hcovers hhalts rfl
  obtain ⟨hleft, hstalls⟩ := hserial rfl
  have hstart :
      (machine.begun address false .direct listening).left (machine.schedule address count) =
      (machine.schedule address count).ahead 0 := Schedule.left_start _ false rfl
  refine ⟨count, hhalts, hcovers, ?_, by omega⟩
  rw [Pipeline.report, hclock, hstalls, hhalts.retired, hhalts.haltId]

theorem overlap_of_good {count : Nat}
    (hcovers : (machine.schedule address count).Covers machine.memory.capacity)
    (hseparable : Separable machine.memory.capacity (machine.course address) count) :
    ∃ cycles,
    (machine.begun address true .direct listening).Halts (machine.course address) count cycles ∧
      ((machine.begun address true .direct listening).after (cycles + 1)).pipeline.report.cycles =
        cycles + 1 ∧
      cycles + 1 ≤ (machine.schedule address count).ahead 0 := by
  have howing :
      (machine.begun address true .direct listening).Owing (machine.schedule address count)
      machine.memory.capacity :=
        .begun hgood rfl rfl fun _ => ⟨hseparable, hcovers.halts, hcovers.runs⟩
  obtain ⟨cycles, hhalts⟩ :=
    howing.toGoing.halts (fun _ => rfl) (machine.retired_begun ..) hcovers.runs hcovers.halts
  obtain ⟨hclock, hleft, -⟩ := howing.report_of_halts hcovers hhalts rfl
  have hstart :
      (machine.begun address true .direct listening).left (machine.schedule address count) =
      (machine.schedule address count).ahead 0 := Schedule.left_start _ true rfl
  exact ⟨cycles, hhalts, hclock, by omega⟩

end

-- A run without overlap that halts, seen without the cache.
theorem serial_of_run {machine final : Machine} {address : Nat} {listening : Bool} {report : Report}
    (hrun : machine.run address false .direct listening = (.ok report, final)) :
    ∃ cycles < machine.config.run.maxCycles,
      (machine.withoutCache.begun address false .direct listening).Halts
        (machine.withoutCache.course address) report.retired cycles ∧
      (machine.withoutCache.schedule address report.retired).Covers machine.memory.capacity ∧
      report = ⟨cycles + 1, report.retired, 0, some report.retired⟩ ∧
      cycles + 1 = (machine.withoutCache.schedule address report.retired).ahead 0 := by
  have hbare := machine.run_withoutCache address false listening
  rw [hrun] at hbare
  have hlimit :
      machine.withoutCache = machine.withoutCache.withCycles machine.config.run.maxCycles := rfl
  rw [hlimit] at hbare
  obtain ⟨cycles, hcycles, hhalted, hfinal, hreport⟩ := halted_of_run hbare
  obtain ⟨count, hhalts, hcovers, hcounts, hcost⟩ :=
    serial_of_good machine.good_withoutCache hhalted
  rw [hfinal] at hreport
  obtain rfl : report = ⟨cycles + 1, count, 0, some count⟩ := hreport.trans hcounts
  exact ⟨cycles, hcycles, hhalts, hcovers, rfl, hcost⟩

-- Without overlap every instruction takes a cycle in each of its stages, waits once to be fetched
-- and once in every access, and never for another. The word that halts is only fetched.
theorem cycles_of_run {machine final : Machine} {address : Nat} {listening : Bool} {report : Report}
    (hrun : machine.run address false .direct listening = (.ok report, final)) :
    (machine.begun address false .direct listening).retirements report.cycles =
        executed (machine.withoutCache.course address) report.retired ∧
      report.cycles = machine.memory.delay + 1 + ((List.range report.retired).map fun i =>
        machine.memory.delay + 5 + (machine.withoutCache.course address i).accesses *
          machine.memory.delay).sum ∧
      report.stalls = 0 := by
  obtain ⟨cycles, -, hhalts, -, hreport, hcost⟩ := serial_of_run hrun
  rw [hreport]
  refine ⟨?_, ?_, rfl⟩
  · rw [← hhalts.retirements (cycles + 1) (Nat.lt_succ_self cycles), begun_withoutCache]
    exact (retirements_withoutCache rfl (cycles + 1)).symm
  · rw [Schedule.ahead_zero] at hcost
    exact hcost

-- A program that loads two words and stores them in two lines, in a small machine where every
-- access waits twice.
theorem cycles_of_vector_copy :
    ∃ fresh, build { memory := ⟨4, 2⟩, cache := ⟨4, false⟩ } = .ok fresh ∧
      let machine := ((fresh.load 0 ([.transferImmediate .load 1 7, .vectorTransfer .load 0 1 2,
        .vectorTransfer .store 0 1 2].map Instruction.encode)).2).withCycles 100
      ∃ report final, machine.run 0 false .direct false = (.ok report, final) ∧
        (machine.begun 0 false .direct false).retirements report.cycles =
            executed (machine.withoutCache.course 0) report.retired ∧
          report.cycles = machine.memory.delay + 1 + ((List.range report.retired).map fun i =>
            machine.memory.delay + 5 + (machine.withoutCache.course 0 i).accesses *
              machine.memory.delay).sum ∧
          report.stalls = 0 := by
  have hbuild : build { memory := ⟨4, 2⟩, cache := ⟨4, false⟩ } = .ok _ := rfl
  refine ⟨_, hbuild, ?_⟩
  intro machine
  have hrun : machine.run 0 false .direct false = (.ok ⟨32, 3, 0, some 3⟩, _) :=
    Prod.ext (by decide +kernel) rfl
  exact ⟨_, _, hrun, cycles_of_run hrun⟩

-- Overlap never costs cycles. Where a run without overlap halts, and no instruction of it names the
-- counter or stores to a word that is fetched later, the run with overlap halts in as many cycles
-- or less.
theorem overlap_of_run {machine final : Machine} {address : Nat} {listening : Bool}
    {report : Report} (hrun : machine.run address false .direct listening = (.ok report, final))
    (hseparable : Separable machine.memory.capacity (machine.withoutCache.course address)
      report.retired) :
    ∃ report' final', machine.run address true .direct listening = (.ok report', final') ∧
      report'.haltId = report.haltId ∧ report'.retired = report.retired ∧
      report'.cycles ≤ report.cycles := by
  obtain ⟨cycles, hlimit, -, hcovers, hreport, hcost⟩ := serial_of_run hrun
  obtain ⟨cycles', hhalts, hcycles, hless⟩ :
      ∃ cycles', (machine.withoutCache.begun address true .direct listening).Halts _
        report.retired cycles' ∧ _ :=
    overlap_of_good machine.good_withoutCache hcovers hseparable
  have hdrive :=
    hhalts.drive_eq machine.config.run.maxCycles
      (show cycles' < machine.config.run.maxCycles by omega)
  have hbare := machine.run_withoutCache address true listening
  have hanswer := congrArg Prod.fst (hbare.symm.trans hdrive)
  refine ⟨_, (machine.run address true .direct listening).2, Prod.ext hanswer rfl,
    ?_, hhalts.retired, ?_⟩
  · rw [hreport]
    exact hhalts.haltId
  · rw [hreport, hcycles]
    show cycles' + 1 ≤ cycles + 1
    omega

-- The same program with its instructions one upon the other.
theorem overlap_of_waits :
    ∃ fresh, build { memory := ⟨4, 2⟩, cache := ⟨4, false⟩ } = .ok fresh ∧
      let machine := ((fresh.load 0 ([.transferImmediate .load 1 7, .vectorTransfer .load 0 1 2,
        .vectorTransfer .store 0 1 2].map Instruction.encode)).2).withCycles 100
      Separable machine.memory.capacity (machine.withoutCache.course 0) 3 ∧
      ∃ final, machine.run 0 false .direct false = (.ok ⟨32, 3, 0, some 3⟩, final) ∧
        ∃ report' final', machine.run 0 true .direct false = (.ok report', final') ∧
          report'.haltId = some 3 ∧ report'.retired = 3 ∧ report'.cycles ≤ 32 := by
  have hbuild : build { memory := ⟨4, 2⟩, cache := ⟨4, false⟩ } = .ok _ := rfl
  refine ⟨_, hbuild, ?_⟩
  intro machine
  have hrun : machine.run 0 false .direct false = (.ok ⟨32, 3, 0, some 3⟩, _) :=
    Prod.ext (by decide +kernel) rfl
  have hseparable : Separable machine.memory.capacity (machine.withoutCache.course 0) 3 := by
    refine ⟨by decide +kernel, ?_⟩
    have hstores : ∀ j < 4, ∀ i < j, ∀ x ∈ (machine.withoutCache.course 0 i).storeTargets,
        x % machine.memory.capacity ≠ (machine.withoutCache.course 0 j).address %
          machine.memory.capacity := by
      decide +kernel
    intro i j hij hj
    exact hstores j (by omega) i hij
  exact ⟨hseparable, _, hrun, overlap_of_run hrun hseparable⟩

end Machine

end PipelinedProcessor
