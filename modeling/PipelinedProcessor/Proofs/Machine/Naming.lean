import PipelinedProcessor.Proofs.Machine.Failing
import PipelinedProcessor.Proofs.Machine.Overlap
import PipelinedProcessor.Proofs.Machine.OverlappingRun
import PipelinedProcessor.Proofs.Pipeline.Naming

namespace PipelinedProcessor

open LawfulStorage LiveStorage Machine

namespace Machine

theorem executed_succ (course : Nat → ArchState) (count : Nat) :
    executed course (count + 1) =
      executed course count ++ [(some (course count).address, some (course count).word)] := by
  rw [executed, List.range_succ, List.map_append]
  rfl

end Machine

section

variable {σ : Type} [Storage σ] [LawfulStorage σ] [LiveStorage σ]

-- A machine with a run in which instructions overlap, before and after the first one that names the
-- counter: it keeps to the course until that one is in Memory Access, and then this one and those
-- before it are as good as done.
inductive Port.Naming (port : Port σ) (capacity : Nat) (course : Nat → ArchState) (last : Nat)
    (machine : Machine) :
    Prop where
  | before (hkeeping : port.Keeping capacity course last machine)
      (hcertain : ∀ f, machine.pipeline.slots.slot .memory = some f → f.state = .ready →
        machine.pipeline.Certain course last f.id)
  | behind (hlive : port.Live machine) (hbeyond : machine.pipeline.Beyond course last)

namespace Port.Naming

variable {port : Port σ} {capacity : Nat} {course : Nat → ArchState} {last : Nat}
  {machine : Machine}

theorem of_keeping (h : port.Keeping capacity course last machine)
    (hnamed : ¬(course last).Spares) :
    port.Naming capacity course last machine := by
  by_cases hfree : ∀ f, machine.pipeline.slots.slot .memory = some f →
    f.state = .ready → f.id ≠ last
  · exact .before h (h.tracks.certain_of_named h.pipelined hnamed hfree)
  · simp only [not_forall, not_not] at hfree
    obtain ⟨f, hf, hready, hid⟩ := hfree
    exact .behind h.toLive (h.tracks.beyond hf hready hid)

variable (h : port.Naming capacity course last machine)

include h

theorem live : port.Live machine := by
  cases h with
  | before hkeeping => exact hkeeping.toLive
  | behind hlive => exact hlive

-- What retires is the next instruction of the course, up to the one that names the counter.
theorem retiring_eq : machine.step.2.pipeline.retired = machine.pipeline.retired ∧
    machine.retiring = [] ∨
    machine.step.2.pipeline.retired = machine.pipeline.retired + 1 ∧
    ∃ entry, machine.retiring = [entry] ∧
      (machine.pipeline.retired ≤ last → entry = (some (course machine.pipeline.retired).address,
        some (course machine.pipeline.retired).word)) := by
  obtain ⟨after, hstep, -⟩ := step_cases h.live.good h.live.mode_eq
  by_cases hretired : machine.step.2.pipeline.retired = machine.pipeline.retired
  · exact .inl ⟨hretired, if_pos hretired⟩
  · right
    obtain ⟨-, hsame | ⟨hone, f, hf⟩⟩ := Pipeline.retired_step hstep
    · exact absurd hsame hretired
    · have hwriteBack : machine.pipeline.slots.writeBack = some f := hf
      refine ⟨hone, (f.address, f.raw), (if_neg hretired).trans (by rw [hwriteBack]; rfl),
        fun hle => ?_⟩
      have hlabels : f.address = some (course machine.pipeline.retired).address ∧
          f.raw = some (course machine.pipeline.retired).word := by
        cases h with
        | before hkeeping => exact hkeeping.tracks.labels hf fun _ => hle
        | behind _ hbeyond => exact hbeyond.labels hf hle
      rw [hlabels.1, hlabels.2]

variable (hcourse : ∀ n, course (n + 1) = (course n).next capacity) (hnamed : ¬(course last).Spares)

include hcourse hnamed

theorem step (hanswer : machine.step.1 = .ok .running) :
    port.Naming capacity course last machine.step.2 := by
  cases h with
  | before hkeeping hcertain => exact of_keeping (hkeeping.step hcourse hcertain hanswer) hnamed
  | behind hlive hbeyond =>
      obtain ⟨after, hstep, -⟩ := step_cases hlive.good hlive.mode_eq
      have hnext := hbeyond.step (port.context machine)
      rw [hstep] at hnext
      exact .behind (hlive.step hanswer).1 hnext

-- A run that halts has retired that one, and none before it fails.

theorem lt_of_halted (hanswer : machine.step.1 = .ok .halted) :
    last < machine.step.2.pipeline.retired := by
  cases h with
  | before hkeeping hcertain =>
      obtain ⟨hmode, htracks, hhalt⟩ := hkeeping.halted hcourse hcertain hanswer
      exact (htracks.not_halted_of_named hmode hnamed hhalt).elim
  | behind hlive hbeyond =>
      obtain ⟨after, hstep, -⟩ := step_cases hlive.good hlive.mode_eq
      have hnext := hbeyond.step (port.context machine)
      rw [hanswer] at hstep
      rw [hstep] at hnext
      exact hnext.lt_retired_of_empty (Pipeline.emptied_of_halted hlive.running hstep).2

omit hnamed in
theorem le_of_raises {cause : Fault} {f : Flight}
    (hraises : machine.pipeline.Raises (port.context machine) cause f) : last ≤ f.id := by
  cases h with
  | before hkeeping hcertain =>
      exact hkeeping.tracks.le_of_raises hkeeping.pipelined hcourse hcertain
        hkeeping.running hraises
  | behind _ hbeyond => exact hbeyond.le_of_raises hraises

theorem ends (hend : machine.step.1 ≠ .ok .running) : last < machine.step.2.pipeline.retired ∨
    ∃ cause f, machine.pipeline.Raises (port.context machine) cause f ∧ last ≤ f.id := by
  obtain ⟨after, hstep, -⟩ := step_cases h.live.good h.live.mode_eq
  cases hanswer : machine.step.1 with
  | error cause =>
      rw [hanswer] at hstep
      obtain ⟨-, f, hraises⟩ := Pipeline.raises_of_step (congrArg Prod.fst hstep)
      exact .inr ⟨cause, f, hraises, h.le_of_raises hcourse hraises⟩
  | ok message =>
      cases message with
      | idle => exact absurd hanswer (Pipeline.ticked_of_step h.live.running hstep).2.1
      | running => exact absurd hanswer hend
      | halted => exact .inl (h.lt_of_halted hcourse hnamed hanswer)

omit hnamed in
-- What that one finds in the counter.
theorem counter_eq {f : Flight} {registers : Registers}
    (hexecutes : machine.pipeline.Executes (port.context machine) f registers) (hid : f.id = last) :
    f.address = some (course last).address ∧
      registers.counter = ((course last).address + (machine.pipeline.passed .fetch - last)) %
        Word.bound := by
  cases h with
  | before hkeeping hcertain =>
      exact hkeeping.tracks.counter_of_overlap hcourse hcertain hexecutes hkeeping.pipelined hid
  | behind _ hbeyond =>
      have hexecuted := hbeyond.executed
      rw [hbeyond.wellFormed.passed_eq hexecutes.slot_eq (by simp [hexecutes.ready])] at hexecuted
      omega

-- A whole run.

theorem after_cases (n : Nat) :
    port.Naming capacity course last (machine.after n) ∨
    (machine.after n).pipeline.running = false := by
  induction n with
  | zero => exact .inl h
  | succ n ih =>
      rcases ih with hnaming | hover
      · by_cases hanswer : (machine.after n).step.1 = .ok .running
        · exact .inl (hnaming.step hcourse hnamed hanswer)
        · obtain ⟨after, hstep, -⟩ := step_cases hnaming.live.good hnaming.live.mode_eq
          exact .inr (Pipeline.stopped_of_step hnaming.live.running hstep hanswer)
      · right
        rw [after, step_of_over hover]
        exact hover

theorem after_of_running {n : Nat} (hrunning : (machine.after n).pipeline.running = true) :
    port.Naming capacity course last (machine.after n) := by
  rcases h.after_cases hcourse hnamed n with hnaming | hover
  · exact hnaming
  · rw [hrunning] at hover
    cases hover

theorem retiring_after (n : Nat) :
    (machine.after (n + 1)).pipeline.retired = (machine.after n).pipeline.retired ∧
        (machine.after n).retiring = [] ∨
      (machine.after (n + 1)).pipeline.retired = (machine.after n).pipeline.retired + 1 ∧
        ∃ entry, (machine.after n).retiring = [entry] ∧ ((machine.after n).pipeline.retired ≤ last →
          entry = (some (course (machine.after n).pipeline.retired).address,
            some (course (machine.after n).pipeline.retired).word)) := by
  rcases h.after_cases hcourse hnamed n with hnaming | hover
  · exact hnaming.retiring_eq
  · have hretired : (machine.after n).step.2.pipeline.retired =
        (machine.after n).pipeline.retired := by
      rw [step_of_over hover]
    exact .inl ⟨hretired, if_pos hretired⟩

-- Up to that one the course retires.
theorem retirements_take (hzero : machine.pipeline.retired = 0) (n : Nat) :
    (machine.retirements n).length = (machine.after n).pipeline.retired ∧
      (machine.retirements n).take (last + 1) =
        executed course (min (machine.after n).pipeline.retired (last + 1)) := by
  induction n with
  | zero =>
      rw [after, hzero]
      exact ⟨rfl, rfl⟩
  | succ n ih =>
      obtain ⟨hlength, htake⟩ := ih
      rw [retirements]
      rcases h.retiring_after hcourse hnamed n with
        ⟨hretired, hnone⟩ | ⟨hretired, entry, hone, hentry⟩
      · rw [hretired, hnone, List.append_nil]
        exact ⟨hlength, htake⟩
      · rw [hretired, hone, List.length_append, hlength]
        refine ⟨rfl, ?_⟩
        rcases Nat.lt_or_ge last (machine.after n).pipeline.retired with hlt | hle
        · rw [List.take_append_of_le_length (by omega), htake, Nat.min_eq_right (by omega),
            Nat.min_eq_right (by omega)]
        · have hshort : (machine.retirements n ++ [entry]).length ≤ last + 1 := by
            rw [List.length_append, hlength]
            exact Nat.succ_le_succ hle
          rw [List.take_of_length_le (by omega), Nat.min_eq_left (by omega)] at htake
          rw [List.take_of_length_le hshort, htake, Nat.min_eq_left (by omega),
            executed_succ, hentry hle]

-- It comes to that one.
theorem reaches_named : (∃ n, last < (machine.after n).pipeline.retired) ∨
    ∃ n cause f, (machine.after n).pipeline.Raises (port.context (machine.after n)) cause f ∧
    last ≤ f.id := by
  obtain ⟨n, hrunning, hcame⟩ := h.live.reaches (last + 1)
  rcases hcame with hcame | hend
  · exact .inl ⟨n, hcame⟩
  · have hnaming := h.after_of_running hcourse hnamed (h.live.after_of_running hrunning).running
    rcases hnaming.ends hcourse hnamed hend with hretired | ⟨cause, f, hraises⟩
    · exact .inl ⟨n + 1, hretired⟩
    · exact .inr ⟨n, cause, f, hraises⟩

end Port.Naming

end

namespace Machine

-- An instruction that is carried out in the next cycle, and the registers that it finds, in the
-- memory mode of the machine.
def Executes (machine : Machine) (f : Flight) (registers : Registers) : Prop :=
  match machine.mode with
  | .cache => machine.pipeline.Executes (Cache.port.context machine) f registers
  | .direct => machine.pipeline.Executes (MainMemory.port.context machine) f registers

-- A run of which instruction `k` is the first that names the counter: up to that one it retires the
-- course, and it comes to retire it unless that one fails or one behind it. That one finds the
-- counter as far past its own address as fetching has gone on since.
structure Names (course : Nat → ArchState) (k : Nat) (machine : Machine) : Prop where
  retirements : ∀ n, (machine.retirements n).take (k + 1) =
    executed course (min (machine.after n).pipeline.retired (k + 1))
  reaches : (∃ n, k < (machine.after n).pipeline.retired) ∨
    ∃ n cause f, (machine.after n).Raises cause f ∧ k ≤ f.id
  counter : ∀ n f registers, (machine.after n).Executes f registers → f.id = k →
    f.address = some (course k).address ∧
      registers.counter =
        ((course k).address + ((machine.after n).pipeline.passed .fetch - k)) % Word.bound

end Machine

-- A port that shows what is said of the machines in its mode.
structure Port.Faithful {σ : Type} [Storage σ] [LawfulStorage σ] [LiveStorage σ] (port : Port σ) :
    Prop where
  executes : ∀ {machine : Machine} {f registers}, machine.mode = port.mode →
    machine.Executes f registers →
    machine.pipeline.Executes (port.context machine) f registers
  raises : ∀ {machine : Machine} {cause f}, machine.mode = port.mode →
    machine.pipeline.Raises (port.context machine) cause f → machine.Raises cause f

theorem Cache.port_faithful : Cache.port.Faithful where
  executes hmode h := by
    rw [Executes, hmode] at h
    exact h
  raises hmode h := by
    rw [Raises, hmode]
    exact h

theorem MainMemory.port_faithful : MainMemory.port.Faithful where
  executes hmode h := by
    rw [Executes, hmode] at h
    exact h
  raises hmode h := by
    rw [Raises, hmode]
    exact h

section

variable {σ : Type} [Storage σ] [LawfulStorage σ] [LiveStorage σ] {port : Port σ}
  {machine : Machine} (hgood : port.Good machine.cache) (hfaithful : port.Faithful)

include hgood hfaithful

namespace Port.Faithful

-- Without overlap an instruction finds the counter one past its own address.
theorem counter_of_serial {address n : Nat} {listening : Bool} {f : Flight} {registers : Registers}
    (hexecutes : ((machine.begun address false port.mode listening).after n).Executes f registers) :
    f.address = some (machine.course address f.id).address ∧
      registers.counter = ((machine.course address f.id).address + 1) % Word.bound := by
  have hcourse (n : Nat) : machine.course address (n + 1) =
      (machine.course address n).next machine.memory.capacity := rfl
  have hserial : port.Going machine.memory.capacity (machine.course address) 0
      (machine.begun address false port.mode listening) := .begun hgood rfl nofun
  have hdriven : port.Driven (machine.begun address false port.mode listening) :=
    .begun machine address false listening
  replace hexecutes := hfaithful.executes (hdriven.after n).mode_eq hexecutes
  have hgoing := hserial.going_of_on hcourse hexecutes.running
  exact hgoing.underway.tracks.counter_of_serial hcourse hgoing.underway.certain_of_memory hexecutes
    (hserial.pipelined_after hcourse n)

theorem names {address k : Nat} {listening : Bool}
    (hoverlap : Runnable machine.memory.capacity (machine.course address) k)
    (hnamed : ¬(machine.course address k).Spares) :
    (machine.begun address true port.mode listening).Names (machine.course address) k := by
  have hcourse (n : Nat) : machine.course address (n + 1) =
      (machine.course address n).next machine.memory.capacity := rfl
  have hnaming : port.Naming machine.memory.capacity (machine.course address) k
      (machine.begun address true port.mode listening) :=
        .of_keeping (.begun hgood rfl hoverlap) hnamed
  have hdriven : port.Driven (machine.begun address true port.mode listening) :=
    .begun machine address true listening
  refine ⟨fun n => (hnaming.retirements_take hcourse hnamed (machine.retired_begun ..) n).2, ?_, ?_⟩
  · rcases hnaming.reaches_named hcourse hnamed with hretired | ⟨n, cause, f, hraises, hle⟩
    · exact .inl hretired
    · exact .inr ⟨n, cause, f, hfaithful.raises (hdriven.after n).mode_eq hraises, hle⟩
  · intro n f registers hexecutes hid
    replace hexecutes := hfaithful.executes (hdriven.after n).mode_eq hexecutes
    exact (hnaming.after_of_running hcourse hnamed hexecutes.running).counter_eq
      hcourse hexecutes hid

end Port.Faithful

end

namespace Machine

-- Where a run without overlap comes to the word that halts, each of its instructions is fetched
-- from where the one before it has left the counter, whether or not that one writes there, and
-- finds the counter one past its own address. Where instructions overlap and none stores to a word
-- that is fetched later, the run is the same up to the first of them that names the counter, itself
-- included, but this one finds there what fetching has made of it since.
theorem counter_of_reached {mode : MemoryMode} {machine : Machine} (h : machine.Reached mode)
    (address : Nat) (listening : Bool) {limit : Nat} {report : Report} {final : Machine}
    (hserial : (machine.withCycles limit).run address false mode listening = (.ok report, final)) :
    (machine.begun address false mode listening).retirements limit =
        executed (machine.course address) report.retired ∧
      (∀ i < report.retired, (machine.course address i).step machine.memory.capacity =
        .ok (some (machine.course address (i + 1)))) ∧
      (∀ n f registers,
        ((machine.begun address false mode listening).after n).Executes f registers →
        f.address = some (machine.course address f.id).address ∧
          registers.counter = ((machine.course address f.id).address + 1) % Word.bound) ∧
      ∀ k < report.retired, Separable machine.memory.capacity (machine.course address) k →
        ¬(machine.course address k).Spares →
          (machine.begun address true mode listening).Names (machine.course address) k := by
  obtain ⟨cycles, hlimit, hhalted, rfl, rfl⟩ := halted_of_run hserial
  obtain ⟨count, hhalts⟩ : ∃ count,
      (machine.begun address false mode listening).Halts (machine.course address) count cycles := by
    cases mode with
    | cache =>
        obtain ⟨count, hhalts, -⟩ :=
          Cache.port.exists_halts_of_good (h.ready Cache.port).good hhalted
        exact ⟨count, hhalts⟩
    | direct =>
        obtain ⟨count, hhalts, -⟩ :=
          MainMemory.port.exists_halts_of_good (h.ready MainMemory.port).good hhalted
        exact ⟨count, hhalts⟩
  have hruns := (h.interprets address listening).runs (cycles + 1)
  obtain rfl := hhalts.retired
  refine ⟨hhalts.retirements limit hlimit, ?_, ?_, ?_⟩
  · intro i hi
    obtain ⟨t, ht⟩ := hruns i hi
    have hnext : machine.course address (i + 1) = t := ArchState.next_of_step ht
    rw [hnext]
    exact ht
  · intro n f registers hexecutes
    cases mode with
    | cache => exact Cache.port_faithful.counter_of_serial (h.ready Cache.port).good hexecutes
    | direct =>
        exact MainMemory.port_faithful.counter_of_serial (h.ready MainMemory.port).good hexecutes
  · intro k hk hseparable hnamed
    have hoverlap : Runnable machine.memory.capacity (machine.course address) k :=
      ⟨hseparable, fun i hi => hruns i (Nat.lt_trans hi hk)⟩
    cases mode with
    | cache => exact Cache.port_faithful.names (h.ready Cache.port).good hoverlap hnamed
    | direct => exact MainMemory.port_faithful.names (h.ready MainMemory.port).good hoverlap hnamed

-- A program that adds nothing to the counter, in a small machine.
theorem counter_of_addition :
    ∃ fresh, build { memory := ⟨2, 1⟩, cache := ⟨4, false⟩ } = .ok fresh ∧
      let machine :=
  (fresh.load 0 ([.transferImmediate .load 1 7, .scalarImmediate false .add 2 15 0].map
        Instruction.encode)).2
      Separable machine.memory.capacity (machine.course 0) 1 ∧ ¬(machine.course 0 1).Spares ∧
      ∃ report final, (machine.withCycles 100).run 0 false .cache false = (.ok report, final) ∧
      report.retired = 2 ∧
        (machine.begun 0 false .cache false).retirements 100 = executed (machine.course 0) 2 ∧
        (machine.begun 0 true .cache false).Names (machine.course 0) 1 := by
  have hbuild : build { memory := ⟨2, 1⟩, cache := ⟨4, false⟩ } = .ok _ := rfl
  refine ⟨_, hbuild, ?_⟩
  intro machine
  have hreached : machine.Reached .cache := (Reached.built hbuild).load 0 _
  have hserial : (machine.withCycles 100).run 0 false .cache false = (.ok ⟨12, 2, 0, some 2⟩, _) :=
    Prod.ext (by decide +kernel) rfl
  have hnamed : ¬(machine.course 0 1).Spares := by decide +kernel
  have hseparable : Separable machine.memory.capacity (machine.course 0) 1 := by
    refine ⟨by decide +kernel, ?_⟩
    have hstores : ∀ j < 2, ∀ i < j, ∀ x ∈ (machine.course 0 i).storeTargets,
        x % machine.memory.capacity ≠ (machine.course 0 j).address % machine.memory.capacity := by
      decide +kernel
    intro i j hij hj
    exact hstores j (by omega) i hij
  obtain ⟨hretirements, -, -, hnames⟩ := counter_of_reached hreached 0 false hserial
  exact ⟨hseparable, hnamed, _, _, hserial, rfl, hretirements,
    hnames 1 (by decide) hseparable hnamed⟩

-- Where instructions overlap, one that writes the counter does not keep back those that are fetched
-- behind it, and one that reads it finds it past them: such programs retire what they do not retire
-- otherwise.
theorem counter_apart :
    let writer : List Instruction := [.transferImmediate .load 15 2, .transferImmediate .load 1 7]
    let reader : List Instruction :=
      [.scalarImmediate false .compare 0 15 1, .branch .eq false 2, .transferImmediate .load 1 7]
    ∃ fresh, build { memory := ⟨1, 0⟩, cache := ⟨4, false⟩ } = .ok fresh ∧
      let loaded (program : List Instruction) := (fresh.load 0 (program.map Instruction.encode)).2
      (((loaded writer).withCycles 100).run 0 false .direct false).1 = .ok ⟨6, 1, 0, some 1⟩ ∧
      (((loaded writer).withCycles 100).run 0 true .direct false).1 = .ok ⟨6, 2, 0, some 2⟩ ∧
      (((loaded reader).withCycles 100).run 0 false .direct false).1 = .ok ⟨11, 2, 0, some 2⟩ ∧
      (((loaded reader).withCycles 100).run 0 true .direct false).1 = .ok ⟨12, 3, 2, some 3⟩ ∧
      ∀ program ∈ [writer, reader],
        (∀ i < 4, ((loaded program).course 0 i).storeTargets = []) ∧
        ¬((loaded program).course 0 0).Spares ∧
          ((loaded program).begun 0 true .direct false).retirements 100 ≠
            ((loaded program).begun 0 false .direct false).retirements 100 := by
  intro writer reader
  have hbuild : build { memory := ⟨1, 0⟩, cache := ⟨4, false⟩ } = .ok _ := rfl
  refine ⟨_, hbuild, ?_⟩
  intro loaded
  exact ⟨by decide +kernel, by decide +kernel, by decide +kernel,
    by decide +kernel, by decide +kernel⟩

end Machine

end PipelinedProcessor
