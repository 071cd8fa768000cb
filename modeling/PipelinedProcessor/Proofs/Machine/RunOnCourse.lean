import PipelinedProcessor.Proofs.Machine.RunProgress
import PipelinedProcessor.Proofs.Pipeline.Underway

namespace PipelinedProcessor

open LawfulStorage LiveStorage Machine

section

variable {σ : Type} [Storage σ] [LawfulStorage σ] [LiveStorage σ]

namespace Port

theorem state_context (port : Port σ) {machine : Machine} (h : port.Good machine.cache) :
    (port.context machine).state = machine.state := by
  have hview := port.view_eq h
  simp only [Context.state, context, Machine.state, hview]
  rfl

-- Memory where a run begins, and what can be told of it there.
theorem begun_context (port : Port σ) {machine : Machine} (hgood : port.Good machine.cache)
    (address : Nat) (pipelined listening : Bool) :
    let begun := machine.begun address pipelined port.mode listening
    Sound (port.context begun).memory ∧
      LawfulStorage.capacity (port.context begun).memory = machine.memory.capacity ∧
      (port.context begun).state = begun.state := by
  have hreleased := port.good_release hgood
  exact ⟨port.sound hreleased, port.capacity_eq _, port.state_context hreleased⟩

-- A machine with a run that goes on, on its course.
structure Going (port : Port σ) (capacity : Nat) (course : Nat → ArchState) (last : Nat)
    (machine : Machine) : Prop extends port.Live machine where
  underway : Pipeline.Underway capacity course last machine.pipeline (port.context machine)

-- What the next cycle of such a run comes to.
inductive Advanced (port : Port σ) (capacity : Nat) (course : Nat → ArchState) (last : Nat)
    (machine : Machine) :
    Except Fault Message → Machine → Prop where
  | fault {cause : Fault} {next : Machine} (hserial : machine.pipeline.pipelined = false)
      (hstep : (course machine.pipeline.retired).step capacity = .error cause)
      (hretired : next.pipeline.retired = machine.pipeline.retired)
        (hstopped : next.pipeline.running = false) :
      Advanced port capacity course last machine (.error cause) next
  | halted {next : Machine} (hword : (course next.pipeline.retired).word = Word.halt)
      (hstate : next.state = course next.pipeline.retired)
      (hhalt : next.pipeline.haltId = some next.pipeline.retired)
      (hruns : ∀ i < next.pipeline.retired, ∃ t, (course i).step capacity = .ok (some t))
      (hstopped : next.pipeline.running = false) :
      Advanced port capacity course last machine (.ok .halted) next
  | running {next : Machine} (hgoing : port.Going capacity course last next) :
      Advanced port capacity course last machine (.ok .running) next

end Port

namespace Port.Going

variable {port : Port σ} {capacity : Nat} {course : Nat → ArchState} {last : Nat}
  {machine next : Machine} {answer : Except Fault Message}

theorem begun {machine : Machine} (hgood : port.Good machine.cache) {address : Nat}
    {pipelined listening : Bool}
    (hstart : course 0 = (machine.begun address pipelined port.mode listening).state)
    (hoverlap : pipelined = true → Overlappable machine.memory.capacity course last) :
    port.Going machine.memory.capacity course last
      (machine.begun address pipelined port.mode listening) := by
  obtain ⟨hsound, hcapacity, hstate⟩ := port.begun_context hgood address pipelined listening
  refine ⟨.begun hgood address pipelined listening, ?_⟩
  rw [← hcapacity] at hoverlap ⊢
  exact Pipeline.underway_start hsound (hstate.trans hstart.symm) hoverlap

variable (h : port.Going capacity course last machine)

include h

theorem runs_retired : ∀ i < machine.pipeline.retired, ∃ t,
    (course i).step capacity = .ok (some t) :=
  h.underway.tracks.runs_retired

-- What retires is the next instruction of the course.
theorem retiring_eq : machine.step.2.pipeline.retired = machine.pipeline.retired ∧
    machine.retiring = [] ∨
    machine.step.2.pipeline.retired = machine.pipeline.retired + 1 ∧ machine.retiring =
      [(some (course machine.pipeline.retired).address,
        some (course machine.pipeline.retired).word)] := by
  obtain ⟨after, hstep, -⟩ := step_cases h.good h.mode_eq
  by_cases hretired : machine.step.2.pipeline.retired = machine.pipeline.retired
  · exact .inl ⟨hretired, if_pos hretired⟩
  · obtain ⟨hone, f, hf, haddress, hraw⟩ := h.underway.retires hstep hretired
    refine .inr ⟨hone, (if_neg hretired).trans ?_⟩
    rw [hf, ← haddress, ← hraw]
    rfl

theorem pipelined_step : machine.step.2.pipeline.pipelined = machine.pipeline.pipelined := by
  obtain ⟨after, hstep, -⟩ := step_cases h.good h.mode_eq
  exact (Pipeline.retired_step hstep).1

variable (hcourse : ∀ n, course (n + 1) = (course n).next capacity)

include hcourse

theorem step (hresult : machine.step = (answer, next)) :
    port.Advanced capacity course last machine answer next := by
  obtain ⟨after, hstep, hgood, hmode, hcontext⟩ := step_cases h.good h.mode_eq
  rw [hresult] at hstep hgood hmode hcontext
  cases h.underway.stepped hcourse hstep with
  | fault hserial hfault hretired hstopped => exact .fault hserial hfault hretired hstopped
  | halted htracks hword hstate hhalt hstopped =>
      rw [← hcontext _ rfl, port.state_context hgood] at hstate
      exact .halted hword hstate hhalt htracks.runs_retired hstopped
  | running hunderway =>
      rw [← hcontext _ rfl] at hunderway
      have hlive := (h.toLive.step (congrArg Prod.fst hresult)).1
      rw [hresult] at hlive
      exact .running ⟨hlive, hunderway⟩

-- Without overlap every retirement leaves the machine between two instructions.
theorem state_of_retired (hserial : machine.pipeline.pipelined = false)
    (hretired : machine.step.2.pipeline.retired ≠ machine.pipeline.retired) :
    machine.step.2.state = course machine.step.2.pipeline.retired := by
  obtain ⟨after, hstep, hgood, hmode, hcontext⟩ := step_cases h.good h.mode_eq
  cases hanswer : machine.step.1 with
  | error cause =>
      rw [hanswer] at hstep
      exact absurd (Pipeline.retired_of_fault h.underway.running hstep) hretired
  | ok message =>
      rw [hanswer] at hstep
      have hstate := h.underway.state_of_retired hcourse hserial hstep hretired
      rwa [← hcontext message hanswer, port.state_context hgood] at hstate

theorem after_of_running {n : Nat} (hrunning : ∀ i < n, (machine.after i).step.1 = .ok .running) :
    port.Going capacity course last (machine.after n) := by
  induction n with
  | zero => exact h
  | succ n ih =>
      have hgoing := ih fun i hi => hrunning i (by omega)
      have hresult : (machine.after n).step = (.ok .running, machine.after (n + 1)) :=
        Prod.ext (hrunning n (by omega)) rfl
      cases hgoing.step hcourse hresult with
      | running hgoing' => exact hgoing'

-- As long as nothing happens it goes on.
theorem progress : ∃ n, port.Going capacity course last (machine.after n) ∧
    (machine.after n).pipeline.retired = machine.pipeline.retired ∧
    ((machine.after n).step.1 ≠ .ok .running ∨
      (machine.after (n + 1)).pipeline.retired ≠ machine.pipeline.retired) := by
  obtain ⟨n, hrunning, hsame, hevent⟩ := h.toLive.progress
  exact ⟨n, h.after_of_running hcourse hrunning, hsame, hevent⟩

end Port.Going

end

end PipelinedProcessor
