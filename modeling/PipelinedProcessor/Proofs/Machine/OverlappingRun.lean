import PipelinedProcessor.Proofs.Machine.RunOnCourse
import PipelinedProcessor.Proofs.Pipeline.FaultingCourse

namespace PipelinedProcessor

open LawfulStorage LiveStorage Machine

section

variable {σ : Type} [Storage σ] [LawfulStorage σ] [LiveStorage σ]

-- A machine with a run in which instructions overlap, and which keeps to a course up to the last of
-- some of its instructions.
structure Port.Keeping (port : Port σ) (capacity : Nat) (course : Nat → ArchState) (last : Nat)
    (machine : Machine) :
    Prop extends port.Live machine where
  pipelined : machine.pipeline.pipelined = true
  tracks : Pipeline.Tracks capacity course last machine.pipeline (port.context machine)

namespace Port.Keeping

variable {port : Port σ} {capacity : Nat} {course : Nat → ArchState} {last : Nat}
  {machine : Machine}

theorem begun (hgood : port.Good machine.cache) {address : Nat} {listening : Bool}
    (hstart : course 0 = (machine.begun address true port.mode listening).state)
    (hoverlap : Runnable machine.memory.capacity course last) :
    port.Keeping machine.memory.capacity course last
      (machine.begun address true port.mode listening) := by
  obtain ⟨hsound, hcapacity, hstate⟩ := port.begun_context hgood address true listening
  refine ⟨.begun hgood address true listening, rfl, ?_⟩
  rw [← hcapacity] at hoverlap ⊢
  exact Pipeline.tracks_start hsound (hstate.trans hstart.symm) fun (_ : true = true) => hoverlap

variable (h : port.Keeping capacity course last machine)
  (hcourse : ∀ n, course (n + 1) = (course n).next capacity)
    (hcertain : ∀ f, machine.pipeline.slots.slot .memory = some f → f.state = .ready →
    machine.pipeline.Certain course last f.id)

include h

theorem not_idle : machine.step.1 ≠ .ok .idle := by
  obtain ⟨after, hstep, -⟩ := step_cases h.good h.mode_eq
  exact (Pipeline.ticked_of_step h.running hstep).2.1

theorem raises {cause : Fault} (hanswer : machine.step.1 = .error cause) :
    ∃ f, machine.pipeline.Raises (port.context machine) cause f := by
  obtain ⟨after, hstep, -⟩ := step_cases h.good h.mode_eq
  rw [hanswer] at hstep
  exact (Pipeline.raises_of_step (congrArg Prod.fst hstep)).2

include hcourse hcertain

theorem step (hanswer : machine.step.1 = .ok .running) :
    port.Keeping capacity course last machine.step.2 := by
  obtain ⟨after, hstep, -, -, hcontext⟩ := step_cases h.good h.mode_eq
  rw [hanswer] at hstep
  have htracks := (h.tracks.step hcourse hcertain h.running hstep).1
  rw [← hcontext _ hanswer] at htracks
  exact ⟨(h.toLive.step hanswer).1, (Pipeline.retired_step hstep).1.trans h.pipelined, htracks⟩

theorem halted (hanswer : machine.step.1 = .ok .halted) :
    machine.step.2.pipeline.pipelined = true ∧
      Pipeline.Tracks capacity course last machine.step.2.pipeline (port.context machine.step.2) ∧
      machine.step.2.pipeline.haltId = some machine.step.2.pipeline.retired := by
  obtain ⟨after, hstep, -, -, hcontext⟩ := step_cases h.good h.mode_eq
  rw [hanswer] at hstep
  obtain ⟨htracks, ⟨hmessage, -⟩ | ⟨-, hhalt, -⟩⟩ := h.tracks.step hcourse hcertain h.running hstep
  · cases hmessage
  · rw [← hcontext _ hanswer] at htracks
    exact ⟨(Pipeline.retired_step hstep).1.trans h.pipelined, htracks, hhalt⟩

end Port.Keeping

end

end PipelinedProcessor
