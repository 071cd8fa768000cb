import PipelinedProcessor.Proofs.Machine.Basic
import PipelinedProcessor.Proofs.Machine.Port
import PipelinedProcessor.Proofs.Pipeline.Attempts

namespace PipelinedProcessor

open LawfulStorage

-- A valid configuration gives every set of the cache a way.
theorem Config.ways_pos {config : Config} (h : config.error? = none) :
    0 < config.cache.lines / Cache.setCount := by
  by_contra hzero
  have hlines : config.cache.lines = 0 ∨ config.cache.lines % Cache.setCount ≠ 0 := by
    simp only [Cache.setCount] at hzero ⊢
    omega
  simp only [error?, Bool.or_eq_true, decide_eq_true_eq, if_pos hlines] at h
  split at h
  · cases h
  · cases h

open Machine

section

variable {σ : Type} [Storage σ] [LawfulStorage σ] [LiveStorage σ] {port : Port σ}
  {machine : Machine}

namespace Port

def context (port : Port σ) (machine : Machine) : Context σ :=
  ⟨machine.registers, machine.vectors, port.get machine.cache⟩

-- The cycle of a machine is one of its pipeline, on the memory that the mode names. After a fault
-- what memory was busy with is forgotten.
theorem step_cases (hgood : port.Good machine.cache) (hmode : machine.mode = port.mode) :
    ∃ after, machine.pipeline.step (port.context machine) =
      (machine.step.1, machine.step.2.pipeline, after) ∧
      port.Good machine.step.2.cache ∧ machine.step.2.mode = machine.mode ∧
      ∀ message, machine.step.1 = .ok message → port.context machine.step.2 = after := by
  rcases hstep : machine.pipeline.step (port.context machine) with ⟨found, p, after⟩
  have hgood' := port.good_set hgood (Pipeline.step_sound (port.sound hgood) hstep)
  have hcycle := port.cycle_eq hmode hstep
  have hcontext :
      (⟨after.registers, after.vectors, port.get (port.set machine.cache after.memory)⟩ : Context σ)
      = after := by
    rw [port.get_set]
  cases found with
  | error fault =>
      rw [step_of_fault hcycle]
      exact ⟨after, rfl, port.good_release hgood', rfl, nofun⟩
  | ok message =>
      by_cases hmessage : message = .halted
      · rw [hmessage] at hcycle
        rw [step_of_halted hcycle]
        exact ⟨after, by rw [hmessage], hgood', rfl, fun _ _ => hcontext⟩
      · rw [step_of_message hcycle hmessage]
        exact ⟨after, rfl, hgood', rfl, fun _ _ => hcontext⟩

-- What is in good order in every machine that was reached.
structure Ready (port : Port σ) (machine : Machine) : Prop where
  good : port.Good machine.cache
  mode_eq : machine.pipeline.running = true → machine.mode = port.mode

theorem good_build {config : Config} (hbuild : build config = .ok machine)
    (lines : Vector (Vector Word lineLength) machine.cache.memory.lineCount) :
    port.Good { machine.cache with memory.lines := lines } ∧ machine.pipeline.running = false := by
  obtain ⟨hvalid, rfl⟩ := eq_of_build hbuild
  exact ⟨port.good_empty (Config.ways_pos hvalid) _ _, rfl⟩

theorem Ready.step (h : port.Ready machine) : port.Ready machine.step.2 := by
  by_cases hrunning : machine.pipeline.running = true
  · obtain ⟨after, -, hgood, hmode, -⟩ := step_cases h.good (h.mode_eq hrunning)
    exact ⟨hgood, fun _ => hmode.trans (h.mode_eq hrunning)⟩
  · rw [step_of_over (Bool.eq_false_iff.mpr hrunning)]
    exact h

theorem Ready.after (h : port.Ready machine) (n : Nat) : port.Ready (machine.after n) := by
  induction n with
  | zero => exact h
  | succ n ih => exact ih.step

end Port

theorem Machine.Reached.ready (port : Port σ) (h : machine.Reached port.mode) :
    port.Ready machine := by
  induction h with
  | fresh hbuild lines =>
      obtain ⟨hgood, hstopped⟩ := port.good_build hbuild lines
      exact ⟨hgood, fun hrunning => absurd hrunning (Bool.eq_false_iff.mp hstopped)⟩
  | @load machine _ start program ih =>
      rcases Nat.lt_or_ge machine.memory.capacity (withHalt program).length with hlt | hle
      · rw [load_of_lt hlt]
        exact ih
      · rw [load_of_le hle]
        exact ⟨port.good_load ih.good _ start (withHalt program), ih.mode_eq⟩
  | start _ address pipelined listening ih => exact ⟨port.good_release ih.good, fun _ => rfl⟩
  | step _ ih => exact ih.step
  | abort _ ih => exact ⟨port.good_release ih.good, nofun⟩
  | reset _ hreset ih =>
      obtain ⟨built, hbuild, rfl⟩ := ok_of_map hreset
      obtain ⟨hgood, hstopped⟩ := port.good_build hbuild built.cache.memory.lines
      exact ⟨hgood, fun hrunning => absurd hrunning (Bool.eq_false_iff.mp hstopped)⟩

end

end PipelinedProcessor
