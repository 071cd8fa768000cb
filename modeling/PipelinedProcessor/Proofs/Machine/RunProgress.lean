import PipelinedProcessor.Proofs.Machine.Reached
import PipelinedProcessor.Proofs.Pipeline.Liveness

namespace PipelinedProcessor

open LawfulStorage LiveStorage Machine

theorem Machine.running_append {machine : Machine} {m n : Nat}
    (hfirst : ∀ i < m, (machine.after i).step.1 = .ok .running)
    (hsecond : ∀ i < n, ((machine.after m).after i).step.1 = .ok .running) :
    ∀ i < m + n, (machine.after i).step.1 = .ok .running := by
  intro i hi
  rcases Nat.lt_or_ge i m with hlt | hle
  · exact hfirst i hlt
  · obtain ⟨j, rfl⟩ := Nat.exists_eq_add_of_le hle
    rw [after_add]
    exact hsecond j (by omega)

section

variable {σ : Type} [Storage σ] [LawfulStorage σ] [LiveStorage σ]

namespace Port

-- A machine with a run that goes on, in which memory serves nobody but those who wait for it.
structure Live (port : Port σ) (machine : Machine) : Prop where
  good : port.Good machine.cache
  mode_eq : machine.mode = port.mode
  wellFormed : machine.pipeline.WellFormed
  attended : Attended machine.pipeline.slots.asks (port.get machine.cache)
  running : machine.pipeline.running = true

def distance (port : Port σ) (machine : Machine) : Nat × Nat × Nat :=
  machine.pipeline.distance (port.get machine.cache)

end Port

namespace Port.Live

variable {port : Port σ} {machine : Machine}

theorem begun (hgood : port.Good machine.cache) (address : Nat) (pipelined listening : Bool) :
    port.Live (machine.begun address pipelined port.mode listening) := by
  have hreleased := port.good_release hgood
  refine ⟨hreleased, rfl, Pipeline.wellFormed_start pipelined, ?_,
    (Pipeline.takeIn_same _).running_eq⟩
  refine Pipeline.takeIn_attended fun stage hstage => ?_
  rw [port.owner_eq rfl] at hstage
  cases hstage

variable (h : port.Live machine)

include h

theorem step (hanswer : machine.step.1 = .ok .running) : port.Live machine.step.2 ∧
    (machine.step.2.pipeline.retired = machine.pipeline.retired →
      WellFoundedRelation.rel (port.distance machine.step.2) (port.distance machine)) := by
  obtain ⟨after, hstep, hgood, hmode, hcontext⟩ := step_cases h.good h.mode_eq
  have hafter : port.get machine.step.2.cache = after.memory :=
    congrArg Context.memory (hcontext _ hanswer)
  rw [hanswer] at hstep
  obtain ⟨hattended, hnearer⟩ := Pipeline.step_nearer h.wellFormed h.attended h.running hstep
  rw [← hafter] at hattended hnearer
  have hwell := h.wellFormed.step (port.context machine)
  rw [hstep] at hwell
  have hrunning := (Pipeline.ticked_of_step h.running hstep).2.2.mpr rfl
  exact ⟨⟨hgood, hmode.trans h.mode_eq, hwell, hattended, hrunning⟩, hnearer⟩

-- As long as nothing happens the run comes nearer to the next retirement or to its end.
theorem progress : ∃ n, (∀ i < n, (machine.after i).step.1 = .ok .running) ∧
    (machine.after n).pipeline.retired = machine.pipeline.retired ∧
    ((machine.after n).step.1 ≠ .ok .running ∨
      (machine.after (n + 1)).pipeline.retired ≠ machine.pipeline.retired) := by
  induction machine using (invImage port.distance inferInstance).wf.induction with
  | h machine ih =>
      by_cases hevent : machine.step.1 ≠ .ok .running ∨
          machine.step.2.pipeline.retired ≠ machine.pipeline.retired
      · exact ⟨0, nofun, rfl, hevent⟩
      · rw [not_or, not_not, not_not] at hevent
        obtain ⟨hanswer, hretired⟩ := hevent
        obtain ⟨hlive, hnearer⟩ := h.step hanswer
        obtain ⟨n, hrunning, hsame, hlast⟩ := ih _ (hnearer hretired) hlive
        rw [after_step, hretired] at hsame
        rw [after_step, after_step, hretired] at hlast
        refine ⟨n + 1, ?_, hsame, hlast⟩
        intro i hi
        cases i with
        | zero => exact hanswer
        | succ i =>
            rw [← after_step]
            exact hrunning i (by omega)

theorem retired_step : machine.pipeline.retired ≤ machine.step.2.pipeline.retired ∧
    machine.step.2.pipeline.retired ≤ machine.pipeline.retired + 1 := by
  obtain ⟨after, hstep, -⟩ := step_cases h.good h.mode_eq
  obtain ⟨-, hsame | ⟨hone, -⟩⟩ := Pipeline.retired_step hstep <;> omega

theorem after_of_running {n : Nat} (hrunning : ∀ i < n, (machine.after i).step.1 = .ok .running) :
    port.Live (machine.after n) := by
  induction n with
  | zero => exact h
  | succ n ih => exact ((ih fun i hi => hrunning i (by omega)).step (hrunning n (by omega))).1

-- However many are to retire, the run comes to that or to its end.
theorem reaches (target : Nat) : ∃ n, (∀ i < n, (machine.after i).step.1 = .ok .running) ∧
    (target ≤ (machine.after n).pipeline.retired ∨ (machine.after n).step.1 ≠ .ok .running) := by
  induction target with
  | zero => exact ⟨0, nofun, .inl (Nat.zero_le _)⟩
  | succ target ih =>
      obtain ⟨n, hrunning, hcame | hend⟩ := ih
      · obtain ⟨m, hmore, hsame, hevent⟩ := (h.after_of_running hrunning).progress
        have hgoes := running_append hrunning hmore
        rw [← after_add] at hsame hevent
        rw [← after_add, ← Nat.add_assoc] at hevent
        by_cases hend : (machine.after (n + m)).step.1 = .ok .running
        · have hretired := hevent.resolve_left fun hnot => hnot hend
          have hone := (h.after_of_running hgoes).retired_step.1
          refine ⟨n + m + 1, ?_, .inl ?_⟩
          · intro i hi
            rcases Nat.lt_or_eq_of_le (Nat.le_of_lt_succ hi) with hlt | rfl
            · exact hgoes i hlt
            · exact hend
          · rw [after] at hretired ⊢
            omega
        · exact ⟨n + m, hgoes, .inr hend⟩
      · exact ⟨n, hrunning, .inr hend⟩

end Port.Live

end

end PipelinedProcessor
