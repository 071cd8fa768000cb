import PipelinedProcessor.Proofs.Pipeline.Retirement

namespace PipelinedProcessor.Pipeline

open Flight

section

variable {σ : Type} [Storage σ] {p : Pipeline} {context : Context σ} {cause : Fault}

-- The instruction that a cycle fails with. Memory Access works before Execute, which does not come
-- to its turn when that fails.
inductive Raises (p : Pipeline) (context : Context σ) (cause : Fault) : Flight → Prop where
  | access {f : Flight} (hf : p.slots.slot .memory = some f) (hready : f.state = .ready)
      (hfault : (f.access (p.committed context)).1 = some cause) : Raises p context cause f
  | execute {f : Flight} (hf : p.slots.slot .execute = some f) (hready : f.state = .ready)
      (hserved : (p.tick.accessed context).1 = none)
      (hfault : f.execute (p.tick.accessed context).2.2.registers
        (p.tick.accessed context).2.2.vectors =
        .error cause) : Raises p context cause f

theorem Raises.slot {f : Flight} (h : p.Raises context cause f) :
    ∃ stage, (stage = .memory ∨ stage = .execute) ∧ p.slots.slot stage = some f ∧
    f.state = .ready := by
  cases h with
  | access hf hready => exact ⟨.memory, .inl rfl, hf, hready⟩
  | execute hf hready => exact ⟨.execute, .inr rfl, hf, hready⟩

-- What Memory Access fails with, and whom Execute has then.

theorem fault_accessed {f : Flight} (hrunning : p.running = true)
    (hf : p.slots.slot .memory = some f) (hready : f.state = .ready) :
    (p.tick.accessed context).1 = (f.access (p.committed context)).1 := by
  have hslot := ((p.tick.commitStage_works context).slot_eq .memory nofun).trans hf
  rcases haccess : f.access (p.tick.commitStage context).2 with ⟨fault, f', after⟩
  rw [committed_eq context hrunning, haccess, accessed, accessStage_of_ready hslot hready haccess]

-- What a cycle that fails comes to: the work of the last two stages, whether or not it is they that
-- fail.
theorem work_of_raises {f : Flight} (hrunning : p.running = true) (h : p.Raises context cause f) :
    p.tick.work context = (some cause, (p.tick.accessed context).2) := by
  cases h with
  | access hf hready hfault =>
      rw [committed_eq context hrunning] at hfault
      have hslot := ((p.tick.commitStage_works context).slot_eq .memory (by decide)).trans hf
      rcases haccess : f.access (p.tick.commitStage context).2 with ⟨fault, f', after⟩
      rw [haccess] at hfault
      have hstage := accessStage_of_ready hslot hready haccess
      rw [show fault = some cause from hfault] at hstage
      simp only [Pipeline.work, accessed, hstage]
  | execute hf hready hserved hfault =>
      have hslot := (p.tick.slot_accessed context .execute (by decide) (by decide)).trans hf
      rcases haccess :
        (p.tick.commitStage context).1.accessStage (p.tick.commitStage context).2 with
        ⟨fault, q, after⟩
      simp only [accessed, haccess] at hserved hfault hslot ⊢
      obtain rfl := hserved
      have hexecute : q.executeStage after.registers after.vectors = .error cause := by
        rw [executeStage_of_ready hslot hready, hfault]
        rfl
      simp only [Pipeline.work, haccess, hexecute]

-- A cycle fails if an instruction raises a fault in it, and with that fault.
theorem step_of_raises {f : Flight} (hrunning : p.running = true) (h : p.Raises context cause f) :
    p.step context =
      (.error cause, { (p.tick.accessed context).2.1 with running := false },
        (p.tick.accessed context).2.2) :=
  step_of_fault hrunning (work_of_raises hrunning h)

theorem raises_of_work (hrunning : p.running = true) (h : (p.tick.work context).1 = some cause) :
    ∃ f, p.Raises context cause f := by
  rcases haccess : (p.tick.commitStage context).1.accessStage (p.tick.commitStage context).2 with
    ⟨fault, q, after⟩
  have hcommitted := committed_eq context hrunning
  cases fault with
  | some fault =>
      simp only [Pipeline.work, haccess] at h
      obtain rfl := Option.some.inj h
      rcases in_state_or_not ((p.tick.commitStage context).1.slots.slot .memory) .ready with
        ⟨f, hf, hready⟩ | hidle
      · refine ⟨f,
          .access (((p.tick.commitStage_works context).slot_eq .memory (by decide)).symm.trans hf)
            hready ?_⟩
        rcases hresult : f.access (p.tick.commitStage context).2 with ⟨fault', f', after'⟩
        rw [accessStage_of_ready hf hready hresult] at haccess
        rw [hcommitted, hresult]
        exact (Prod.mk.inj haccess).1
      · rw [accessStage_of_idle hidle] at haccess
        cases (Prod.mk.inj haccess).1
  | none =>
      cases hexecute : q.executeStage after.registers after.vectors with
      | ok executed =>
          simp only [Pipeline.work, haccess, hexecute] at h
          cases h
      | error fault =>
          simp only [Pipeline.work, haccess, hexecute] at h
          obtain rfl := Option.some.inj h
          rcases in_state_or_not (q.slots.slot .execute) .ready with ⟨f, hf, hready⟩ | hidle
          · have hslot := p.tick.slot_accessed context .execute (by decide) (by decide)
            rw [accessed, haccess, hf] at hslot
            refine ⟨f, .execute hslot.symm hready ?_ ?_⟩
            · rw [accessed, haccess]
            · rw [accessed, haccess]
              rw [executeStage_of_ready hf hready] at hexecute
              exact error_of_map hexecute
          · rw [executeStage_of_idle hidle] at hexecute
            cases hexecute

theorem raises_of_step (h : (p.step context).1 = .error cause) :
    p.running = true ∧ ∃ f, p.Raises context cause f := by
  have hrunning : p.running = true := by
    by_contra hstopped
    rw [step_of_stopped (Bool.eq_false_iff.mpr hstopped)] at h
    cases h
  refine ⟨hrunning, raises_of_work hrunning ?_⟩
  rcases hwork : p.tick.work context with ⟨fault, worked, after⟩
  cases fault with
  | some fault =>
      rw [step_of_fault hrunning hwork] at h
      obtain rfl := Except.error.inj h
      rfl
  | none =>
      by_cases hlast : worked.advance.haltId.isSome ∧ worked.advance.slots.flights = []
      · rw [step_of_end hrunning hwork hlast] at h
        cases h
      · rw [step_of_running hrunning hwork hlast] at h
        cases h

end

end PipelinedProcessor.Pipeline
