import PipelinedProcessor.Proofs.Pipeline.Simulation

namespace PipelinedProcessor.Pipeline

open Flight LawfulStorage

-- Whoever is in Execute has at most one before it with which Memory Access is not done.
theorem WellFormed.ahead_of_execute {p : Pipeline} (h : WellFormed p) {f : Flight}
    (hf : p.slots.slot .execute = some f) {i : Nat} (hi : p.passed .memory ≤ i) (hlt : i < f.id) :
    f.id = i + 1 ∧ ∃ g, p.slots.slot .memory = some g ∧ g.id = i ∧ g.state = .ready := by
  have hretired := p.retired_le_passed .memory
  have hahead (j : Nat) (hj : p.passed .memory ≤ j) (hbefore : j < f.id) :
      ∃ g, p.slots.slot .memory = some g ∧ g.id = j ∧ g.state = .ready := by
    obtain ⟨g, hg, rfl⟩ := h.exists_older hf (Nat.le_trans hretired hj) hbefore
    obtain ⟨stage, hstage, hslot⟩ := Slots.mem_older hg
    have hbounds := h.progress_bounds hslot
    have haccessed := h.lt_accessed_iff hslot
    have horder : Stage.execute.order.val = 2 := rfl
    obtain rfl : stage = .memory :=
      Stage.order_injective (Fin.ext (show stage.order.val = 3 by omega))
    refine ⟨g, hslot, rfl, ?_⟩
    cases hstate : g.state with
    | ready => rfl
    | stalled other => cases h.decode_of_stalled hslot hstate
    | completed =>
        have hp : g.progress = 7 := h.progress_of_completed hslot hstate
        omega
  refine ⟨?_, hahead i hi hlt⟩
  by_contra hne
  obtain ⟨g, hg, hid, -⟩ := hahead i hi hlt
  obtain ⟨g', hg', hid', -⟩ := hahead (i + 1) (by omega) (by omega)
  obtain rfl := Option.some.inj (hg.symm.trans hg')
  omega

namespace Tracks

variable {σ : Type} [Storage σ] [LawfulStorage σ] {capacity : Nat} {course : Nat → ArchState}
  {last : Nat} {p : Pipeline} {context : Context σ} (h : Tracks capacity course last p context)
    (hmode : p.pipelined = true)

include h hmode

-- Where instructions overlap, the run does not halt before the course does.
theorem not_halted (hle : p.passed .memory ≤ last) (hword : (course last).word ≠ Word.halt)
    (hhalt : p.haltId = some p.retired) : False := by
  replace hle := Nat.le_trans (p.retired_le_passed .memory) hle
  have hlast : (course p.retired).word = Word.halt := h.halting _ hhalt fun _ => hle
  rcases Nat.lt_or_eq_of_le hle with hlt | heq
  · obtain ⟨t, ht⟩ := (h.overlap hmode).runs _ hlt
    rw [ArchState.step_of_halt hlast] at ht
    cases ht
  · exact hword (heq ▸ hlast)

variable {cause : Fault} (hfault : (course last).step capacity = .error cause)

include hfault

-- The last one of the course cannot be carried out.

theorem accessed_le_fault : p.passed .memory ≤ last :=
  h.accessed_le (fun _ _ => by rw [hfault]; nofun) hmode

theorem not_halted_of_fault (hhalt : p.haltId = some p.retired) : False := by
  refine h.not_halted hmode (h.accessed_le_fault hmode hfault) ?_ hhalt
  intro hword
  rw [ArchState.step_of_halt hword] at hfault
  cases hfault

variable (hspares : (course last).Spares)

include hspares

theorem certain_of_fault :
    ∀ f, p.slots.slot .memory = some f → f.state = .ready → p.Certain course last f.id := by
  intro f hf hready _
  have hle := h.accessed_le_fault hmode hfault
  rw [h.wellFormed.passed_eq hf (by simp [hready])] at hle
  rcases Nat.lt_or_eq_of_le hle with hlt | heq
  · exact .inl hlt
  · exact .inr ⟨heq, hspares⟩

-- The fault is that of the last one, or the one right behind it has come first: it fails in Execute
-- while the last one waits in Memory Access.
theorem fault_cases (hcourse : ∀ n, course (n + 1) = (course n).next capacity)
    (hrunning : p.running = true) {found : Fault} {f : Flight}
    (hraises : p.Raises context found f) :
    found = cause ∨ p.slots.slot .execute = some f ∧ f.id = last + 1 ∧
      ∃ g, p.slots.slot .memory = some g ∧ g.id = last ∧ g.state = .ready := by
  have hmemory := h.certain_of_fault hmode hfault hspares
  have haccessed := h.accessed_le_fault hmode hfault
  have hstep := h.step_of_raises hcourse hmemory hrunning hraises
  rcases Nat.lt_trichotomy f.id last with hlt | heq | hgt
  · obtain ⟨t, ht⟩ := (h.overlap hmode).runs _ hlt
    rw [hstep fun _ => .inl hlt] at ht
    cases ht
  · left
    have hsame := hstep fun _ => .inr ⟨heq, hspares⟩
    rw [heq, hfault] at hsame
    exact (Except.error.inj hsame).symm
  · right
    cases hraises with
    | access hf hready =>
        rw [h.wellFormed.passed_eq hf (by simp [hready])] at haccessed
        omega
    | execute hf hready =>
        exact ⟨hf, h.wellFormed.ahead_of_execute hf haccessed hgt⟩

end Tracks

end PipelinedProcessor.Pipeline
