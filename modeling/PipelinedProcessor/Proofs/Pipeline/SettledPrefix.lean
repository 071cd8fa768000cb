import PipelinedProcessor.Proofs.Pipeline.EachFlight
import PipelinedProcessor.Proofs.Pipeline.Simulation

namespace PipelinedProcessor.Pipeline

open Flight LawfulStorage

section

variable {σ : Type} [Storage σ]

-- Whoever works in a stage has not passed it before.
theorem WellFormed.passed_le_of_place {p p' : Pipeline} (h : WellFormed p) (h' : WellFormed p')
    {stage : Stage} {f f' : Flight} (hf : p.slots.slot stage = some f) (hready : f.state = .ready)
    (hretired : p'.retired = p.retired) (hslots : p'.slots = p.slots.put stage (some f'))
    (other : Stage) : p.passed other ≤ p'.passed other := by
  by_cases hother : other = stage
  · subst hother
    have hp := h.progress_of_ready hf hready
    have hcount := passed_replace p' hf hretired hslots other
    rw [Slots.tally, hp, if_neg (Nat.lt_irrefl _)] at hcount
    omega
  · exact Nat.le_of_eq (h.passed_of_place h' hf hretired hslots hother).symm

-- What has been passed stays passed.
theorem passed_kept {stage : Stage} (hstage : stage ≠ .decode ∧ stage ≠ .system) (count : Nat) :
    Kept fun p (_ : Context σ) => p.WellFormed ∧ count ≤ p.passed stage where
  counts _ clock running h := ⟨h.1.of_counts clock _ running, h.2⟩
  commitStage {p context} h := by
    have hwell := h.1.commitStage context
    refine ⟨hwell, Nat.le_trans h.2 ?_⟩
    rcases in_state_or_not (p.slots.slot .writeBack) .ready with ⟨f, hf, hready⟩ | hidle
    · rw [commitStage_of_ready hf hready] at hwell ⊢
      exact h.1.passed_le_of_place hwell hf hready rfl rfl stage
    · exact Nat.le_of_eq (by rw [commitStage_of_idle hidle])
  accessStage {p context} h := by
    have hwell := h.1.accessStage context
    refine ⟨hwell, Nat.le_trans h.2 ?_⟩
    rcases in_state_or_not (p.slots.slot .memory) .ready with ⟨f, hf, hready⟩ | hidle
    · rcases haccess : f.access context with ⟨fault, f', after⟩
      rw [accessStage_of_ready hf hready haccess] at hwell ⊢
      exact h.1.passed_le_of_place hwell hf hready rfl rfl stage
    · exact Nat.le_of_eq (by rw [accessStage_of_idle hidle])
  executeStage {p p' context} h hresult := by
    have hwell := h.1.executeStage hresult
    refine ⟨hwell, Nat.le_trans h.2 ?_⟩
    rcases in_state_or_not (p.slots.slot .execute) .ready with ⟨f, hf, hready⟩ | hidle
    · rw [executeStage_of_ready hf hready] at hresult
      obtain ⟨f', -, rfl⟩ := ok_of_map hresult
      exact h.1.passed_le_of_place hwell hf hready rfl rfl stage
    · rw [executeStage_of_idle hidle] at hresult
      obtain rfl := Except.ok.inj hresult
      exact Nat.le_refl _
  decodeStage {p} _ h := by
    have hwell := h.1.decodeStage
    refine ⟨hwell, Nat.le_trans h.2 ?_⟩
    cases hf : p.slots.slot .decode with
    | none => exact Nat.le_of_eq (by rw [decodeStage_of_empty hf])
    | some f =>
        cases hstate : f.state with
        | ready =>
            rw [decodeStage_of_ready hf hstate] at hwell ⊢
            exact h.1.passed_le_of_place hwell hf hstate rfl rfl stage
        | stalled j =>
            rw [decodeStage_of_stalled hf hstate]
            exact Nat.le_refl _
        | completed => exact Nat.le_of_eq (by rw [decodeStage_of_completed hf hstate])
  fetchStage {p context} h := by
    have hwell := h.1.fetchStage context
    refine ⟨hwell, Nat.le_trans h.2 ?_⟩
    rcases in_state_or_not (p.slots.slot .fetch) .ready with ⟨f, hf, hready⟩ | hidle
    · have hretired := ((p.fetchStage_works context).toSameRun).retired_eq
      rcases slots_fetchStage h.1 hf hready context with hgone | hdone
      · -- only the word that halts leaves, which has passed nothing
        have hcount := passed_remove _ hf hretired hgone stage
        have hp : f.progress = 0 := h.1.progress_of_ready hf hready
        rw [Slots.tally, hp, if_neg (Nat.not_lt_zero _)] at hcount
        exact Nat.le_of_eq hcount.symm
      · exact h.1.passed_le_of_place hwell hf hready hretired hdone stage
    · exact Nat.le_of_eq (by rw [fetchStage_of_idle hidle])
  advance _ h := ⟨h.1.advance, (h.1.passed_advance hstage).symm ▸ h.2⟩
  takeIn {p} _ h := ⟨h.1.takeIn, (p.passed_takeIn stage).symm ▸ h.2⟩

end

-- The instructions of a course up to one of them have come so far that nothing behind makes a
-- difference to what they are: this one has passed Execute, and those before it Memory Access.
structure Beyond (course : Nat → ArchState) (last : Nat) (p : Pipeline) : Prop where
  wellFormed : p.WellFormed
  executed : last < p.passed .execute
  accessed : last ≤ p.passed .memory
  address : ∀ i ≤ last, Upheld (i + 1) (fun f => f.id = i → f.address = some (course i).address) p
  raw : ∀ i ≤ last, Upheld (i + 1) (fun f => f.id = i → f.raw = some (course i).word) p

namespace Beyond

variable {σ : Type} {course : Nat → ArchState} {last : Nat} {p : Pipeline}

theorem step [Storage σ] (h : p.Beyond course last) (context : Context σ) :
    (p.step context).2.1.Beyond course last where
  wellFormed := h.wellFormed.step context
  executed := ((passed_kept (by decide) (last + 1)).step ⟨h.wellFormed, h.executed⟩).2
  accessed := ((passed_kept (by decide) last).step ⟨h.wellFormed, h.accessed⟩).2
  address i hi := (lasting_address i (course i).address).kept.step (h.address i hi)
  raw i hi := (lasting_raw i (course i).word).kept.step (h.raw i hi)

-- What fails is behind them.
theorem le_of_raises [Storage σ] (h : p.Beyond course last) {context : Context σ} {cause : Fault}
    {f : Flight} (hraises : p.Raises context cause f) : last ≤ f.id := by
  cases hraises with
  | access hf hready =>
      rw [← h.wellFormed.passed_eq hf (by simp [hready])]
      exact h.accessed
  | execute hf hready =>
      rw [← h.wellFormed.passed_eq hf (by simp [hready])]
      exact Nat.le_of_lt h.executed

theorem labels (h : p.Beyond course last) {f : Flight} (hf : p.slots.slot .writeBack = some f)
    (hle : p.retired ≤ last) : f.address = some (course p.retired).address ∧
    f.raw = some (course p.retired).word := by
  have hid : f.id = p.retired := (h.wellFormed.fits hf).id_eq
  exact ⟨(h.address _ hle).each .writeBack f hf hid, (h.raw _ hle).each .writeBack f hf hid⟩

-- A run that comes to the word that halts has retired them.
theorem lt_retired_of_empty (h : p.Beyond course last) (hempty : p.slots.flights = []) :
    last < p.retired := by
  have hexecuted := h.executed
  rwa [passed, Slots.passed, hempty] at hexecuted

end Beyond

-- This is so once the last one is in Memory Access.
theorem Tracks.beyond {σ : Type} [Storage σ] [LawfulStorage σ] {capacity : Nat}
    {course : Nat → ArchState} {last : Nat} {p : Pipeline} {context : Context σ}
    (h : Tracks capacity course last p context) {f : Flight} (hf : p.slots.slot .memory = some f)
    (hready : f.state = .ready) (hid : f.id = last) : p.Beyond course last := by
  have hp := h.wellFormed.progress_of_ready hf hready
  have hfetched := (h.wellFormed.lt_fetched_iff hf).mpr (by rw [hp]; decide)
  have hbounds := h.wellFormed.row.id_bounds (Slots.mem_flights.mpr ⟨_, hf⟩)
  have hnext := h.wellFormed.nextId_eq
  have hlabels (i : Nat) (hi : i ≤ last) (stage : Stage) (g : Flight)
      (hg : p.slots.slot stage = some g)
      (heq : g.id = i) : g.address = some (course i).address ∧ g.raw = some (course i).word := by
    have hstarted := (h.wellFormed.lt_fetched_iff hg).mp (by omega)
    have hfollows := h.flights stage g hg fun _ => by omega
    rw [heq] at hfollows
    exact hfollows.fetched hstarted
  refine ⟨h.wellFormed, ?_, ?_, ?_, ?_⟩
  · rw [← hid]
    exact (h.wellFormed.lt_passed_iff hf .execute).mpr (by rw [hp]; decide)
  · exact Nat.le_of_eq (hid.symm.trans (h.wellFormed.passed_eq hf (by simp [hready])).symm)
  · exact fun i hi =>
      ⟨h.wellFormed, by omega, fun stage g hg heq => (hlabels i hi stage g hg heq).1⟩
  · exact fun i hi =>
      ⟨h.wellFormed, by omega, fun stage g hg heq => (hlabels i hi stage g hg heq).2⟩

end PipelinedProcessor.Pipeline
