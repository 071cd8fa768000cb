import PipelinedProcessor.Proofs.Pipeline.StageWork

namespace PipelinedProcessor.Pipeline

open Flight

-- Each of the changes that a cycle is made of keeps a pipeline well formed, whatever the registers
-- and the memory answer.

namespace WellFormed

section

variable {p : Pipeline} (h : WellFormed p)

include h

theorem of_counts (clock stalls : Nat) (running : Bool) :
    WellFormed { p with clock := clock, stalls := stalls, running := running } :=
  ⟨h.row, h.inPlace, h.nextId_eq, h.halting, h.single, h.branch, h.fetching⟩

theorem progress_bounds {stage : Stage} {f : Flight} (hf : p.slots.slot stage = some f) :
    2 * stage.order.val ≤ f.progress ∧ f.progress ≤ 2 * stage.order + 1 := by
  rw [progress, h.inPlace stage f hf]
  split <;> omega

theorem progress_of_ready {stage : Stage} {f : Flight} (hf : p.slots.slot stage = some f)
    (hready : f.state = .ready) : f.progress = 2 * stage.order :=
  Flight.progress_of_ready hready (h.inPlace stage f hf)

theorem decode_of_stalled {stage : Stage} {f : Flight} {j : Nat} (hf : p.slots.slot stage = some f)
    (hstate : f.state = .stalled j) : stage = .decode :=
  (h.inPlace stage f hf).symm.trans ((h.fits hf).stalled j hstate).1

theorem progress_of_completed {stage : Stage} {f : Flight} (hf : p.slots.slot stage = some f)
    (hstate : f.state = .completed) : f.progress = 2 * stage.order + 1 := by
  rw [Flight.progress_of_completed hstate, h.inPlace stage f hf]

end

section

variable {σ : Type} {p : Pipeline} (h : WellFormed p)

include h

theorem commitStage (context : Context σ) : WellFormed (p.commitStage context).1 := by
  rcases in_state_or_not (p.slots.slot .writeBack) .ready with ⟨f, hf, hready⟩ | hidle
  · rw [commitStage_of_ready hf hready]
    have hp : f.progress = 8 := h.progress_of_ready hf hready
    have hp' : (f.commit context).1.progress = 9 := by
      show 2 * f.stage.order.val + 1 = 9
      rw [h.inPlace .writeBack f hf]
      rfl
    exact h.replace_same hf ((h.fits hf).commit hready (h.inPlace _ f hf) context)
      (.inl ⟨rfl, rfl, rfl, rfl⟩) rfl rfl (by omega) (by omega) nofun
  · rw [commitStage_of_idle hidle]
    exact h

theorem executeStage {registers : Registers} {vectors : VectorRegisters} {p' : Pipeline}
    (hresult : p.executeStage registers vectors = .ok p') : WellFormed p' := by
  rcases in_state_or_not (p.slots.slot .execute) .ready with ⟨f, hf, hready⟩ | hidle
  · rw [executeStage_of_ready hf hready] at hresult
    cases hexecute : f.execute registers vectors with
    | error fault =>
        rw [hexecute] at hresult
        cases hresult
    | ok f' =>
        rw [hexecute] at hresult
        obtain rfl := Except.ok.inj hresult
        have hstage := h.inPlace .execute f hf
        obtain ⟨hfits, hface, hraw, hsame, hstate⟩ := (h.fits hf).execute hready hstage hexecute
        have hp : f.progress = 4 := h.progress_of_ready hf hready
        have hp' : f'.progress = 5 := by
          rw [Flight.progress_of_completed hstate, hsame, hstage]
          rfl
        exact h.replace_same hf hfits (.inl hface) hsame hraw (by omega)
          (by omega) (fun _ => hready)
  · rw [executeStage_of_idle hidle] at hresult
    obtain rfl := Except.ok.inj hresult
    exact h

theorem decodeStage : WellFormed p.decodeStage := by
  cases hf : p.slots.slot .decode with
  | none =>
      rw [decodeStage_of_empty hf]
      exact h
  | some f =>
      cases hstate : f.state with
      | ready =>
          rw [decodeStage_of_ready hf hstate]
          have hstage := h.inPlace .decode f hf
          have hrow := h.row
          rw [Slots.flights_of_slot hf] at hrow
          have holder (g : Flight) : (g ∈ p.slots.flights ∧ g.id < f.id) ↔
              g ∈ p.slots.older .decode := by
            rw [Slots.flights_of_slot hf]
            exact hrow.mem_older_iff g
          obtain ⟨hfits, hid, hsame, hraw⟩ := (h.fits hf).decode hstate hstage
            p.slots.flights (fun g hg hlt => (holder g).mp ⟨hg, hlt⟩)
              (fun g hg => (holder g).mpr hg)
          have hp : f.progress = 2 := h.progress_of_ready hf hstate
          have hp' : 2 ≤ (f.decode p.slots.flights).progress ∧
              (f.decode p.slots.flights).progress ≤ 3 := by
            simp only [progress, hsame, hstage, Stage.order]
            split <;> simp
          exact h.replace_same hf hfits (.inr ⟨hid, rfl⟩) hsame hraw (by omega)
            (by omega) (fun _ => hstate)
      | stalled j =>
          rw [decodeStage_of_stalled hf hstate]
          exact h.of_counts p.clock (p.stalls + 1) p.running
      | completed =>
          rw [decodeStage_of_completed hf hstate]
          exact h

variable [Storage σ]

theorem accessStage (context : Context σ) : WellFormed (p.accessStage context).2.1 := by
  rcases in_state_or_not (p.slots.slot .memory) .ready with ⟨f, hf, hready⟩ | hidle
  · have hstage := h.inPlace .memory f hf
    obtain ⟨hfits, hface, hsame⟩ := (h.fits hf).access hready hstage context
    have hraw := f.raw_access context
    have hp : f.progress = 6 := h.progress_of_ready hf hready
    rcases haccess : f.access context with ⟨fault, f', after⟩
    rw [haccess] at hfits hface hsame hraw
    rw [accessStage_of_ready hf hready haccess]
    by_cases hstate : f'.state = .completed
    · have hp' : f'.progress = 7 := by
        rw [Flight.progress_of_completed hstate, show f'.stage = f.stage from hsame, hstage]
        rfl
      simp only [hstate, true_and]
      refine h.replace hf hfits (.inl hface) hsame ?_ ?_
      · have hbranch := h.branch
        have hrow := h.row
        rw [Slots.flights_of_slot hf] at hbranch hrow
        rw [show f'.id = f.id from hface.id_eq]
        exact hbranch.resolve hrow (by omega)
      · intro g hg hgready
        have hfetch := p.slots.slot_put .memory nofun (some f') .fetch
        rw [h.fetching g (hfetch.symm.trans hg) hgready, if_neg nofun]
    · have hp' : f'.progress = 6 := by
        rw [progress_of_not_completed hstate, show f'.stage = f.stage from hsame, hstage]
        rfl
      simp only [hstate, false_and, if_false]
      exact h.replace_same hf hfits (.inl hface) hsame hraw (by omega) (by omega) (fun _ => hready)
  · rw [accessStage_of_idle hidle]
    exact h

theorem fetchStage (context : Context σ) : WellFormed (p.fetchStage context).1 := by
  rcases in_state_or_not (p.slots.slot .fetch) .ready with ⟨f, hf, hready⟩ | hidle
  · have hstage := h.inPlace .fetch f hf
    have hp : f.progress = 0 := h.progress_of_ready hf hready
    have hopen := h.fetching f hf hready
    have hblank := (h.fits hf).blank hp
    have hfits := (h.fits hf).fetch hready hstage context
    rcases hread :
      Storage.read context.memory .fetch (f.target context.registers) with ⟨answer, memory⟩
    cases answer with
    | wait =>
        rw [fetch_of_wait hread] at hfits
        rw [fetchStage_of_wait hf hready hblank hread]
        refine h.replace_same hf (hfits ?_) (.inl ⟨rfl, rfl, rfl, rfl⟩) rfl rfl
          id .rfl (fun _ => hready)
        show f.raw ≠ some Word.halt
        rw [hblank]
        exact nofun
    | done w =>
        by_cases hhalt : w = Word.halt
        · subst hhalt
          rw [fetchStage_of_halt hf hready hread]
          exact h.haltAt hf hp
        · rw [fetch_of_done hread] at hfits
          rw [fetchStage_of_word hf hready hhalt hread]
          have hp' : ({ f with
              address := some (f.target context.registers), raw := some w }.complete).progress =
                1 := by
            rw [progress_complete, hstage]
            rfl
          have hbranch := h.branch
          rw [Slots.flights_of_slot hf, hopen] at hbranch
          have hfetched := hbranch.fetched hp' rfl
          simp only [complete, Option.any_some, decide_eq_true_eq] at hfetched
          rw [hopen]
          refine h.replace hf (hfits fun heq => hhalt (Option.some.inj heq))
            (.inl ⟨rfl, rfl, rfl, rfl⟩) rfl hfetched ?_
          intro g hg hgready
          obtain rfl := Option.some.inj hg
          cases hgready
  · rw [fetchStage_of_idle hidle]
    exact h

end

section

variable {p : Pipeline} (h : WellFormed p)

include h

theorem retire : WellFormed p.retire := by
  rcases in_state_or_not (p.slots.slot .writeBack) .completed with ⟨f, hf, hstate⟩ | hunfinished
  · rw [retire_of_completed hf hstate]
    exact h.dropOldest hf hstate
  · rw [retire_of_unfinished hunfinished]
    exact h

theorem moveOn : WellFormed { p with slots := Pipeline.moveOn p.slots } := by
  rw [Slots.moveOn_eq]
  exact (((h.move .memory .writeBack rfl nofun).move .execute .memory rfl nofun).move
    .decode .execute rfl nofun).move .fetch .decode rfl nofun

theorem advance : WellFormed p.advance := h.retire.moveOn

-- No branch is open when somebody comes in.
theorem closed_of_takeIn (hheld : if p.pipelined then p.openBranch = none
    else p.slots.flights = []) :
    p.openBranch = none := by
  split at hheld
  · exact hheld
  · cases hopen : p.openBranch with
    | none => rfl
    | some b =>
        obtain ⟨g, hg, -⟩ := h.branch.flying b hopen
        rw [hheld] at hg
        cases hg

theorem takeIn : WellFormed p.takeIn := by
  rcases p.takeIn_cases with hsame | ⟨hhalts, hfree, hheld, htaken⟩
  · rw [hsame]
    exact h
  · rw [htaken]
    refine h.enterNew hhalts hfree (h.closed_of_takeIn hheld) fun hmode => ?_
    simpa [hmode] using hheld

end

-- A whole cycle.

section

variable {σ : Type} [Storage σ]

theorem kept : Kept fun p (_ : Context σ) => WellFormed p where
  counts _ clock running h := h.of_counts clock _ running
  commitStage h := h.commitStage _
  accessStage h := h.accessStage _
  executeStage h hresult := h.executeStage hresult
  decodeStage _ h := h.decodeStage
  fetchStage h := h.fetchStage _
  advance _ h := h.advance
  takeIn _ h := h.takeIn

theorem work {p : Pipeline} (h : WellFormed p) (context : Context σ) :
    WellFormed (p.work context).2.1 :=
  kept.work h

theorem step {p : Pipeline} (h : WellFormed p) (context : Context σ) :
    WellFormed (p.step context).2.1 :=
  kept.step h

end

end WellFormed

theorem wellFormed_empty (pipelined : Bool) :
    WellFormed { running := true, pipelined := pipelined } := by
  refine ⟨trivial, ?_, rfl, nofun, fun _ => Nat.zero_le 1, ⟨fun _ hf _ => (nomatch hf), nofun⟩,
    fun _ hf => (nomatch hf)⟩
  intro stage f hf
  cases stage <;> cases hf

theorem wellFormed_start (pipelined : Bool) : WellFormed (start pipelined) :=
  (wellFormed_empty pipelined).takeIn

end PipelinedProcessor.Pipeline
