import PipelinedProcessor.Proofs.Pipeline.Raising
import PipelinedProcessor.Proofs.Pipeline.Tracks

namespace PipelinedProcessor.Pipeline

open Flight LawfulStorage

-- A whole cycle of a pipeline at work on a course: it stays on it, faults where the course does or
-- behind its last instruction, or comes to the word that halts.

namespace Tracks

variable {σ : Type} [Storage σ] [LawfulStorage σ] {capacity : Nat} {course : Nat → ArchState}
  {last : Nat} {p : Pipeline} {context : Context σ} (h : Tracks capacity course last p context)

include h

-- What happens between the work of two cycles.

theorem retire : Tracks capacity course last p.retire context := by
  have hwell := h.wellFormed.retire
  have hcount (stage : Stage) (hstage : stage = .fetch ∨ stage = .memory ∨ stage = .writeBack) :
      p.retire.passed stage = p.passed stage :=
    h.wellFormed.passed_retire (by rcases hstage with rfl | rfl | rfl <;> decide)
  rcases in_state_or_not (p.slots.slot .writeBack) .completed with ⟨f, hf, hstate⟩ | hunfinished
  · rw [retire_of_completed hf hstate] at hwell hcount ⊢
    refine h.of_counts hwell hcount rfl rfl rfl ?_ ?_
    · intro other g' hg'
      obtain ⟨g, hg, rfl⟩ := Slots.slot_woken hg'
      have hid := (sameFace_wakeIf f.id g).id_eq
      intro hon
      rw [hid] at hon ⊢
      have hfollows := h.flights other g hg hon
      by_cases hstalled : g.state = .stalled f.id
      · obtain ⟨hp, hp'⟩ := (h.wellFormed.fits hg).progress_of_stalled hstalled
        rw [wakeIf_of_stalled hstalled]
        exact hfollows.of_early rfl rfl (fun _ => by omega) (by omega)
      · rw [wakeIf_of_not_stalled hstalled]
        exact hfollows
    · intro g hg hready
      show ((p.slots.put .writeBack none).map (wakeIf f.id)).slot .memory = some g
      rw [Slots.slot_map, p.slots.slot_put .writeBack nofun, if_neg nofun, hg, Option.map_some,
        wakeIf_of_not_stalled (by simp [hready])]
  · rw [retire_of_unfinished hunfinished]
    exact h

-- The memory is between two instructions while none is in Memory Access.
theorem view_of_free (hfree : p.slots.slot .memory = none) :
    view context.memory = (course (p.passed .memory)).memory := by
  funext x
  rcases h.memory x with hsame | ⟨f, hf, -⟩
  · exact hsame
  · rw [hfree] at hf
    cases hf

theorem pass (first second : Stage) (horder : second.order.val = first.order.val + 1)
    (hplace : second ≠ .system) :
    Tracks capacity course last { p with slots := p.slots.pass first second } context := by
  have hwell := h.wellFormed.move first second horder hplace
  have hcount := h.wellFormed.passed_pass first second horder hplace
  rcases p.slots.pass_cases first second with hsame | ⟨f, hf, hfree, hstate, hpass⟩
  · rw [hsame]
    exact h
  · rw [hpass] at hwell hcount ⊢
    have hfirst : first ≠ .system := by
      rintro rfl
      cases hf
    have hp := h.wellFormed.progress_of_completed hf hstate
    have hstage := h.wellFormed.inPlace first f hf
    have hslot (other : Stage) :
        ((p.slots.put first none).put second (some (f.enter second))).slot other =
        if other = second then some (f.enter second) else if other = first then none
        else p.slots.slot other := by
      rw [Slots.slot_put _ second hplace, Slots.slot_put _ first hfirst]
    refine h.of_counts hwell (fun other _ => hcount other) rfl rfl rfl ?_ ?_
    · intro other g hg
      have hg' := (hslot other).symm.trans hg
      split at hg'
      · obtain rfl := Option.some.inj hg'
        intro hon
        refine (h.flights first f hf hon).enter hstate (by rw [hstage]; exact horder) ?_
        intro hfive
        have hthree : second.order.val = Stage.memory.order.val := by
          show second.order.val = 3
          omega
        obtain rfl := Stage.order_injective (Fin.ext hthree)
        rw [h.view_of_free hfree, h.wellFormed.passed_eq_of_free hfree hf horder]
      · split at hg'
        · cases hg'
        · exact h.flights other g hg'
    · intro g hg hready
      refine (hslot .memory).trans ?_
      rw [if_neg, if_neg]
      · exact hg
      · rintro rfl
        obtain rfl := Option.some.inj (hf.symm.trans hg)
        rw [hready] at hstate
        cases hstate
      · rintro rfl
        rw [hfree] at hg
        cases hg

theorem advance : Tracks capacity course last p.advance context := by
  show Tracks capacity course last { p.retire with slots := moveOn p.retire.slots } context
  rw [Slots.moveOn_eq]
  exact (((h.retire.pass .memory .writeBack rfl nofun).pass .execute .memory rfl nofun).pass
    .decode .execute rfl nofun).pass .fetch .decode rfl nofun

theorem takeIn : Tracks capacity course last p.takeIn context := by
  have hwell := h.wellFormed.takeIn
  have hcount := p.passed_takeIn
  rcases p.takeIn_cases with hsame | ⟨-, hfree, -, htaken⟩
  · rw [hsame]
    exact h
  · rw [htaken] at hwell hcount ⊢
    refine h.of_counts hwell (fun other _ => hcount other) rfl rfl rfl ?_ fun _ hg _ => hg
    intro other g hg
    have hslot := (p.slots.slot_put .fetch nofun _ other).symm.trans hg
    split at hslot
    · obtain rfl := Option.some.inj hslot
      exact fun _ => ⟨nofun, nofun, nofun, nofun, nofun⟩
    · exact h.flights other g hslot

theorem tick : Tracks capacity course last p.tick context :=
  h.of_counts (h.wellFormed.of_counts (p.clock + 1) p.stalls p.running)
    (fun _ _ => rfl) rfl rfl rfl h.flights
    fun _ hf _ => hf

theorem stop : Tracks capacity course last { p with running := false } context :=
  h.of_counts (h.wellFormed.of_counts p.clock p.stalls false) (fun _ _ => rfl) rfl rfl rfl h.flights
    fun _ hf _ => hf

section Work

variable (hcourse : ∀ n, course (n + 1) = (course n).next capacity)
  (hcertain : ∀ f, p.slots.slot .memory = some f → f.state = .ready → p.Certain course last f.id)

include hcourse hcertain

-- What the last two stages come to if the one in Memory Access has found its operands.
theorem accessed {q : Pipeline} {now : Context σ} {fault : Option Fault}
    (hresult : p.accessed context = (fault, q, now)) :
    (∀ cause, fault = some cause → ∃ f, p.slots.slot .memory = some f ∧
      (course f.id).step capacity = .error cause) ∧
      (fault = none → Tracks capacity course last q now ∧ q.pipelined = p.pipelined) := by
  have hsame := (p.commitStage_works context).toSameRun
  have hslot := (p.commitStage_works context).slot_eq .memory nofun
  have hcommitted := h.commitStage hcourse
  rcases hcommit : p.commitStage context with ⟨committed, context'⟩
  rw [hcommit] at hsame hslot hcommitted
  simp only [Pipeline.accessed, hcommit] at hresult
  have hsame' := (committed.accessStage_works context').toSameRun
  rw [hresult] at hsame'
  obtain ⟨hfault, haccessed⟩ := hcommitted.accessStage hcourse (fun f hf hready => by
    rw [Certain, hsame.pipelined_eq]
    exact hcertain f (hslot.symm.trans hf) hready) hresult
  refine ⟨?_, fun hnone => ⟨haccessed hnone, hsame'.pipelined_eq.trans hsame.pipelined_eq⟩⟩
  intro cause hcause
  obtain ⟨f, hf, hstep⟩ := hfault cause hcause
  exact ⟨f, hslot.symm.trans hf, hstep⟩

theorem work {p' : Pipeline} {after : Context σ} (hresult : p.work context = (none, p', after)) :
    Tracks capacity course last p' after := by
  rcases haccess : p.accessed context with ⟨fault, q, now⟩
  obtain ⟨-, haccessed⟩ := h.accessed hcourse hcertain haccess
  rcases hcommit : p.commitStage context with ⟨committed, context'⟩
  simp only [Pipeline.accessed, hcommit] at haccess
  cases fault with
  | some cause =>
      simp only [Pipeline.work, hcommit, haccess] at hresult
      cases (Prod.mk.inj hresult).1
  | none =>
      have htracks := (haccessed rfl).1
      cases hexecute : q.executeStage now.registers now.vectors with
      | error cause =>
          simp only [Pipeline.work, hcommit, haccess, hexecute] at hresult
          cases (Prod.mk.inj hresult).1
      | ok executed =>
          simp only [Pipeline.work, hcommit, haccess, hexecute] at hresult
          obtain ⟨-, rfl, rfl⟩ := hresult
          exact (htracks.executeStage hcourse hexecute).decodeStage.fetchStage hcourse

-- Whoever fails has found its operands or is behind those that do.
theorem step_of_raises {cause : Fault} {f : Flight} (hrunning : p.running = true)
    (hraises : p.Raises context cause f) (hraiser : p.Certain course last f.id) :
    (course f.id).step capacity = .error cause := by
  rcases haccess : p.tick.accessed context with ⟨fault, q, now⟩
  obtain ⟨hfault, haccessed⟩ := h.tick.accessed hcourse hcertain haccess
  cases hraises with
  | access hf hready hcause =>
      have hfaulted : (p.tick.accessed context).1 = _ := fault_accessed hrunning hf hready
      rw [haccess, hcause] at hfaulted
      obtain ⟨g, hg, hstep⟩ := hfault cause hfaulted
      obtain rfl := Option.some.inj (hf.symm.trans hg)
      exact hstep
  | execute hf hready hserved hcause =>
      rw [haccess] at hserved hcause
      obtain ⟨htracks, hmode⟩ := haccessed hserved
      have hslot := (slot_accessed p.tick context .execute nofun nofun).trans hf
      rw [haccess] at hslot
      refine htracks.execute_fault hcourse hslot hready ?_ hcause
      rw [Certain, hmode]
      exact hraiser

end Work

-- Where all that were fetched have committed, the machine is between two instructions.
theorem state_eq (hon : p.OnCourse last (p.passed .fetch))
    (hall : p.passed .writeBack = p.passed .fetch) :
    context.state = course (p.passed .fetch) := by
  have haccess : p.passed .memory = p.passed .fetch := by
    have hle := p.committed_le_accessed
    have hle' := p.accessed_le_fetched
    omega
  have hresults := h.results
  have hcounter := h.counter hon
  rw [hall, haccess] at hcounter
  rw [hall] at hresults
  have hread (number : Nat) :
      context.registers.read number = (course (p.passed .fetch)).registers.read number := by
    by_cases hnumber : number = Register.counter
    · rw [hnumber]
      exact hcounter.settled rfl
    · exact hresults.values number hnumber
  have hview (x : Nat) : view context.memory x = (course (p.passed .fetch)).memory x := by
    rcases h.memory x with hsame | ⟨f, hf, hready, -⟩
    · rw [hsame, haccess]
    · have hp := h.wellFormed.progress_of_ready hf hready
      have hfetched := (h.wellFormed.lt_fetched_iff hf).mpr (by rw [hp]; decide)
      have hcommitted := h.wellFormed.lt_committed_iff hf
      rw [hp] at hcommitted
      simp only [Stage.order] at hcommitted
      omega
  exact ArchState.ext_of_read hread hresults.vectors_eq hview

theorem state_of_empty (hon : p.OnCourse last p.retired) (hempty : p.slots.flights = []) :
    context.state = course p.retired := by
  have hcount (stage : Stage) : p.passed stage = p.retired := by
    rw [passed, Slots.passed, hempty]
    rfl
  rw [h.state_eq (by rw [hcount]; exact hon) (by rw [hcount, hcount]), hcount]

-- What is in Write Back is an instruction of the course, by its address and its word.
theorem labels {f : Flight} (hf : p.slots.slot .writeBack = some f)
    (hon : p.OnCourse last p.retired) :
    f.address = some (course p.retired).address ∧ f.raw = some (course p.retired).word := by
  have hbounds := h.wellFormed.progress_bounds hf
  have hid : f.id = p.retired := (h.wellFormed.fits hf).id_eq
  rw [← hid] at hon ⊢
  exact (h.flights .writeBack f hf hon).fetched (by simp only [Stage.order] at hbounds; omega)

-- At every moment the instructions that have retired are the first of the course.
theorem runs_retired :
    ∀ i < p.retired, ∃ t, (course i).step capacity = .ok (some t) := by
  intro i hi
  have hle := p.retired_le_passed .memory
  exact h.executed i (by omega)

-- No instruction is done in Memory Access where the course does not go on.
theorem accessed_le (hstuck : p.pipelined = true →
    ∀ t, (course last).step capacity ≠ .ok (some t)) :
    p.OnCourse last (p.passed .memory) := by
  intro hmode
  by_contra hdone
  obtain ⟨t, ht⟩ := h.executed last (by omega)
  exact hstuck hmode t ht

-- Nothing is fetched behind the word that halts.

theorem passed_fetch_le (hhalt : (course last).word = Word.halt) : p.passed .fetch ≤ last := by
  by_contra hbehind
  have haccessed : p.passed .memory ≤ last := by
    by_contra hdone
    obtain ⟨t, ht⟩ := h.executed last (by omega)
    rw [ArchState.step_of_halt hhalt] at ht
    cases ht
  have hretired := p.retired_le_passed .memory
  have hle := p.passed_le .fetch
  obtain ⟨stage, f, hf, hid⟩ := h.wellFormed.exists_slot (i := last) (by omega) (by omega)
  have hstarted := (h.wellFormed.lt_fetched_iff hf).mp (by omega)
  refine h.word_ne hf (fun _ => Nat.le_of_eq hid) hstarted ?_
  rw [hid]
  exact hhalt

theorem fetched_le (hhalts : p.pipelined = true → (course last).word = Word.halt) :
    p.OnCourse last (p.passed .fetch) := fun hmode => h.passed_fetch_le (hhalts hmode)

variable (hcourse : ∀ n, course (n + 1) = (course n).next capacity)
  (hcertain : ∀ f, p.slots.slot .memory = some f → f.state = .ready → p.Certain course last f.id)

include hcourse hcertain

theorem step (hrunning : p.running = true) {p' : Pipeline} {after : Context σ} {message : Message}
    (hresult : p.step context = (.ok message, p', after)) :
    Tracks capacity course last p' after ∧
      (message = .running ∧ p'.running = true ∨
        message = .halted ∧ p'.haltId = some p'.retired ∧ p'.slots.flights = []) := by
  rcases hwork : p.tick.work context with ⟨fault, worked, context'⟩
  have hsame := p.tick.work_same context
  rw [hwork] at hsame
  cases fault with
  | some cause =>
      rw [step_of_fault hrunning hwork] at hresult
      cases (Prod.mk.inj hresult).1
  | none =>
      have hadvanced := (h.tick.work hcourse hcertain hwork).advance
      by_cases hend : worked.advance.haltId.isSome ∧ worked.advance.slots.flights = []
      · rw [step_of_end hrunning hwork hend] at hresult
        obtain ⟨rfl, rfl, rfl⟩ := hresult
        exact ⟨hadvanced.stop, .inr ⟨rfl, hadvanced.wellFormed.haltId_eq hend.1 hend.2, hend.2⟩⟩
      · rw [step_of_running hrunning hwork hend] at hresult
        obtain ⟨rfl, rfl, rfl⟩ := hresult
        refine ⟨hadvanced.takeIn, .inl ⟨rfl, ?_⟩⟩
        rw [worked.advance.takeIn_same.running_eq, worked.advance_mode.2, hsame.running_eq]
        exact hrunning

omit hcertain in
-- Without overlap every retirement leaves the machine between two instructions.
theorem step_retired (hserial : p.pipelined = false) (hrunning : p.running = true) {p' : Pipeline}
    {after : Context σ} {message : Message} (hresult : p.step context = (.ok message, p', after))
    (hretired : p'.retired ≠ p.retired) :
    p'.passed .writeBack = p'.retired ∧ p'.passed .fetch = p'.retired := by
  rcases hwork : p.tick.work context with ⟨fault, worked, context'⟩
  have hsame := p.tick.work_same context
  rw [hwork] at hsame
  cases fault with
  | some cause =>
      rw [step_of_fault hrunning hwork] at hresult
      cases hresult
  | none =>
      have htracks :=
        h.tick.work hcourse (fun f _ _ => certain_of_serial hserial course last f.id) hwork
      -- both ends of a cycle keep the counts, and the retirement is that of the only one in flight
      have hcounts (hone : worked.advance.retired = worked.retired + 1) (other : Stage)
          (hother : other = .fetch ∨ other = .memory ∨ other = .writeBack) :
          worked.advance.passed other = worked.advance.retired := by
        obtain hnone | ⟨-, f, hf, hstate⟩ := worked.advance_retired
        · omega
        · have hp : f.progress = 9 := htracks.wellFormed.progress_of_completed hf hstate
          have hmode : worked.pipelined = false := hsame.pipelined_eq.trans hserial
          have hcount := htracks.wellFormed.passed_alone hmode hf other
          have hid := (htracks.wellFormed.alone hmode hf).2
          have hplace : other ≠ .decode ∧ other ≠ .system := by
            rcases hother with rfl | rfl | rfl <;> decide
          rw [htracks.wellFormed.passed_advance hplace, hcount, hone, hid, Slots.tally, hp]
          rcases hother with rfl | rfl | rfl <;> rfl
      have hretired' (hne : worked.advance.retired ≠ p.retired) :
          worked.advance.retired = worked.retired + 1 := by
        obtain hnone | ⟨hone, -⟩ := worked.advance_retired
        · exact absurd (hnone.trans hsame.retired_eq) hne
        · exact hone
      by_cases hend : worked.advance.haltId.isSome ∧ worked.advance.slots.flights = []
      · rw [step_of_end hrunning hwork hend] at hresult
        obtain ⟨-, rfl, -⟩ := hresult
        have hone := hretired' hretired
        exact ⟨hcounts hone .writeBack (.inr (.inr rfl)), hcounts hone .fetch (.inl rfl)⟩
      · rw [step_of_running hrunning hwork hend] at hresult
        obtain ⟨-, rfl, -⟩ := hresult
        have hkept := worked.advance.takeIn_same.retired_eq
        have hone := hretired' (hkept ▸ hretired)
        rw [passed_takeIn, passed_takeIn, hkept]
        exact ⟨hcounts hone .writeBack (.inr (.inr rfl)), hcounts hone .fetch (.inl rfl)⟩

end Tracks

end PipelinedProcessor.Pipeline
