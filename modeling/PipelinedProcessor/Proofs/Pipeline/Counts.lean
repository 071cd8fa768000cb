import PipelinedProcessor.Proofs.Pipeline.Steps

namespace PipelinedProcessor

open Flight

namespace Slots

-- How many have done their work in a stage, among those that are still in flight.
def passed (slots : Slots) (stage : Stage) : Nat :=
  slots.flights.countP fun f => 2 * stage.order.val < f.progress

-- What one flight adds.
def tally (stage : Stage) (f : Flight) : Nat := if 2 * stage.order.val < f.progress then 1 else 0

theorem tally_fetch (f : Flight) : tally .fetch f = if 0 < f.progress then 1 else 0 := rfl

theorem tally_memory (f : Flight) : tally .memory f = if 6 < f.progress then 1 else 0 := rfl

theorem tally_writeBack (f : Flight) : tally .writeBack f = if 8 < f.progress then 1 else 0 := rfl

variable {slots : Slots} {stage : Stage} {f f' : Flight}

private theorem countP_around (pre post : List Flight) (f : Flight) (other : Stage) :
    (pre ++ f :: post).countP (fun f => 2 * other.order.val < f.progress) =
      (pre ++ post).countP (fun f => 2 * other.order.val < f.progress) + tally other f := by
  rw [List.countP_append, List.countP_cons, List.countP_append, tally]
  simp only [decide_eq_true_eq]
  omega

theorem passed_of_slot (hf : slots.slot stage = some f) (other : Stage) :
    slots.passed other = (slots.put stage none).passed other + tally other f := by
  have hplace : stage ≠ .system := by
    rintro rfl
    cases hf
  rw [passed, passed, flights_of_slot hf, slots.flights_put stage hplace, countP_around]
  rfl

theorem passed_put (hplace : stage ≠ .system) (f' : Flight) (other : Stage) :
    (slots.put stage (some f')).passed other = (slots.put stage none).passed other +
      tally other f' := by
  rw [passed, passed, slots.flights_put stage hplace, slots.flights_put stage hplace]
  exact countP_around _ _ _ _

theorem passed_put_new (hfree : slots.slot stage = none) (hplace : stage ≠ .system) {other : Stage}
    (htally : tally other f' = 0) :
    (slots.put stage (some f')).passed other = slots.passed other := by
  have hsame := slots.put_slot stage
  rw [hfree] at hsame
  rw [passed_put hplace, htally, hsame]
  rfl

-- Who moves on has finished the stage it leaves and not yet the one it enters.
theorem passed_pass {first second : Stage} (horder : second.order.val = first.order + 1)
    (hplace : second ≠ .system) (hstage : ∀ f, slots.slot first = some f → f.stage = first)
    (other : Stage) :
    (slots.pass first second).passed other = slots.passed other := by
  rcases slots.pass_cases first second with hsame | ⟨f, hf, hfree, hstate, hpass⟩
  · rw [hsame]
  · have hp := progress_of_completed hstate
    have hp' := progress_enter f second
    have htally : tally other (f.enter second) = tally other f := by
      rw [hstage f hf] at hp
      rw [tally, tally, hp, hp']
      split <;> split <;> omega
    rw [hpass, passed, flights_move (f.enter second) horder hplace hf hfree, countP_around, htally,
      ← countP_around, ← flights_of_slot hf]
    rfl

theorem passed_map {wake : Flight → Flight} {other : Stage}
    (h : ∀ f ∈ slots.flights, tally other (wake f) = tally other f) :
    (slots.map wake).passed other = slots.passed other := by
  rw [passed, passed, flights_map, List.countP_map]
  refine List.countP_congr fun f hf => ?_
  have htally := h f hf
  simp only [tally] at htally
  simp only [Function.comp_apply, decide_eq_true_eq]
  split at htally <;> split at htally <;> omega

theorem mem_younger {g : Flight} (hg : g ∈ slots.younger stage) :
    ∃ other, other.order.val < stage.order.val ∧ slots.slot other = some g := by
  cases stage <;> simp only [younger, List.mem_append, Option.mem_toList,
    List.not_mem_nil, or_assoc] at hg
  case decode => exact ⟨.fetch, by decide, hg⟩
  case execute =>
    rcases hg with h | h
    · exact ⟨.fetch, by decide, h⟩
    · exact ⟨.decode, by decide, h⟩
  case memory =>
    rcases hg with h | h | h
    · exact ⟨.fetch, by decide, h⟩
    · exact ⟨.decode, by decide, h⟩
    · exact ⟨.execute, by decide, h⟩
  all_goals
    rcases hg with h | h | h | h
    · exact ⟨.fetch, by decide, h⟩
    · exact ⟨.decode, by decide, h⟩
    · exact ⟨.execute, by decide, h⟩
    · exact ⟨.memory, by decide, h⟩

theorem mem_older {g : Flight} (hg : g ∈ slots.older stage) :
    ∃ other, stage.order.val < other.order.val ∧ slots.slot other = some g := by
  cases stage <;> simp only [older, List.mem_append, Option.mem_toList,
    List.not_mem_nil, or_assoc] at hg
  case fetch =>
    rcases hg with h | h | h | h
    · exact ⟨.decode, by decide, h⟩
    · exact ⟨.execute, by decide, h⟩
    · exact ⟨.memory, by decide, h⟩
    · exact ⟨.writeBack, by decide, h⟩
  case decode =>
    rcases hg with h | h | h
    · exact ⟨.execute, by decide, h⟩
    · exact ⟨.memory, by decide, h⟩
    · exact ⟨.writeBack, by decide, h⟩
  case execute =>
    rcases hg with h | h
    · exact ⟨.memory, by decide, h⟩
    · exact ⟨.writeBack, by decide, h⟩
  case memory => exact ⟨.writeBack, by decide, hg⟩

end Slots

namespace Pipeline

-- How many have done their work in a stage since the run began.
def passed (p : Pipeline) (stage : Stage) : Nat := p.retired + p.slots.passed stage

theorem passed_anti (p : Pipeline) (first second : Stage)
    (horder : first.order.val ≤ second.order.val) :
    p.passed second ≤ p.passed first := by
  refine Nat.add_le_add_left (List.countP_mono_left fun f _ hf => ?_) _
  simp only [decide_eq_true_eq] at hf ⊢
  omega

theorem accessed_le_fetched (p : Pipeline) : p.passed .memory ≤ p.passed .fetch :=
  p.passed_anti .fetch .memory (by decide)

theorem committed_le_accessed (p : Pipeline) : p.passed .writeBack ≤ p.passed .memory :=
  p.passed_anti .memory .writeBack (by decide)

theorem retired_le_passed (p : Pipeline) (stage : Stage) : p.retired ≤ p.passed stage :=
  Nat.le_add_right _ _

theorem passed_le (p : Pipeline) (stage : Stage) :
    p.passed stage ≤ p.retired + p.slots.flights.length :=
  Nat.add_le_add_left List.countP_le_length _

-- One flight is replaced by what its stage makes of it, or leaves.

theorem passed_replace {p : Pipeline} (p' : Pipeline) {stage : Stage} {f f' : Flight}
    (hf : p.slots.slot stage = some f) (hretired : p'.retired = p.retired)
    (hslots : p'.slots = p.slots.put stage (some f')) (other : Stage) :
    p'.passed other + Slots.tally other f = p.passed other + Slots.tally other f' := by
  have hplace : stage ≠ .system := by
    rintro rfl
    cases hf
  rw [passed, passed, hretired, hslots, Slots.passed_put hplace, Slots.passed_of_slot hf]
  omega

theorem passed_remove {p : Pipeline} (p' : Pipeline) {stage : Stage} {f : Flight}
    (hf : p.slots.slot stage = some f) (hretired : p'.retired = p.retired)
    (hslots : p'.slots = p.slots.put stage none) (other : Stage) :
    p'.passed other + Slots.tally other f = p.passed other := by
  rw [passed, passed, hretired, hslots, Slots.passed_of_slot hf]
  omega

-- A new instruction has passed nothing.
theorem passed_takeIn (p : Pipeline) (other : Stage) : p.takeIn.passed other = p.passed other := by
  rcases p.takeIn_cases with hsame | ⟨-, hfree, -, htaken⟩
  · rw [hsame]
  · rw [htaken]
    refine congrArg (p.retired + ·) (Slots.passed_put_new hfree nofun ?_)
    exact if_neg (Nat.not_lt_zero _)

namespace WellFormed

variable {p : Pipeline} (h : WellFormed p)

include h

theorem progress_ne {stage other : Stage} {f : Flight} (hf : p.slots.slot other = some f)
    (hne : other ≠ stage) :
    f.progress ≠ 2 * stage.order.val := by
  have hbounds := h.progress_bounds hf
  intro heq
  refine hne (Stage.order_injective (Fin.ext ?_))
  omega

-- The stages are passed in program order.
theorem lt_passed_iff {stage : Stage} {f : Flight} (hf : p.slots.slot stage = some f)
    (other : Stage) :
    f.id < p.passed other ↔ 2 * other.order.val < f.progress := by
  have hid := (h.fits hf).id_eq
  have hbounds := h.progress_bounds hf
  have hlength : (p.slots.older stage).countP (fun f => 2 * other.order.val < f.progress) ≤
      (p.slots.older stage).length := List.countP_le_length
  rw [passed, Slots.passed, Slots.flights_of_slot hf, List.countP_append, List.countP_cons]
  simp only [decide_eq_true_eq]
  constructor
  · intro hlt
    by_contra hn
    have hnone :
        (p.slots.younger stage).countP (fun f => 2 * other.order.val < f.progress) = 0 := by
      rw [List.countP_eq_zero]
      intro g hg
      obtain ⟨s, hs, hslot⟩ := Slots.mem_younger hg
      have := h.progress_bounds hslot
      simp only [decide_eq_true_eq]
      omega
    rw [if_neg hn, hnone] at hlt
    omega
  · intro hlt
    have hall : (p.slots.older stage).countP (fun f => 2 * other.order.val < f.progress) =
        (p.slots.older stage).length := by
      rw [List.countP_eq_length]
      intro g hg
      obtain ⟨s, hs, hslot⟩ := Slots.mem_older hg
      have := h.progress_bounds hslot
      simp only [decide_eq_true_eq]
      omega
    rw [if_pos hlt, hall]
    omega

theorem lt_fetched_iff {stage : Stage} {f : Flight} (hf : p.slots.slot stage = some f) :
    f.id < p.passed .fetch ↔ 0 < f.progress := h.lt_passed_iff hf .fetch

theorem lt_accessed_iff {stage : Stage} {f : Flight} (hf : p.slots.slot stage = some f) :
    f.id < p.passed .memory ↔ 6 < f.progress := h.lt_passed_iff hf .memory

theorem lt_committed_iff {stage : Stage} {f : Flight} (hf : p.slots.slot stage = some f) :
    f.id < p.passed .writeBack ↔ 8 < f.progress := h.lt_passed_iff hf .writeBack

-- Every number that has been given and not retired is still in flight.
theorem exists_slot {i : Nat} (hle : p.retired ≤ i) (hlt : i < p.retired + p.slots.flights.length) :
    ∃ stage f, p.slots.slot stage = some f ∧ f.id = i := by
  obtain ⟨f, hf, hid⟩ := h.row.exists_of_id hle hlt
  obtain ⟨stage, hslot⟩ := Slots.mem_flights.mp hf
  exact ⟨stage, f, hslot, hid⟩

theorem exists_older {stage : Stage} {f : Flight} (hf : p.slots.slot stage = some f) {i : Nat}
    (hle : p.retired ≤ i) (hlt : i < f.id) : ∃ g ∈ p.slots.older stage, g.id = i := by
  have hid := (h.fits hf).id_eq
  have hrow := h.row
  rw [Slots.flights_of_slot hf] at hrow
  exact hrow.behind.exists_of_id hle (by omega)

-- Whoever is not done in a stage is the next to be.
theorem passed_eq {stage : Stage} {f : Flight} (hf : p.slots.slot stage = some f)
    (hstate : f.state ≠ .completed) :
    p.passed stage = f.id := by
  have hp := progress_of_not_completed hstate
  rw [h.inPlace stage f hf] at hp
  have hle := h.lt_passed_iff hf stage
  have hretired := p.retired_le_passed stage
  by_contra hne
  obtain ⟨g, hg, hgid⟩ := h.exists_older hf hretired (by omega)
  obtain ⟨other, hother, hslot⟩ := Slots.mem_older hg
  have hbounds := h.progress_bounds hslot
  have hlt := (h.lt_passed_iff hslot stage).mpr (by omega)
  omega

-- Work that does not finish a stage passes none, and work that does passes that one.

omit h in
theorem passed_of_progress (p' : Pipeline) {stage : Stage} {f f' : Flight}
    (hf : p.slots.slot stage = some f) (hprogress : f'.progress = f.progress)
    (hretired : p'.retired = p.retired) (hslots : p'.slots = p.slots.put stage (some f'))
    (other : Stage) : p'.passed other = p.passed other := by
  have hcount := passed_replace p' hf hretired hslots other
  rw [Slots.tally, Slots.tally, hprogress] at hcount
  omega

theorem passed_of_finished (p' : Pipeline) {stage : Stage} {f f' : Flight}
    (hf : p.slots.slot stage = some f) (hstate : f.state ≠ .completed)
    (hprogress : f'.progress = 2 * stage.order + 1) (hretired : p'.retired = p.retired)
    (hslots : p'.slots = p.slots.put stage (some f')) (other : Stage) :
    p'.passed other = if other = stage then f.id + 1 else p.passed other := by
  have hbefore := progress_of_not_completed hstate
  rw [h.inPlace stage f hf] at hbefore
  have hcount := passed_replace p' hf hretired hslots other
  rw [Slots.tally, Slots.tally, hbefore, hprogress] at hcount
  split
  · rename_i hsame
    subst hsame
    have hpassed := h.passed_eq hf hstate
    rw [if_neg (by omega), if_pos (by omega)] at hcount
    omega
  · rename_i hne
    have horder : other.order.val ≠ stage.order.val :=
      fun heq => hne (Stage.order_injective (Fin.ext heq))
    split at hcount <;> split at hcount <;> omega

-- Whatever a stage does changes no count but its own.

theorem passed_of_place {p' : Pipeline} (h' : WellFormed p') {stage other : Stage} {f f' : Flight}
    (hf : p.slots.slot stage = some f) (hretired : p'.retired = p.retired)
    (hslots : p'.slots = p.slots.put stage (some f')) (hother : other ≠ stage) :
    p'.passed other = p.passed other := by
  have hplace : stage ≠ .system := by
    rintro rfl
    cases hf
  have hf' : p'.slots.slot stage = some f' := by
    rw [hslots, Slots.slot_put _ stage hplace, if_pos rfl]
  have hbounds := h.progress_bounds hf
  have hbounds' := h'.progress_bounds hf'
  have horder : other.order.val ≠ stage.order.val :=
    fun heq => hother (Stage.order_injective (Fin.ext heq))
  have hcount := passed_replace p' hf hretired hslots other
  rw [Slots.tally, Slots.tally] at hcount
  split at hcount <;> split at hcount <;> omega

theorem passed_commitStage {σ : Type} (context : Context σ) {other : Stage}
    (hother : other ≠ .writeBack) :
    (p.commitStage context).1.passed other = p.passed other := by
  have hwell := h.commitStage context
  rcases in_state_or_not (p.slots.slot .writeBack) .ready with ⟨f, hf, hready⟩ | hidle
  · rw [commitStage_of_ready hf hready] at hwell ⊢
    exact h.passed_of_place hwell hf rfl rfl hother
  · rw [commitStage_of_idle hidle]

theorem passed_accessStage {σ : Type} [Storage σ] (context : Context σ) {other : Stage}
    (hother : other ≠ .memory) :
    (p.accessStage context).2.1.passed other = p.passed other := by
  have hwell := h.accessStage context
  rcases in_state_or_not (p.slots.slot .memory) .ready with ⟨f, hf, hready⟩ | hidle
  · rcases haccess : f.access context with ⟨fault, f', after⟩
    rw [accessStage_of_ready hf hready haccess] at hwell ⊢
    exact h.passed_of_place hwell hf rfl rfl hother
  · rw [accessStage_of_idle hidle]

theorem passed_accessed {σ : Type} [Storage σ] (context : Context σ) {other : Stage}
    (hwriteBack : other ≠ .writeBack) (hmemory : other ≠ .memory) :
    (p.accessed context).2.1.passed other = p.passed other :=
  ((h.commitStage context).passed_accessStage _ hmemory).trans
    (h.passed_commitStage context hwriteBack)

-- Whoever stands before a stage that is free is the next to be done there.
theorem passed_eq_of_free {first second : Stage} {f : Flight} (hfree : p.slots.slot second = none)
    (hf : p.slots.slot first = some f) (horder : second.order.val = first.order.val + 1) :
    p.passed second = f.id := by
  have hbefore := h.progress_bounds hf
  have hle := h.lt_passed_iff hf second
  have hretired := p.retired_le_passed second
  by_contra hne
  obtain ⟨g, hg, hgid⟩ := h.exists_older hf hretired (by omega)
  obtain ⟨other, hother, hslot⟩ := Slots.mem_older hg
  have hbounds := h.progress_bounds hslot
  have hother' : other.order.val ≠ second.order.val := by
    intro heq
    rw [Stage.order_injective (Fin.ext heq), hfree] at hslot
    cases hslot
  have hlt := (h.lt_passed_iff hslot second).mpr (by omega)
  omega

-- Without overlap there is one in flight at most.
theorem alone (hserial : p.pipelined = false) {stage : Stage} {f : Flight}
    (hf : p.slots.slot stage = some f) :
    p.slots.flights = [f] ∧ f.id = p.retired := by
  have hid := (h.fits hf).id_eq
  have hle := h.single hserial
  rw [Slots.flights_of_slot hf, List.length_append, List.length_cons] at hle
  have hyounger : p.slots.younger stage = [] := List.eq_nil_of_length_eq_zero (by omega)
  have holder : p.slots.older stage = [] := List.eq_nil_of_length_eq_zero (by omega)
  rw [Slots.flights_of_slot hf, hyounger, holder]
  rw [holder] at hid
  exact ⟨rfl, hid⟩

theorem passed_alone (hserial : p.pipelined = false) {stage : Stage} {f : Flight}
    (hf : p.slots.slot stage = some f) (other : Stage) :
    p.passed other = f.id + Slots.tally other f := by
  obtain ⟨hflights, hid⟩ := h.alone hserial hf
  rw [passed, Slots.passed, hflights, List.countP_singleton, hid, Slots.tally]
  simp only [decide_eq_true_eq]

-- Then it is the next in the last two stages up to where it is done in Memory Access.
theorem counts_alone (hserial : p.pipelined = false) {stage : Stage} {f : Flight}
    (hf : p.slots.slot stage = some f) (hlow : 1 ≤ f.progress) (hhigh : f.progress ≤ 6) :
    p.passed .fetch = f.id + 1 ∧ p.passed .memory = f.id ∧ p.passed .writeBack = f.id := by
  have hcount := h.passed_alone hserial hf
  rw [hcount, hcount, hcount, Slots.tally_fetch, Slots.tally_memory, Slots.tally_writeBack,
    if_pos (by omega), if_neg (by omega), if_neg (by omega)]
  exact ⟨rfl, rfl, rfl⟩

-- Nor does a retirement or a move change a count. Waking a flight completes Decode, which is not
-- counted here.

theorem passed_retire {other : Stage} (hother : other ≠ .decode ∧ other ≠ .system) :
    p.retire.passed other = p.passed other := by
  rcases in_state_or_not (p.slots.slot .writeBack) .completed with ⟨f, hf, hstate⟩ | hunfinished
  · have hp : f.progress = 9 := h.progress_of_completed hf hstate
    have hdecode : other.order.val ≠ 1 := fun heq => hother.1 (Stage.order_injective (Fin.ext heq))
    have hsystem : other.order.val ≠ 5 := fun heq => hother.2 (Stage.order_injective (Fin.ext heq))
    have hlast : Slots.tally other f = 1 := by
      rw [Slots.tally, hp]
      exact if_pos (by omega)
    have hwake : ((p.slots.put .writeBack none).map (wakeIf f.id)).passed other =
        (p.slots.put .writeBack none).passed other := by
      refine Slots.passed_map fun g hg => ?_
      obtain ⟨stage, hslot⟩ := Slots.mem_flights.mp hg
      rw [Slots.slot_put _ .writeBack nofun] at hslot
      by_cases hstalled : g.state = .stalled f.id
      · obtain ⟨hp, hp'⟩ : g.progress = 2 ∧ g.complete.progress = 3 := by
          split at hslot
          · cases hslot
          · exact (h.fits hslot).progress_of_stalled hstalled
        rw [wakeIf_of_stalled hstalled, Slots.tally, Slots.tally, hp, hp']
        exact if_congr (by omega) rfl rfl
      · rw [wakeIf_of_not_stalled hstalled]
    rw [retire_of_completed hf hstate]
    show p.retired + 1 + ((p.slots.put .writeBack none).map (wakeIf f.id)).passed other = _
    rw [hwake, passed, Slots.passed_of_slot hf, hlast]
    omega
  · rw [retire_of_unfinished hunfinished]

theorem passed_pass (first second : Stage) (horder : second.order.val = first.order + 1)
    (hplace : second ≠ .system) (other : Stage) :
    passed { p with slots := p.slots.pass first second } other = p.passed other :=
  congrArg (p.retired + ·) (Slots.passed_pass horder hplace (h.inPlace first) other)

theorem passed_advance {other : Stage} (hother : other ≠ .decode ∧ other ≠ .system) :
    p.advance.passed other = p.passed other := by
  rw [← h.passed_retire hother]
  have hretired := h.retire
  have hfirst := hretired.move .memory .writeBack rfl nofun
  have hsecond := hfirst.move .execute .memory rfl nofun
  have hthird := hsecond.move .decode .execute rfl nofun
  calc p.advance.passed other
    _ = _ := hthird.passed_pass .fetch .decode rfl nofun other
    _ = _ := hsecond.passed_pass .decode .execute rfl nofun other
    _ = _ := hfirst.passed_pass .execute .memory rfl nofun other
    _ = _ := hretired.passed_pass .memory .writeBack rfl nofun other

end WellFormed

end Pipeline

end PipelinedProcessor
