import Mathlib.Tactic.Common
import PipelinedProcessor.Flight.Access
import PipelinedProcessor.Flight.Execution
import PipelinedProcessor.Flight.Hazard

namespace PipelinedProcessor.Flight

-- How far an instruction has come: two for every stage that it has left, and one more where it has
-- finished the stage that it is in.
def progress (f : Flight) : Nat := 2 * f.stage.order + if f.state = .completed then 1 else 0

-- Decode has looked at the word.
def Known (f : Flight) : Prop :=
  ∃ w, f.raw = some w ∧ f.instr = some (Instruction.ofWord w) ∧
    f.reads = (Instruction.ofWord w).reads ∧ f.writes = (Instruction.ofWord w).writes

-- What makes a flight the one that comes after the `older` ones, of which the oldest has the number
-- of those retired. From Decode on nothing that it depends on is in flight any more; if it has to
-- wait there, then for the youngest that it depends on.
structure Fits (retired : Nat) (older : List Flight) (f : Flight) : Prop where
  id_eq : f.id = retired + older.length
  place : f.stage ≠ .system
  done_eq : f.stagesDone = Stage.pipeline.take ((f.progress + 1) / 2)
  stalled : ∀ j, f.state = .stalled j → f.stage = .decode ∧ f.Known ∧ (∃ g ∈ older, g.id = j) ∧
    ∀ g ∈ older, j < g.id → f.dependsOn g = false
  settled : 3 ≤ f.progress → f.Known ∧ ∀ g ∈ older, f.dependsOn g = false
  blank : f.progress = 0 → f.raw = none
  fetched : 1 ≤ f.progress → ∃ w, f.raw = some w ∧ w ≠ Word.halt
  undecoded : f.progress ≤ 2 → (∀ j, f.state ≠ .stalled j) → f.instr = none
  idle : f.progress ≤ 4 → f.action = none ∧ f.results = []

-- What others see of a flight.
structure SameFace (f f' : Flight) : Prop where
  id_eq : f'.id = f.id
  instr_eq : f'.instr = f.instr
  reads_eq : f'.reads = f.reads
  writes_eq : f'.writes = f.writes

theorem SameFace.refl (f : Flight) : SameFace f f := ⟨rfl, rfl, rfl, rfl⟩

theorem dependsOn_congr {f f' g g' : Flight} (hf : SameFace f f') (hg : SameFace g g') :
    f'.dependsOn g' = f.dependsOn g := by
  simp only [dependsOn, isBranch, isCompare, hf.instr_eq, hf.reads_eq, hg.instr_eq, hg.writes_eq]

theorem dependsOn_eq_false {f older : Flight} (h : f.dependsOn older = false) :
    (∀ r ∈ older.writes, r ∉ f.reads) ∧ (f.isBranch → ¬older.isCompare) := by
  simpa [dependsOn] using h

theorem sameFace_complete (f : Flight) : SameFace f f.complete := ⟨rfl, rfl, rfl, rfl⟩

theorem sameFace_enter (f : Flight) (stage : Stage) : SameFace f (f.enter stage) :=
  ⟨rfl, rfl, rfl, rfl⟩

theorem Known.of_same {f f' : Flight} (h : f.Known) (hface : SameFace f f')
    (hraw : f'.raw = f.raw) :
    f'.Known := by
  obtain ⟨w, hw, hinstr, hreads, hwrites⟩ := h
  exact ⟨w, hraw.trans hw, hface.instr_eq.trans hinstr, hface.reads_eq.trans hreads,
    hface.writes_eq.trans hwrites⟩

-- Progress.

theorem progress_of_not_completed {f : Flight} (h : f.state ≠ .completed) :
    f.progress = 2 * f.stage.order := by
  simp [progress, h]

theorem progress_of_completed {f : Flight} (h : f.state = .completed) :
    f.progress = 2 * f.stage.order + 1 := by
  simp [progress, h]

theorem progress_of_ready {f : Flight} {stage : Stage} (hready : f.state = .ready)
    (hstage : f.stage = stage) :
    f.progress = 2 * stage.order := by
  rw [progress_of_not_completed (by simp [hready]), hstage]

theorem progress_complete (f : Flight) : f.complete.progress = 2 * f.stage.order + 1 := rfl

theorem progress_enter (f : Flight) (stage : Stage) : (f.enter stage).progress = 2 * stage.order :=
  rfl

theorem take_pipeline {stage : Stage} (h : stage ≠ .system) :
    Stage.pipeline.take stage.order ++ [stage] = Stage.pipeline.take (stage.order + 1) := by
  cases stage <;> first | rfl | contradiction

theorem mem_take_pipeline {stage : Stage} (h : stage ≠ .system) (n : Nat) :
    stage ∈ Stage.pipeline.take n ↔ stage.order.val < n := by
  match n with
  | 0 | 1 | 2 | 3 | 4 => cases stage <;> first | contradiction | decide
  | n + 5 =>
      have hlt : stage.order.val < 5 := by
        cases stage <;> first | contradiction | decide
      have hmem : stage ∈ Stage.pipeline := by
        cases stage <;> first | contradiction | decide
      rw [List.take_of_length_le (show Stage.pipeline.length ≤ n + 5 from Nat.le_add_left 5 n)]
      exact iff_of_true hmem (by omega)

-- A flight is done with the stages that are behind it.
theorem Fits.done_iff {retired : Nat} {older : List Flight} {f : Flight} (h : Fits retired older f)
    (stage : Stage) (hplace : stage ≠ .system) :
    stage ∈ f.stagesDone ↔ 2 * stage.order.val < f.progress := by
  rw [h.done_eq, mem_take_pipeline hplace]
  omega

-- A stage that ends leaves its mark.
theorem done_of_complete {f : Flight} (hplace : f.stage ≠ .system) (hstate : f.state ≠ .completed)
    (hdone : f.stagesDone = Stage.pipeline.take ((f.progress + 1) / 2)) :
    f.stagesDone ++ [f.stage] = Stage.pipeline.take ((2 * f.stage.order + 1 + 1) / 2) := by
  rw [hdone, progress_of_not_completed hstate, show (2 * f.stage.order.val + 1) / 2 =
    f.stage.order by omega, take_pipeline hplace]
  congr 1
  omega

section

variable {retired : Nat} {older : List Flight} {f : Flight} (h : Fits retired older f)

include h

-- What waits does so in Decode, which it has finished when it is woken.
theorem Fits.progress_of_stalled {j : Nat} (hstate : f.state = .stalled j) :
    f.progress = 2 ∧ f.complete.progress = 3 := by
  have hstage := (h.stalled j hstate).1
  constructor
  · rw [progress_of_not_completed (by simp [hstate]), hstage]
    rfl
  · rw [progress_complete, hstage]
    rfl

-- Others may make progress while this one waits.
theorem Fits.of_older {older' : List Flight} (hlength : older'.length = older.length)
    (hsame : f.stage = .fetch ∨ ∀ g' ∈ older', ∃ g ∈ older, SameFace g g')
    (hstays : ∀ j, f.state = .stalled j → (∃ g ∈ older, g.id = j) → ∃ g' ∈ older', g'.id = j) :
    Fits retired older' f := by
  refine ⟨hlength ▸ h.id_eq, h.place, h.done_eq, ?_, ?_, h.blank, h.fetched, h.undecoded, h.idle⟩
  · intro j hj
    obtain ⟨hstage, hknown, hproducer, hlate⟩ := h.stalled j hj
    refine ⟨hstage, hknown, hstays j hj hproducer, ?_⟩
    intro g' hg' hlt
    rcases hsame with hfetch | hsame
    · rw [hfetch] at hstage
      cases hstage
    · obtain ⟨g, hg, hface⟩ := hsame g' hg'
      rw [dependsOn_congr (.refl f) hface]
      exact hlate g hg (hface.id_eq ▸ hlt)
  · intro hprogress
    obtain ⟨hknown, hfree⟩ := h.settled hprogress
    refine ⟨hknown, ?_⟩
    intro g' hg'
    rcases hsame with hfetch | hsame
    · simp only [progress, hfetch, Stage.order] at hprogress
      split at hprogress <;> simp at hprogress
    · obtain ⟨g, hg, hface⟩ := hsame g' hg'
      rw [dependsOn_congr (.refl f) hface]
      exact hfree g hg

-- Work in one of the last three stages.
theorem Fits.of_work {f' : Flight} (hface : SameFace f f') (hraw : f'.raw = f.raw)
    (hstage : f'.stage = f.stage) (hlate : 4 ≤ f.progress) (hready : f.state ≠ .completed)
    (hstate : (f'.state = f.state ∧ f'.stagesDone = f.stagesDone) ∨
      (f'.state = .completed ∧ f'.stagesDone = f.stagesDone ++ [f.stage]))
    (hidle : f'.progress ≤ 4 → f'.action = none ∧ f'.results = []) : Fits retired older f' := by
  have hprogress : f.progress ≤ f'.progress := by
    rw [progress_of_not_completed hready]
    simp only [progress, hstage]
    omega
  refine ⟨hface.id_eq.trans h.id_eq, hstage ▸ h.place, ?_, ?_, ?_, by omega, ?_, by omega, hidle⟩
  · rcases hstate with ⟨hsame, hdone⟩ | ⟨hcompleted, hdone⟩
    · rw [hdone, h.done_eq]
      simp only [progress, hstage, hsame]
    · rw [hdone, done_of_complete h.place hready h.done_eq,
        progress_of_completed hcompleted, hstage]
  · intro j hj
    rcases hstate with ⟨hsame, -⟩ | ⟨hcompleted, -⟩
    · have hdecode := (h.stalled j (hsame ▸ hj)).1
      rw [progress_of_not_completed hready, hdecode] at hlate
      simp [Stage.order] at hlate
    · rw [hcompleted] at hj
      cases hj
  · intro _
    obtain ⟨hknown, hfree⟩ := h.settled (by omega)
    refine ⟨hknown.of_same hface hraw, ?_⟩
    intro g hg
    rw [dependsOn_congr hface (.refl g)]
    exact hfree g hg
  · intro _
    rw [hraw]
    exact h.fetched (by omega)

theorem Fits.enter {stage : Stage} (hstage : stage.order.val = f.stage.order + 1)
    (hplace : stage ≠ .system) (hstate : f.state = .completed) :
    Fits retired older (f.enter stage) := by
  have hp := progress_of_completed hstate
  have hp' := progress_enter f stage
  refine ⟨h.id_eq, hplace, ?_, nofun, ?_, by omega, fun _ => h.fetched (by omega), ?_, ?_⟩
  · show f.stagesDone = _
    rw [h.done_eq, hp, hp']
    congr 1
    omega
  · intro hlate
    obtain ⟨hknown, hfree⟩ := h.settled (by omega)
    exact ⟨hknown.of_same (sameFace_enter f stage) rfl, fun g hg => hfree g hg⟩
  · intro hearly _
    exact h.undecoded (by omega) (by simp [hstate])
  · intro hearly
    exact h.idle (by omega)

end

theorem fits_new {retired id : Nat} {older : List Flight} (hid : id = retired + older.length) :
    Fits retired older { id := id } :=
  ⟨hid, nofun, by simp [progress, Stage.order], nofun, nofun, fun _ => rfl, nofun,
    fun _ _ => rfl, fun _ => ⟨rfl, rfl⟩⟩

end PipelinedProcessor.Flight
