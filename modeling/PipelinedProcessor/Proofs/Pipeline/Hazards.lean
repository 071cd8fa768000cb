import PipelinedProcessor.Memory.MainMemory
import PipelinedProcessor.Proofs.Pipeline.Steps

namespace PipelinedProcessor.Pipeline

open Flight

-- The pipelines that a run can come to. What registers and memory hold is left open in every cycle,
-- so that this takes in all programs, all delays and all kinds of memory.
inductive Reachable (σ : Type) [Storage σ] : Pipeline → Prop where
  | start (pipelined : Bool) : Reachable σ (start pipelined)
  | step {p : Pipeline} (h : Reachable σ p) (context : Context σ) : Reachable σ (p.step context).2.1

-- A run, cycle by cycle: the pipeline and what it works on.
def runFor {σ : Type} [Storage σ] (pipelined : Bool) (context : Context σ) :
    Nat → Pipeline × Context σ
  | 0 => (start pipelined, context)
  | n + 1 => ((runFor pipelined context n).1.step (runFor pipelined context n).2).2

theorem Reachable.runFor {σ : Type} [Storage σ] (pipelined : Bool) (context : Context σ) (n : Nat) :
    Reachable σ (runFor pipelined context n).1 := by
  induction n with
  | zero => exact .start pipelined
  | succ n ih => exact ih.step _

-- No register is used before all who write it have done so. Once Decode has let an instruction
-- pass, each of those before it is out of the pipeline or writes nothing that it reads; a branch
-- has no comparison before it in the pipeline.
structure DefinedBeforeUse (p : Pipeline) : Prop where
  past_decode : ∀ f, p.slots.execute = some f ∨ p.slots.memory = some f ∨
    p.slots.writeBack = some f →
    .decode ∈ f.stagesDone
  registers : ∀ f ∈ p.slots.flights, .decode ∈ f.stagesDone →
    ∃ instr, f.instr = some instr ∧ f.reads = instr.reads ∧ f.writes = instr.writes
  independent : ∀ f ∈ p.slots.flights, .decode ∈ f.stagesDone → ∀ older ∈ p.slots.flights,
    older.id < f.id → (∀ r ∈ older.writes, r ∉ f.reads) ∧ (f.isBranch → ¬older.isCompare)
  retired : ∀ f ∈ p.slots.flights, .decode ∈ f.stagesDone → ∀ id < f.id, id < p.retired ∨
    ∃ older ∈ p.slots.flights, older.id = id ∧ (∀ r ∈ older.writes, r ∉ f.reads) ∧
      (f.isBranch → ¬older.isCompare)

theorem Reachable.wellFormed {σ : Type} [Storage σ] {p : Pipeline} (h : Reachable σ p) :
    WellFormed p := by
  induction h with
  | start pipelined => exact wellFormed_start pipelined
  | step _ context ih => exact ih.step context

theorem WellFormed.definedBeforeUse {p : Pipeline} (h : WellFormed p) : DefinedBeforeUse p := by
  have hbehind : ∀ f ∈ p.slots.flights, .decode ∈ f.stagesDone → ∀ older ∈ p.slots.flights,
      older.id < f.id → f.dependsOn older = false := by
    intro f hf hdecoded older holder hlt
    obtain ⟨pre, post, hsplit⟩ := List.append_of_mem hf
    have hrow := h.row
    rw [hsplit] at hrow holder
    exact (hrow.fits.settled ((hrow.fits.done_iff .decode nofun).mp hdecoded)).2 older
      ((hrow.mem_older_iff older).mp ⟨holder, hlt⟩)
  refine ⟨?_, ?_, ?_, ?_⟩
  · have hpast (stage : Stage) (hlate : 2 ≤ stage.order.val) (f : Flight)
        (hf : p.slots.slot stage = some f) : .decode ∈ f.stagesDone := by
      have horder : Stage.decode.order.val = 1 := rfl
      rw [(h.fits hf).done_iff .decode nofun, progress, h.inPlace stage f hf]
      omega
    rintro f (hf | hf | hf)
    · exact hpast .execute (by decide) f hf
    · exact hpast .memory (by decide) f hf
    · exact hpast .writeBack (by decide) f hf
  · intro f hf hdecoded
    obtain ⟨stage, hslot⟩ := Slots.mem_flights.mp hf
    obtain ⟨⟨w, -, hinstr, hreads, hwrites⟩, -⟩ :=
      (h.fits hslot).settled (((h.fits hslot).done_iff .decode nofun).mp hdecoded)
    exact ⟨_, hinstr, hreads, hwrites⟩
  · intro f hf hdecoded older holder hlt
    exact dependsOn_eq_false (hbehind f hf hdecoded older holder hlt)
  · intro f hf hdecoded id hlt
    by_cases hretired : id < p.retired
    · exact .inl hretired
    · -- numbers have no gaps, so that whatever has not retired is still there
      obtain ⟨pre, post, hsplit⟩ := List.append_of_mem hf
      have hrow := h.row
      rw [hsplit] at hrow
      have hfits := hrow.fits.id_eq
      obtain ⟨older, holder, hid⟩ : ∃ older ∈ post, older.id = id :=
        hrow.behind.exists_of_id (by omega) (by omega)
      have hmem : older ∈ p.slots.flights := by
        rw [hsplit]
        simp [holder]
      exact .inr ⟨older, hmem, hid,
        dependsOn_eq_false (hbehind f hf hdecoded older hmem (hid ▸ hlt))⟩

-- Between two cycles, and within one when Memory Access and when Execute begin their work.
theorem definedBeforeUse_of_reachable {σ : Type} [Storage σ] {p : Pipeline} (h : Reachable σ p)
    (context : Context σ) :
    let (committed, context) := { p with clock := p.clock + 1 }.commitStage context
    let (_, accessed, _) := committed.accessStage context
    DefinedBeforeUse p ∧ DefinedBeforeUse committed ∧ DefinedBeforeUse accessed := by
  have hcommitted := (h.wellFormed.of_counts (p.clock + 1) p.stalls p.running).commitStage context
  exact ⟨h.wellFormed.definedBeforeUse, hcommitted.definedBeforeUse,
    (hcommitted.accessStage _).definedBeforeUse⟩

-- A branch waits in Decode for the comparison that is two before it. When that has retired, the
-- instruction in between is still in flight.
theorem definedBeforeUse_behind_woken_branch :
    let memory := [Instruction.scalarImmediate false .compare 0 1 7, .transferImmediate .load 4 9,
      .branch .eq false 2].zipIdx.foldl (fun memory instr => memory.put instr.2 instr.1.encode)
        (MainMemory.zeroed 2 0 (by decide))
    let cycle := runFor true ⟨{}, .empty 1 1, memory⟩
    (cycle 4).1.slots.decode.map Flight.state = some (.stalled 0) ∧ DefinedBeforeUse (cycle 5).1 ∧
    (cycle 5).1.slots.execute.map (fun f => (f.id, f.isBranch, f.stagesDone, f.reads)) =
      some (2, true, [.fetch, .decode], [.scalar 13]) ∧
    (cycle 5).1.slots.writeBack.map (fun f => (f.id, f.isCompare, f.writes)) =
      some (1, false, [.scalar 4]) := by
  intro memory cycle
  have hreachable := Reachable.runFor true ⟨{}, .empty 1 1, memory⟩ 5
  exact ⟨by decide +kernel, (definedBeforeUse_of_reachable hreachable (cycle 5).2).1,
    by decide +kernel, by decide +kernel⟩

end PipelinedProcessor.Pipeline
