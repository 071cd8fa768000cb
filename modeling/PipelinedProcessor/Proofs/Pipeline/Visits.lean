import PipelinedProcessor.Proofs.Pipeline.Alongside

namespace PipelinedProcessor

open Pipeline

namespace Ledger

-- Whether the flight of the number in a slot is there, and in no other stage. Where it is not, the
-- program has a branch for it.
def Finds (l : Ledger) (stage : Stage) : Prop :=
  ∀ id, l.slots stage = some id → ∃ f, l.inFlight[id]? = some f ∧ f.stage = stage

-- A ledger in which everything is in its place.
def InPlace (l : Ledger) : Prop := ∃ p, WellFormed p ∧ Represents p l

theorem InPlace.finds {l : Ledger} (h : l.InPlace) (stage : Stage) : l.Finds stage := by
  obtain ⟨p, hwell, hrepresents⟩ := h
  intro id hid
  rw [hrepresents.slots_eq] at hid
  obtain ⟨f, hf, rfl⟩ := Option.map_eq_some_iff.mp hid
  exact ⟨f, (hrepresents.lookup hf).2, hwell.inPlace stage f hf⟩

section

variable {σ : Type} [Storage σ]

-- The stages that come to their turn, each with the ledger that it finds then.
def visits : List Stage → Ledger → Context σ → List (Stage × Ledger)
  | [], _, _ => []
  | stage :: rest, l, context =>
    (stage, l) :: match l.workAt stage context with
      | (some _, _, _) => []
      | (none, l, context) => visits rest l context

theorem InPlace.workAt {l : Ledger} (h : l.InPlace) {stage : Stage}
    (hstage : stage ∈ Stage.pipeline) (context : Context σ) :
    (l.workAt stage context).2.1.InPlace := by
  obtain ⟨p, hwell, hrepresents⟩ := h
  cases stage with
  | fetch =>
      exact ⟨_, hwell.fetchStage context, (hrepresents.fetchStage hwell context).represents⟩
  | decode => exact ⟨_, hwell.decodeStage, (hrepresents.decodeStage hwell context).represents⟩
  | execute =>
      have hagrees := hrepresents.executeStage hwell context
      cases hresult : p.executeStage context.registers context.vectors with
      | error cause =>
          rw [hresult] at hagrees
          exact ⟨p, hwell, hagrees.represents⟩
      | ok p' =>
          rw [hresult] at hagrees
          exact ⟨p', hwell.executeStage hresult, hagrees.represents⟩
  | memory =>
      exact ⟨_, hwell.accessStage context, (hrepresents.accessStage hwell context).represents⟩
  | writeBack =>
      exact ⟨_, hwell.commitStage context, (hrepresents.commitStage hwell context).represents⟩
  | system => exact absurd hstage (by decide)

theorem InPlace.finds_of_visits {l : Ledger} (h : l.InPlace) {stages : List Stage}
    (hstages : ∀ stage ∈ stages, stage ∈ Stage.pipeline) (context : Context σ) :
    ∀ visit ∈ visits stages l context, visit.1 ∈ Stage.pipeline ∧ visit.2.Finds visit.1 := by
  induction stages generalizing l context with
  | nil => exact fun visit hvisit => nomatch hvisit
  | cons stage rest ih =>
      have hnext := h.workAt (hstages stage List.mem_cons_self) context
      intro visit hvisit
      rcases List.mem_cons.mp hvisit with rfl | hlater
      · exact ⟨hstages stage List.mem_cons_self, h.finds stage⟩
      · rcases hwork : l.workAt stage context with ⟨fault, l', context'⟩
        rw [hwork] at hnext hlater
        cases fault with
        | some cause => cases hlater
        | none =>
          have hrest := fun stage hstage => hstages stage (List.mem_cons_of_mem _ hstage)
          exact ih hnext hrest context' visit hlater

end

end Ledger

-- In every cycle of a ledger that went through the same cycles, no stage misses what is in its
-- slot.
theorem Alongside.finds {σ : Type} [Storage σ] {p : Pipeline} {l : Ledger} (h : Alongside σ p l)
    (context : Context σ) :
    ∀ visit ∈ Ledger.visits Stage.pipeline.reverse l.tick context,
      visit.1 ∈ Stage.pipeline ∧ visit.2.Finds visit.1 := by
  have hrepresents := h.represents
  have hticked : l.tick.InPlace := by
    refine ⟨p.tick, h.reachable.wellFormed.of_counts (p.clock + 1) p.stalls p.running, ?_,
      hrepresents.slots_eq, hrepresents.flight_iff⟩
    exact congrArg (fun q : Pipeline => { q with clock := q.clock + 1 }) hrepresents.run_eq
  exact hticked.finds_of_visits (fun stage hstage => List.mem_reverse.mp hstage) context

end PipelinedProcessor
