import PipelinedProcessor.Proofs.Pipeline.Alongside

namespace PipelinedProcessor

open Flight

theorem Flight.Fits.stagesDone_eq {retired : Nat} {older : List Flight} {f : Flight}
    (h : f.Fits retired older) :
    f.stagesDone = Stage.pipeline.take f.stage.order ++ if f.state = .completed
      then [f.stage] else [] := by
  rw [h.done_eq]
  split
  · rename_i hstate
    rw [progress_of_completed hstate, take_pipeline h.place]
    congr 1
    omega
  · rename_i hstate
    rw [progress_of_not_completed hstate, List.append_nil]
    congr 1
    omega

-- What slots and flights have to say of each other. A number is in one slot at most, and smaller in
-- later stages; what waits does so in Decode, for what is ahead of it there and lets it go on when
-- it retires.
structure Ledger.Consistent (l : Ledger) : Prop where
  decreasing : ∀ stage later id older, stage.order < later.order → l.slots stage = some id →
    l.slots later = some older → older < id
  keys : ∀ id, id ∈ l.inFlight ↔ ∃ stage ∈ Stage.pipeline, l.slots stage = some id
  staged : ∀ stage id (f : Flight), l.slots stage = some id → l.inFlight[id]? = some f →
    f.id = id ∧ f.stage = stage ∧
    f.stagesDone = Stage.pipeline.take stage.order ++ if f.state = .completed then [stage] else []
  stalled : ∀ (id : Nat) (f : Flight) producer, l.inFlight[id]? = some f →
    f.state = .stalled producer →
    l.slots .decode = some id ∧ producer < id ∧
      (l.slots .execute = some producer ∨ l.slots .memory = some producer ∨
        l.slots .writeBack = some producer)
  released : ∀ (id : Nat) (f : Flight) producer g, l.inFlight[id]? = some f →
    f.state = .stalled producer →
    l.completedIn? .writeBack = some (producer, g) → l.retire.inFlight[id]? = some f.complete
  single : l.pipelined = false → ∀ id other, id ∈ l.inFlight → other ∈ l.inFlight → id = other

namespace Represents

open Pipeline

variable {p : Pipeline} {l : Ledger} (h : Represents p l)

include h

theorem exists_slot {stage : Stage} {id : Nat} (hid : l.slots stage = some id) :
    ∃ f, p.slots.slot stage = some f ∧ f.id = id ∧ l.inFlight[id]? = some f := by
  rw [h.slots_eq] at hid
  obtain ⟨f, hf, rfl⟩ := Option.map_eq_some_iff.mp hid
  exact ⟨f, hf, rfl, (h.lookup hf).2⟩

theorem mem_inFlight_iff (id : Nat) : id ∈ l.inFlight ↔ ∃ stage ∈ Stage.pipeline,
    l.slots stage = some id := by
  rw [Std.TreeMap.mem_iff_isSome_getElem?, Option.isSome_iff_exists]
  constructor
  · rintro ⟨f, hf⟩
    obtain ⟨rfl, stage, hslot⟩ := (h.flight_iff id f).mp hf
    have hplace : stage ∈ Stage.pipeline := by
      cases stage <;> first | decide | cases hslot
    exact ⟨stage, hplace, (h.lookup hslot).1⟩
  · rintro ⟨stage, -, hid⟩
    obtain ⟨f, -, -, hf⟩ := h.exists_slot hid
    exact ⟨f, hf⟩

variable (hwell : WellFormed p)

include hwell

theorem stalled_ahead {id producer : Nat} {f : Flight} (hf : l.inFlight[id]? = some f)
    (hstate : f.state = .stalled producer) : l.slots .decode = some id ∧ producer < id ∧
      (l.slots .execute = some producer ∨ l.slots .memory = some producer ∨
        l.slots .writeBack = some producer) := by
  obtain ⟨rfl, stage, hslot⟩ := (h.flight_iff id f).mp hf
  obtain ⟨hstage, -, ⟨g, hg, rfl⟩, -⟩ := (hwell.fits hslot).stalled producer hstate
  obtain rfl : stage = .decode := (hwell.inPlace stage f hslot).symm.trans hstage
  refine ⟨(h.lookup hslot).1, ?_⟩
  have hahead (other : Stage) (hg : p.slots.slot other = some g)
      (horder : Stage.decode.order < other.order) :
      g.id < f.id ∧ l.slots other = some g.id := ⟨hwell.id_lt hslot hg horder, (h.lookup hg).1⟩
  simp only [Slots.older, List.mem_append, Option.mem_toList] at hg
  rcases hg with (hexecute | hmemory) | hwriteBack
  · obtain ⟨hlt, hnumber⟩ := hahead .execute hexecute (by decide)
    exact ⟨hlt, .inl hnumber⟩
  · obtain ⟨hlt, hnumber⟩ := hahead .memory hmemory (by decide)
    exact ⟨hlt, .inr (.inl hnumber)⟩
  · obtain ⟨hlt, hnumber⟩ := hahead .writeBack hwriteBack (by decide)
    exact ⟨hlt, .inr (.inr hnumber)⟩

theorem consistent : l.Consistent := by
  refine ⟨?_, h.mem_inFlight_iff, ?_, ?_, ?_, ?_⟩
  · intro stage later id older horder hid holder
    obtain ⟨f, hf, rfl, -⟩ := h.exists_slot hid
    obtain ⟨g, hg, rfl, -⟩ := h.exists_slot holder
    exact hwell.id_lt hf hg horder
  · intro stage id f hid hlookup
    obtain ⟨g, hg, rfl, hfound⟩ := h.exists_slot hid
    obtain rfl := Option.some.inj (hfound.symm.trans hlookup)
    have hstage := hwell.inPlace stage g hg
    have hdone := (hwell.fits hg).stagesDone_eq
    rw [hstage] at hdone
    exact ⟨rfl, hstage, hdone⟩
  · intro id f producer hf hstate
    exact h.stalled_ahead hwell hf hstate
  · intro id f producer g hf hstate hlast
    obtain ⟨-, hlt, -⟩ := h.stalled_ahead hwell hf hstate
    simp only [Ledger.retire, hlast, Ledger.wake]
    rw [Std.TreeMap.getElem?_map, Std.TreeMap.getElem?_erase, if_neg, hf, Option.map_some,
      wakeIf_of_stalled hstate]
    simp only [Std.compare_eq_iff_eq]
    omega
  · intro hserial id other hid hother
    obtain ⟨stage, -, hid⟩ := (h.mem_inFlight_iff id).mp hid
    obtain ⟨stage', -, hother⟩ := (h.mem_inFlight_iff other).mp hother
    obtain ⟨f, hf, rfl, -⟩ := h.exists_slot hid
    obtain ⟨g, hg, rfl, -⟩ := h.exists_slot hother
    have hlength := hwell.single ((congrArg Pipeline.pipelined h.run_eq).symm.trans hserial)
    have hbounds := hwell.row.id_bounds (Slots.mem_flights.mpr ⟨stage, hf⟩)
    have hbounds' := hwell.row.id_bounds (Slots.mem_flights.mpr ⟨stage', hg⟩)
    omega

end Represents

-- Every run of a ledger is one of the pipeline that it stands for, and its slots and flights are
-- consistent after each cycle, also after one that fails.
theorem Ledger.consistent_of_alongside {σ : Type} [Storage σ] {p : Pipeline} {l : Ledger}
    (h : Alongside σ p l) :
    l.Consistent ∧ Represents p l ∧ ∀ context : Context σ,
      (l.step context).1 = (p.step context).1 ∧ (l.step context).2.2 = (p.step context).2.2 := by
  have hwell := h.reachable.wellFormed
  have hrepresents := h.represents
  exact ⟨hrepresents.consistent hwell, hrepresents,
    fun context => (hrepresents.step hwell context).2⟩

-- One addition waits in Decode for another one to the same register.
theorem Ledger.consistent_of_additions :
    ∃ p l, Alongside MainMemory p l ∧ l.Consistent ∧ l.slots .decode = some 1 ∧
    l.slots .memory = some 0 ∧
      l.inFlight[1]?.map Flight.state = some (.stalled 0) := by
  let context : Context MainMemory := ⟨{}, .empty 1 1,
    (MainMemory.zeroed 1 0 (by decide)).put 0
      (Instruction.encode (.scalarImmediate false .add 0 0 1))⟩
  have hrun := (((Alongside.start true).step context).step context).step context
  exact ⟨_, _, hrun, (consistent_of_alongside hrun).1, by decide +kernel,
    by decide +kernel, by decide +kernel⟩

end PipelinedProcessor
