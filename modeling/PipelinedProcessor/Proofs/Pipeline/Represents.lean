import PipelinedProcessor.Proofs.Pipeline.Hazards
import PipelinedProcessor.Proofs.Pipeline.Ledger

namespace PipelinedProcessor

-- The same instructions in the same stages, under their numbers.
structure Represents (p : Pipeline) (l : Ledger) : Prop where
  run_eq : l.run = { p with slots := {} }
  slots_eq : ∀ stage, l.slots stage = (p.slots.slot stage).map Flight.id
  flight_iff : ∀ id f, l.inFlight[id]? = some f ↔ f.id = id ∧ ∃ stage, p.slots.slot stage = some f

namespace Pipeline.WellFormed

variable {p : Pipeline} (h : WellFormed p) {stage : Stage} {f : Flight}

include h

theorem raw_ne_halt (hf : p.slots.slot stage = some f) : f.raw ≠ some Word.halt := by
  have hfits := h.fits hf
  by_cases hprogress : f.progress = 0
  · rw [hfits.blank hprogress]
    intro heq
    cases heq
  · obtain ⟨w, hw, hne⟩ := hfits.fetched (by omega)
    rw [hw]
    exact fun heq => hne (Option.some.inj heq)

end Pipeline.WellFormed

-- Who depends on whom does not hang on the order in which the others are found.
theorem Flight.producer?_congr {f : Flight} {others others' : List Flight}
    (h : ∀ g, g.id < f.id → (g ∈ others ↔ g ∈ others')) :
    f.producer? others = f.producer? others' := by
  have hmem (id : Nat) :
      id ∈ (others.filter fun older => older.id < f.id && f.dependsOn older).map Flight.id ↔
      id ∈ (others'.filter fun older => older.id < f.id && f.dependsOn older).map Flight.id := by
    simp only [List.mem_map, List.mem_filter, Bool.and_eq_true, decide_eq_true_eq]
    refine exists_congr fun g => and_congr_left fun _ => and_congr_left fun hg => h g hg.1
  refine Option.ext fun id => ?_
  simp only [producer?, List.max?_eq_some_iff, hmem]

theorem Flight.decode_congr (f : Flight) {others others' : List Flight}
    (h : ∀ g, g.id < f.id → (g ∈ others ↔ g ∈ others')) : f.decode others = f.decode others' := by
  have hsettle (f' : Flight) (hid : f'.id = f.id) : f'.settle others = f'.settle others' := by
    unfold settle
    rw [producer?_congr fun g hg => h g (hid ▸ hg)]
  unfold decode
  split
  · exact hsettle f rfl
  · rfl
  · exact hsettle _ rfl

namespace Represents

open Pipeline Flight

variable {p p' : Pipeline} {l l' : Ledger} {f f' : Flight} {stage first second : Stage}

theorem lookup (h : Represents p l) (hf : p.slots.slot stage = some f) :
    l.slots stage = some f.id ∧ l.inFlight[f.id]? = some f := by
  refine ⟨?_, (h.flight_iff f.id f).mpr ⟨rfl, stage, hf⟩⟩
  rw [h.slots_eq, hf]
  rfl

-- A flight stays, goes on to another stage or leaves for good.
theorem update (h : Represents p l) (hwell : WellFormed p) (hf : p.slots.slot first = some f)
    {next : Option Flight} (hid : ∀ f', next = some f' → f'.id = f.id)
    (hrun : l'.run = { p' with slots := {} }) (hslots : ∀ other, p'.slots.slot other =
      if other = second then next else if other = first then none else p.slots.slot other)
    (hfree : second = first ∨ p.slots.slot second = none)
    (hnumbers : ∀ other, l'.slots other =
      if other = second then next.map Flight.id else if other = first then none else l.slots other)
    (hlookup : ∀ id, l'.inFlight[id]? = if f.id = id then next else l.inFlight[id]?) :
    Represents p' l' := by
  refine ⟨hrun, ?_, ?_⟩
  · intro other
    rw [hnumbers, hslots]
    split
    · rfl
    · split
      · rfl
      · exact h.slots_eq other
  · intro id g
    rw [hlookup]
    split
    · rename_i hsame
      subst hsame
      constructor
      · intro hg
        exact ⟨hid g hg, second, by rw [hslots, if_pos rfl, hg]⟩
      · rintro ⟨hgid, other, hg⟩
        rw [hslots] at hg
        split at hg
        · exact hg
        · split at hg
          · cases hg
          · rename_i hother
            exact absurd (hwell.stage_of_id hf hg hgid) hother
    · rename_i hne
      rw [h.flight_iff]
      refine and_congr_right fun hgid => ?_
      have hother {other : Stage} (hg : p.slots.slot other = some g) : other ≠ first := by
        rintro rfl
        obtain rfl := Option.some.inj (hf.symm.trans hg)
        exact hne hgid
      constructor
      · rintro ⟨other, hg⟩
        refine ⟨other, ?_⟩
        have hsecond : other ≠ second := by
          rintro rfl
          rcases hfree with heq | hnone
          · exact hother hg heq
          · rw [hnone] at hg
            cases hg
        rw [hslots, if_neg hsecond, if_neg (hother hg)]
        exact hg
      · rintro ⟨other, hg⟩
        rw [hslots] at hg
        split at hg
        · exact absurd ((hid g hg).symm.trans hgid) hne
        · split at hg
          · cases hg
          · exact ⟨other, hg⟩

theorem replace (h : Represents p l) (hwell : WellFormed p) (hf : p.slots.slot stage = some f)
    (hid : f'.id = f.id) (hrun : l'.run = { p' with slots := {} })
    (hslots : p'.slots = p.slots.put stage (some f')) (hnumbers : l'.slots = l.slots)
    (hlookup : l'.inFlight = (l.inFlight.erase f.id).insert f.id f') :
    Represents p' l' := by
  have hplace : stage ≠ .system := by
    rintro rfl
    cases hf
  have hslots' : ∀ other, p'.slots.slot other =
      if other = stage then some f' else if other = stage then none else p.slots.slot other := by
    intro other
    rw [hslots, Slots.slot_put _ stage hplace]
    split <;> rfl
  have hnumbers' : ∀ other, l'.slots other =
      if other = stage then (some f').map Flight.id else if other = stage then none
      else l.slots other := by
    intro other
    rw [hnumbers]
    split
    · rename_i heq
      rw [heq, (h.lookup hf).1, Option.map_some, hid]
    · rfl
  refine h.update hwell hf (fun g hg => Option.some.inj hg ▸ hid) hrun hslots'
    (.inl rfl) hnumbers' ?_
  intro id
  rw [hlookup, Std.TreeMap.getElem?_insert, Std.TreeMap.getElem?_erase]
  simp only [Std.compare_eq_iff_eq]
  split <;> rfl

theorem remove (h : Represents p l) (hwell : WellFormed p) (hf : p.slots.slot stage = some f)
    (hrun : l'.run = { p' with slots := {} }) (hslots : p'.slots = p.slots.put stage none)
    (hnumbers : l'.slots = (l.put stage none).slots)
    (hlookup : l'.inFlight = l.inFlight.erase f.id) :
    Represents p' l' := by
  have hplace : stage ≠ .system := by
    rintro rfl
    cases hf
  have hslots' : ∀ other, p'.slots.slot other =
      if other = stage then none else if other = stage then none else p.slots.slot other := by
    intro other
    rw [hslots, Slots.slot_put _ stage hplace]
    split <;> rfl
  have hnumbers' : ∀ other, l'.slots other = if other = stage
      then (none : Option Flight).map Flight.id
      else if other = stage then none else l.slots other := by
    intro other
    rw [hnumbers]
    show (if other = stage then none else l.slots other) = _
    split <;> rfl
  refine h.update hwell hf (fun g hg => by cases hg) hrun hslots' (.inl rfl) hnumbers' ?_
  intro id
  rw [hlookup, Std.TreeMap.getElem?_erase]
  simp only [Std.compare_eq_iff_eq]

theorem wake (h : Represents p l) (producer : Nat) :
    Represents { p with slots := p.slots.map (wakeIf producer) } (l.wake producer) := by
  have hid (f : Flight) : (wakeIf producer f).id = f.id := (sameFace_wakeIf producer f).id_eq
  refine ⟨h.run_eq, ?_, ?_⟩
  · intro stage
    rw [Slots.slot_map, Option.map_map]
    exact (h.slots_eq stage).trans (congrArg (Option.map · _) (funext fun f => (hid f).symm))
  · intro id g
    show (l.inFlight.map _)[id]? = some g ↔ _
    rw [Std.TreeMap.getElem?_map]
    simp only [Slots.slot_map, Option.map_eq_some_iff, h.flight_iff]
    constructor
    · rintro ⟨f, ⟨hf, stage, hslot⟩, rfl⟩
      exact ⟨(hid f).trans hf, stage, f, hslot, rfl⟩
    · rintro ⟨hg, stage, f, hslot, rfl⟩
      exact ⟨f, ⟨(hid f).symm.trans hg, stage, hslot⟩, rfl⟩

-- All but the one that is taken out are found.
theorem mem_flights_erase (h : Represents p l) (g : Flight)
    (hlt : g.id < f.id) : g ∈ { l with inFlight := l.inFlight.erase f.id }.flights ↔
    g ∈ p.slots.flights := by
  have hlookup : (l.inFlight.erase f.id)[g.id]? = l.inFlight[g.id]? := by
    rw [Std.TreeMap.getElem?_erase, if_neg]
    simp only [Std.compare_eq_iff_eq]
    omega
  rw [Slots.mem_flights, Ledger.flights, List.mem_map]
  constructor
  · rintro ⟨⟨id, g⟩, hmem, rfl⟩
    rw [Std.TreeMap.mem_toList_iff_getElem?_eq_some, Std.TreeMap.getElem?_erase] at hmem
    split at hmem
    · cases hmem
    · exact ((h.flight_iff id g).mp hmem).2
  · rintro ⟨other, hg⟩
    refine ⟨(g.id, g), ?_, rfl⟩
    rw [Std.TreeMap.mem_toList_iff_getElem?_eq_some, hlookup]
    exact (h.lookup hg).2

theorem isEmpty_eq (h : Represents p l) : l.inFlight.isEmpty = p.slots.isEmpty := by
  rw [Bool.eq_iff_iff, Std.TreeMap.isEmpty_iff_forall_not_mem, Slots.isEmpty, List.isEmpty_iff,
    List.eq_nil_iff_forall_not_mem]
  constructor
  · intro hnone f hf
    obtain ⟨stage, hslot⟩ := Slots.mem_flights.mp hf
    apply hnone f.id
    rw [Std.TreeMap.mem_iff_isSome_getElem?, (h.lookup hslot).2]
    rfl
  · intro hnone id hid
    rw [Std.TreeMap.mem_iff_isSome_getElem?] at hid
    obtain ⟨f, hf⟩ := Option.isSome_iff_exists.mp hid
    obtain ⟨-, stage, hslot⟩ := (h.flight_iff id f).mp hf
    exact hnone f (Slots.mem_flights.mpr ⟨stage, hslot⟩)

theorem completedIn?_eq (h : Represents p l) (stage : Stage) :
    l.completedIn? stage = ((p.slots.slot stage).filter (·.state = .completed)).map fun f =>
      (f.id, f) := by
  unfold Ledger.completedIn?
  cases hf : p.slots.slot stage with
  | none =>
      rw [h.slots_eq, hf]
      rfl
  | some f =>
      obtain ⟨hnumber, hlookup⟩ := h.lookup hf
      rw [hnumber, Option.bind_some, hlookup, Option.filter_some]
      split <;> rfl

theorem retire (h : Represents p l) (hwell : WellFormed p) : Represents p.retire l.retire := by
  have hcompleted := h.completedIn?_eq .writeBack
  unfold Ledger.retire
  rcases in_state_or_not (p.slots.slot .writeBack) .completed with ⟨f, hf, hstate⟩ | hunfinished
  · rw [hf, Option.filter_some, if_pos (by simpa using hstate), Option.map_some] at hcompleted
    rw [retire_of_completed hf hstate, hcompleted]
    have hremoved :
        Represents { p with slots := p.slots.put .writeBack none, retired := p.retired + 1 }
        { l.put .writeBack none with
          inFlight := l.inFlight.erase f.id
          retired := l.retired + 1 } :=
      h.remove hwell hf
        (congrArg (fun q : Pipeline => { q with retired := q.retired + 1 }) h.run_eq) rfl rfl rfl
    exact hremoved.wake f.id
  · rw [retire_of_unfinished hunfinished]
    have hnone : l.completedIn? .writeBack = none := by
      rw [hcompleted, Option.map_eq_none_iff, Option.filter_eq_none_iff]
      intro f hf
      simpa using hunfinished f hf
    rw [hnone]
    exact h

theorem passOn (h : Represents p l) (hwell : WellFormed p) (first second : Stage)
    (hplace : second ≠ .system) :
    Represents { p with slots := p.slots.pass first second } (l.passOn first second) := by
  have hcompleted := h.completedIn?_eq first
  have hsecond := h.slots_eq second
  unfold Ledger.passOn
  by_cases hmoves : ∃ f, p.slots.slot first = some f ∧ p.slots.slot second = none ∧
    f.state = .completed
  · obtain ⟨f, hf, hfree, hstate⟩ := hmoves
    rw [hf, Option.filter_some, if_pos (by simpa using hstate), Option.map_some] at hcompleted
    rw [hfree] at hsecond
    have hfirst : first ≠ .system := by
      rintro rfl
      cases hf
    have hslots : ∀ other, (p.slots.pass first second).slot other =
        if other = second then some (f.enter second) else if other = first then none
        else p.slots.slot other := by
      intro other
      simp only [Slots.pass, Pipeline.passOn, hf, hfree, if_pos hstate]
      rw [Slots.slot_put _ second hplace, Slots.slot_put _ first hfirst]
    have hid : ∀ f', some (f.enter second) = some f' → f'.id = f.id := by
      intro f' hf'
      obtain rfl := Option.some.inj hf'
      rfl
    simp only [hsecond, hcompleted, Option.map_none]
    refine h.update hwell hf hid h.run_eq hslots (.inr hfree) (fun other => rfl) ?_
    intro id
    rw [Std.TreeMap.getElem?_insert]
    simp only [Std.compare_eq_iff_eq]
  · have hsame : p.slots.pass first second = p.slots := by
      refine (p.slots.pass_cases first second).resolve_right ?_
      rintro ⟨f, hf, hfree, hstate, -⟩
      exact hmoves ⟨f, hf, hfree, hstate⟩
    rw [hsame]
    split
    · rename_i id f hnumber hsome
      rw [hcompleted] at hsome
      obtain ⟨g, hg, -⟩ := Option.map_eq_some_iff.mp hsome
      rw [Option.filter_eq_some_iff] at hg
      have hfree := Option.map_eq_none_iff.mp (hsecond.symm.trans hnumber)
      exact absurd ⟨g, hg.1, hfree, by simpa using hg.2⟩ hmoves
    · exact h

theorem advance (h : Represents p l) (hwell : WellFormed p) : Represents p.advance l.advance := by
  have hretire := hwell.retire
  have hmemory := (h.retire hwell).passOn hretire .memory .writeBack (by decide)
  have hwell₁ := hretire.move .memory .writeBack rfl (by decide)
  have hexecute := hmemory.passOn hwell₁ .execute .memory (by decide)
  have hwell₂ := hwell₁.move .execute .memory rfl (by decide)
  have hdecode := hexecute.passOn hwell₂ .decode .execute (by decide)
  have hwell₃ := hwell₂.move .decode .execute rfl (by decide)
  exact hdecode.passOn hwell₃ .fetch .decode (by decide)

-- A number that was not given yet is in no slot.
theorem enterNew (h : Represents p l)
    (hnew : ∀ stage f, p.slots.slot stage = some f → f.id ≠ p.nextId)
    (hfree : p.slots.slot .fetch = none) :
    Represents
      { p with slots := p.slots.put .fetch (some { id := p.nextId }), nextId := p.nextId + 1 }
      { l.put .fetch (some l.nextId) with
        inFlight := l.inFlight.insert l.nextId { id := l.nextId }
        nextId := l.nextId + 1 } := by
  have hnext : l.nextId = p.nextId := congrArg Pipeline.nextId h.run_eq
  have hslot (other : Stage) : (p.slots.put .fetch (some { id := p.nextId })).slot other =
      if other = .fetch then some { id := p.nextId } else p.slots.slot other :=
        p.slots.slot_put .fetch (by decide) _ other
  refine ⟨congrArg (fun q : Pipeline => { q with nextId := q.nextId + 1 }) h.run_eq, ?_, ?_⟩
  · intro other
    rw [hslot]
    show (if other = .fetch then some l.nextId else l.slots other) = _
    split
    · exact congrArg some hnext
    · exact h.slots_eq other
  · intro id g
    show (l.inFlight.insert l.nextId { id := l.nextId })[id]? = some g ↔ _
    rw [Std.TreeMap.getElem?_insert, hnext]
    simp only [Std.compare_eq_iff_eq, hslot]
    split
    · rename_i hsame
      subst hsame
      constructor
      · intro hg
        obtain rfl := Option.some.inj hg
        exact ⟨rfl, .fetch, if_pos rfl⟩
      · rintro ⟨hgid, other, hg⟩
        split at hg
        · exact hg
        · exact absurd hgid (hnew other g hg)
    · rename_i hne
      rw [h.flight_iff]
      refine and_congr_right fun hgid => ?_
      constructor
      · rintro ⟨other, hg⟩
        refine ⟨other, ?_⟩
        rw [if_neg]
        · exact hg
        · rintro rfl
          rw [hfree] at hg
          cases hg
      · rintro ⟨other, hg⟩
        split at hg
        · obtain rfl := Option.some.inj hg
          exact absurd hgid hne
        · exact ⟨other, hg⟩

theorem takeIn (h : Represents p l) (hwell : WellFormed p) : Represents p.takeIn l.takeIn := by
  have hheld : (l.haltId.isSome || (l.slots .fetch).isSome ||
      if l.pipelined then l.openBranch.isSome else !l.inFlight.isEmpty) =
      (p.haltId.isSome || p.slots.fetch.isSome || if p.pipelined then p.openBranch.isSome
        else !p.slots.isEmpty) := by
    have hhalts : l.haltId = p.haltId := congrArg Pipeline.haltId h.run_eq
    have hmode : l.pipelined = p.pipelined := congrArg Pipeline.pipelined h.run_eq
    have hopen : l.openBranch = p.openBranch := congrArg Pipeline.openBranch h.run_eq
    rw [hhalts, hmode, hopen, h.isEmpty_eq, h.slots_eq .fetch, Option.isSome_map]
    rfl
  simp only [Ledger.takeIn, Pipeline.takeIn, hheld]
  by_cases hstays : (p.haltId.isSome || p.slots.fetch.isSome ||
      if p.pipelined then p.openBranch.isSome else !p.slots.isEmpty) = true
  · rw [if_pos hstays, if_pos hstays]
    exact h
  · rw [if_neg hstays, if_neg hstays]
    have hfree : p.slots.slot .fetch = none := by
      cases hfetch : p.slots.slot .fetch with
      | none => rfl
      | some f =>
          simp only [Slots.slot] at hfetch
          simp [hfetch] at hstays
    refine h.enterNew ?_ hfree
    intro stage f hf heq
    have hbounds := hwell.row.id_bounds (Slots.mem_flights.mpr ⟨stage, hf⟩)
    have hnext := hwell.nextId_eq
    omega

end Represents

end PipelinedProcessor
