import PipelinedProcessor.Proofs.Flight.Confined
import PipelinedProcessor.Proofs.Pipeline.EachFlight

namespace PipelinedProcessor

open Flight

-- A word of the kind of branches is a branch or means nothing.
theorem Instruction.work_of_branchKind {w : Word} (hkind : w.kind = Word.branchKind) {address : Nat}
    {registers : Registers} {vectors : VectorRegisters} {work : Work}
    (hwork : (ofWord w).work address registers vectors = .ok work) :
    work = .nothing ∨ ∃ cond target back, work = .action (.branch cond target back) := by
  unfold ofWord at hwork
  split at hwork
  · exact .inl (Except.ok.inj hwork).symm
  · rw [hkind] at hwork
    simp only [ofKind?, Word.branchKind] at hwork
    cases hcond : Condition.ofCode? (w.field 28 4) with
    | none =>
        rw [hcond] at hwork
        exact .inl (Except.ok.inj hwork).symm
    | some cond =>
        rw [hcond] at hwork
        obtain ⟨target, back, hbranch, -⟩ := work_of_branch hwork
        exact .inr ⟨cond, target, back, hbranch⟩

namespace Flight

-- An instruction of that kind has nothing to do but to branch, and writes nothing but the link.
def Branching (f : Flight) : Prop :=
  f.raw.any (·.kind = Word.branchKind) = true → f.Names [.scalar Register.link] ∧
    ∀ action, f.action = some action → ∃ cond target back, action = .branch cond target back

theorem branching_of_idle {f : Flight} (haction : f.action = none) (hresults : f.results = []) :
    f.Branching := by
  intro _
  refine ⟨⟨?_, ?_⟩, ?_⟩
  · simp [haction]
  · simp [hresults]
  · simp [haction]

theorem Branching.of_same {f f' : Flight} (h : f.Branching) (hraw : f'.raw = f.raw)
    (haction : f'.action = f.action) (hresults : f'.results = f.results ∨ f'.results = []) :
    f'.Branching := by
  intro hkind
  obtain ⟨hnames, hbranch⟩ := h (hraw ▸ hkind)
  refine ⟨⟨haction ▸ hnames.action, ?_⟩, haction ▸ hbranch⟩
  rcases hresults with hsame | hnone
  · rw [hsame]
    exact hnames.results
  · simp [hnone]

theorem branching_of_execute {retired : Nat} {older : List Flight} {f f' : Flight}
    {registers : Registers} {vectors : VectorRegisters} (h : f.Fits retired older)
    (hstage : f.stage = .execute) (hready : f.state = .ready)
    (hresult : f.execute registers vectors = .ok f') : f'.Branching := by
  have hp : f.progress = 4 := progress_of_ready hready hstage
  obtain ⟨haction, hresults⟩ := h.idle (by omega)
  obtain ⟨⟨w, hw, hinstr, -⟩, -⟩ := h.settled (by omega)
  rw [execute_of_known hinstr] at hresult
  obtain ⟨work, hwork, rfl⟩ := ok_of_map hresult
  intro hkind
  have hbranch : w.kind = Word.branchKind := by
    have hraw : (f.take work).complete.raw = some w := (f.take_face work).2.1.trans hw
    simpa [hraw] using hkind
  rcases Instruction.work_of_branchKind hbranch hwork with rfl | ⟨cond, target, back, rfl⟩
  · exact branching_of_idle (f := (f.take .nothing).complete) haction hresults hkind
  · refine ⟨⟨?_, ?_⟩, ?_⟩
    · intro action heq
      obtain rfl := Option.some.inj heq
      exact fun _ => List.mem_singleton_self _
    · intro write hwrite
      replace hwrite : write ∈ f.results := hwrite
      rw [hresults] at hwrite
      cases hwrite
    · intro action heq
      exact ⟨cond, target, back, (Option.some.inj heq).symm⟩

section

variable {σ : Type} [Storage σ]

-- It never waits in Memory Access and never fails there.
theorem Branching.completes {f : Flight} (h : f.Branching)
    (hkind : f.raw.any (·.kind = Word.branchKind) = true) (context : Context σ) :
    (f.access context).1 = none ∧ (f.access context).2.1.state = .completed ∧
      (f.access context).2.1.action = f.action := by
  cases haction : f.action with
  | none =>
      rw [access_of_none haction]
      exact ⟨rfl, rfl, haction⟩
  | some action =>
      obtain ⟨cond, target, back, rfl⟩ := (h hkind).2 action haction
      obtain ⟨writes, after, hadvance⟩ : ∃ writes after,
          (Action.branch cond target back).advance context =
          (.finished writes, .branch cond target back, after) := by
        simp only [Action.advance]
        split <;> exact ⟨_, _, rfl⟩
      rw [access_of_finished haction hadvance]
      exact ⟨rfl, rfl, rfl⟩

theorem lasting_branching : Pipeline.Lasting σ 0 Branching where
  fresh _ _ := branching_of_idle rfl rfl
  fetch {_ _ f} hfits hstage hready _ context := by
    have hp : f.progress = 0 := progress_of_ready hready hstage
    obtain ⟨haction, hresults⟩ := hfits.idle (by omega)
    rcases hread :
      Storage.read context.memory .fetch (f.target context.registers) with ⟨answer, memory⟩
    cases answer with
    | wait =>
        rw [fetch_of_wait hread]
        exact branching_of_idle haction hresults
    | done w =>
        rw [fetch_of_done hread]
        exact branching_of_idle haction hresults
  decode {f} others h := by
    obtain ⟨haction, hresults⟩ := f.decode_idle others
    exact h.of_same (f.decode_same others).2.2 haction (.inl hresults)
  execute hfits hstage hready hresult _ := branching_of_execute hfits hstage hready hresult
  access {f} h context := by
    intro hkind
    rw [raw_access] at hkind
    rcases haccess : f.access context with ⟨fault, f', after⟩
    obtain ⟨-, -, haction⟩ := h.completes hkind context
    rw [haccess] at haction
    exact ⟨(h hkind).1.access haccess, haction ▸ (h hkind).2⟩
  commit h _ := h.of_same rfl rfl (.inr rfl)
  complete h := h.of_same rfl rfl (.inl rfl)
  enter _ h := h.of_same rfl rfl (.inl rfl)

end

end Flight

-- Fetched as a branch, and not through Memory Access.
def Flight.Unresolved (f : Flight) : Prop :=
  (∃ w, f.raw = some w ∧ w.kind = Word.branchKind) ∧ .memory ∉ f.stagesDone

theorem Flight.Fits.unresolved_iff {retired : Nat} {older : List Flight} {f : Flight}
    (h : f.Fits retired older) :
    f.Unresolved ↔ f.raw.any (·.kind = Word.branchKind) = true ∧ f.progress < 7 := by
  have hdone : .memory ∈ f.stagesDone ↔ 6 < f.progress := h.done_iff .memory nofun
  simp only [Unresolved, Option.any_eq_true, decide_eq_true_eq, hdone]
  exact and_congr .rfl (by omega)

namespace Pipeline

-- A branch that is open is the last that came in.
def LastOpen (p : Pipeline) : Prop := ∀ b, p.openBranch = some b → p.nextId = b + 1

theorem LastOpen.of_entry {p q : Pipeline} (h : p.LastOpen) (hsame : SameEntry p q) :
    q.LastOpen := by
  intro b hb
  rw [hsame.nextId_eq]
  exact h b (hsame.openBranch_eq ▸ hb)

namespace WellFormed

variable {p : Pipeline} (h : WellFormed p)

include h

-- What `openBranch` says of the flights.
theorem unresolved (hlast : p.LastOpen) {f : Flight} (hf : f ∈ p.slots.flights)
    (hopen : f.Unresolved) :
    (∀ g ∈ p.slots.flights, g = f ∨ g.id < f.id) ∧ p.nextId = f.id + 1 ∧
    p.openBranch = some f.id := by
  obtain ⟨stage, hslot⟩ := Slots.mem_flights.mp hf
  obtain ⟨hkind, hprogress⟩ := (h.fits hslot).unresolved_iff.mp hopen
  have hnamed := h.branch.unresolved f hf hkind hprogress
  have hnext := hlast f.id hnamed
  refine ⟨?_, hnext, hnamed⟩
  intro g hg
  obtain ⟨other, hother⟩ := Slots.mem_flights.mp hg
  by_cases hid : g.id = f.id
  · left
    obtain rfl := h.stage_of_id hslot hother hid
    exact Option.some.inj (hother.symm.trans hslot)
  · right
    have hbounds := h.row.id_bounds hg
    have hcount := h.nextId_eq
    omega

theorem opened {b : Nat} (hb : p.openBranch = some b) :
    ∃ f ∈ p.slots.flights, f.id = b ∧ f.Unresolved := by
  obtain ⟨f, hf, hid, hkind, -, hprogress⟩ := h.branch.flying b hb
  obtain ⟨stage, hslot⟩ := Slots.mem_flights.mp hf
  exact ⟨f, hf, hid, (h.fits hslot).unresolved_iff.mpr ⟨hkind, hprogress⟩⟩

end WellFormed

section

variable {σ : Type} {p : Pipeline} {b : Nat}

theorem openBranch_takeIn (p : Pipeline) : p.takeIn.openBranch = p.openBranch := by
  rcases p.takeIn_cases with hsame | ⟨-, -, -, htaken⟩
  · rw [hsame]
  · rw [htaken]

variable [Storage σ]

-- Fetch opens no branch but that of the one in it, and none while another is open.
theorem openBranch_fetchStage (hwell : WellFormed p) (context : Context σ) :
    (p.fetchStage context).1.openBranch = p.openBranch ∨ p.openBranch = none ∧
      ∃ f, p.slots.slot .fetch = some f ∧ (p.fetchStage context).1.openBranch = some f.id := by
  rcases in_state_or_not (p.slots.slot .fetch) .ready with ⟨f, hf, hready⟩ | hidle
  · have hclosed := hwell.fetching f hf hready
    rcases hread :
      Storage.read context.memory .fetch (f.target context.registers) with ⟨answer, memory⟩
    cases answer with
    | wait =>
        have hblank := (hwell.fits hf).blank (hwell.progress_of_ready hf hready)
        rw [fetchStage_of_wait hf hready hblank hread]
        exact .inl rfl
    | done w =>
        by_cases hhalt : w = Word.halt
        · subst hhalt
          rw [fetchStage_of_halt hf hready hread]
          exact .inl rfl
        · rw [fetchStage_of_word hf hready hhalt hread]
          by_cases hkind : w.kind = Word.branchKind
          · exact .inr ⟨hclosed, f, hf, if_pos hkind⟩
          · exact .inl (if_neg hkind)
  · rw [fetchStage_of_idle hidle]
    exact .inl rfl

-- Memory Access closes no branch but that of the one in it.
theorem openBranch_accessStage (p : Pipeline) (context : Context σ) :
    (p.accessStage context).2.1.openBranch = p.openBranch ∨
    (p.accessStage context).2.1.openBranch = none ∧
      ∃ f, p.slots.slot .memory = some f ∧ p.openBranch = some f.id := by
  rcases in_state_or_not (p.slots.slot .memory) .ready with ⟨f, hf, hready⟩ | hidle
  · have hid : (f.access context).2.1.id = f.id := (f.grows_access context).id_eq
    rcases haccess : f.access context with ⟨fault, f', after⟩
    rw [haccess] at hid
    rw [accessStage_of_ready hf hready haccess]
    by_cases hdecided : f'.state = .completed ∧ p.openBranch = some f'.id
    · exact .inr ⟨if_pos hdecided, f, hf, hdecided.2.trans (congrArg some hid)⟩
    · exact .inl (if_neg hdecided)
  · rw [accessStage_of_idle hidle]
    exact .inl rfl

theorem lastOpen_kept : Kept fun p (_ : Context σ) => WellFormed p ∧ p.LastOpen where
  counts _ clock running h := ⟨h.1.of_counts clock _ running, h.2⟩
  commitStage {p context} h :=
    ⟨h.1.commitStage context, h.2.of_entry ((p.commitStage_works context).entry nofun nofun)⟩
  accessStage {p context} h := by
    refine ⟨h.1.accessStage context, ?_⟩
    intro b hb
    rw [(p.accessStage_works context).nextId_eq]
    rcases p.openBranch_accessStage context with hsame | ⟨hclosed, -⟩
    · exact h.2 b (hsame ▸ hb)
    · rw [hclosed] at hb
      cases hb
  executeStage {p p' context} h hresult :=
    ⟨h.1.executeStage hresult, h.2.of_entry ((p.executeStage_works hresult).entry nofun nofun)⟩
  decodeStage {p} _ h := ⟨h.1.decodeStage, h.2.of_entry (p.decodeStage_works.entry nofun nofun)⟩
  fetchStage {p context} h := by
    refine ⟨h.1.fetchStage context, ?_⟩
    intro b hb
    rw [(p.fetchStage_works context).nextId_eq]
    rcases openBranch_fetchStage h.1 context with hsame | ⟨-, f, hf, hopened⟩
    · exact h.2 b (hsame ▸ hb)
    · rw [h.1.nextId_of_fetch hf, Option.some.inj (hopened.symm.trans hb)]
  advance {p} _ h := ⟨h.1.advance, h.2.of_entry p.advance_entry⟩
  takeIn {p} _ h := by
    refine ⟨h.1.takeIn, ?_⟩
    intro b hb
    rw [p.openBranch_takeIn] at hb
    rcases p.takeIn_cases with hsame | ⟨-, -, hheld, -⟩
    · rw [hsame]
      exact h.2 b hb
    · rw [h.1.closed_of_takeIn hheld] at hb
      cases hb

-- A branch stays open as long as it is not in Memory Access.

theorem open_keptBehind (b : Nat) : KeptBehind fun p (_ : Context σ) => WellFormed p ∧
    p.openBranch = some b where
  counts _ clock running h := ⟨h.1.of_counts clock _ running, h.2⟩
  executeStage {p p' context} h hresult :=
    ⟨h.1.executeStage hresult, ((p.executeStage_works hresult).openBranch_eq nofun nofun).trans h.2⟩
  decodeStage {p} _ h :=
    ⟨h.1.decodeStage, (p.decodeStage_works.openBranch_eq nofun nofun).trans h.2⟩
  fetchStage {p context} h := by
    refine ⟨h.1.fetchStage context, ?_⟩
    rcases openBranch_fetchStage h.1 context with hsame | ⟨hclosed, -⟩
    · exact hsame.trans h.2
    · rw [h.2] at hclosed
      cases hclosed
  advance {p} _ h := ⟨h.1.advance, p.advance_entry.openBranch_eq.trans h.2⟩
  takeIn {p} _ h := ⟨h.1.takeIn, p.openBranch_takeIn.trans h.2⟩

theorem openBranch_accessed (p : Pipeline) (context : Context σ) (hb : p.openBranch = some b)
    (hother : ∀ f, p.slots.slot .memory = some f → f.id ≠ b) :
    (p.accessed context).2.1.openBranch = some b := by
  have hcommitted : (p.commitStage context).1.openBranch = some b :=
    ((p.commitStage_works context).openBranch_eq nofun nofun).trans hb
  rcases (p.commitStage context).1.openBranch_accessStage (p.commitStage context).2 with
    hsame | ⟨-, f, hf, hopen⟩
  · exact hsame.trans hcommitted
  · rw [(p.commitStage_works context).slot_eq .memory nofun] at hf
    exact absurd (Option.some.inj (hopen.symm.trans hcommitted)) (hother f hf)

theorem openBranch_step (hwell : WellFormed p) (context : Context σ) (hb : p.openBranch = some b)
    (hother : ∀ f, p.slots.slot .memory = some f → f.id ≠ b) :
    (p.step context).2.1.openBranch = some b := by
  by_cases hrunning : p.running = true
  · have hticked : WellFormed p.tick := hwell.of_counts (p.clock + 1) _ p.running
    refine ((open_keptBehind b).step_of_accessed hrunning ⟨?_, ?_⟩).2
    · exact (hticked.commitStage context).accessStage _
    · exact p.tick.openBranch_accessed context hb hother
  · rw [step_of_stopped (Bool.eq_false_iff.mpr hrunning)]
    exact hb

end

end Pipeline

end PipelinedProcessor
