import PipelinedProcessor.Proofs.Pipeline.Branches
import PipelinedProcessor.Proofs.Pipeline.InOrder

namespace PipelinedProcessor

open Flight

-- All that is still to be written is the link.
def Flight.OnlyLinks (f : Flight) : Prop :=
  ∀ write ∈ f.results, write.target = .scalar Register.link

theorem Flight.OnlyLinks.counter_commit {σ : Type} {f : Flight} (h : f.OnlyLinks)
    (context : Context σ) :
    (f.commit context).2.registers.counter = context.registers.counter := by
  refine Flight.counter_commit (f := f) (fun write hwrite => ?_) context
  rw [h write hwrite]
  decide

namespace Pipeline

-- At the end of a cycle whoever is in Fetch stays there or goes on to Decode.
theorem fetch_advance_cases {p : Pipeline} (hmoves : ∀ f, p.slots.slot .fetch = some f →
    ∀ j, f.state ≠ .stalled j) :
    p.advance.slots.slot .fetch = p.slots.slot .fetch ∨
      ∃ f, p.slots.slot .fetch = some f ∧ f.state = .completed ∧
      p.advance.slots.slot .fetch = none ∧
        p.advance.slots.slot .decode = some (f.enter .decode) := by
  have hretire : p.retire.slots.slot .fetch = p.slots.slot .fetch := by
    rcases in_state_or_not (p.slots.slot .writeBack) .completed with ⟨f, hf, hstate⟩ | hunfinished
    · rw [retire_of_completed hf hstate]
      show ((p.slots.put .writeBack none).map (wakeIf f.id)).slot .fetch = _
      rw [Slots.slot_map, Slots.slot_put _ .writeBack nofun, if_neg nofun]
      cases hfetch : p.slots.slot .fetch with
      | none => rfl
      | some g => exact congrArg some (wakeIf_of_not_stalled (hmoves g hfetch f.id))
    · rw [retire_of_unfinished hunfinished]
  rw [show p.advance.slots = _ from Slots.moveOn_eq p.retire.slots]
  have hothers (slots : Slots) (hslots : slots.slot .fetch = p.slots.slot .fetch) :
      (((slots.pass .memory .writeBack).pass .execute .memory).pass .decode .execute).slot .fetch =
        p.slots.slot .fetch := by
    rw [Slots.slot_pass, Slots.slot_pass, Slots.slot_pass, hslots]
    all_goals exact nofun
  replace hothers := hothers p.retire.slots hretire
  generalize ((p.retire.slots.pass .memory .writeBack).pass .execute .memory).pass
    .decode .execute = slots at *
  rw [← hothers]
  rcases slots.pass_cases .fetch .decode with hsame | ⟨f, hf, -, hstate, hpass⟩
  · exact .inl (by rw [hsame])
  · exact .inr ⟨f, hf, hstate, by rw [hpass]; rfl, by rw [hpass]; rfl⟩

-- Whoever still has work in Fetch stays there.
theorem fetch_advance {p : Pipeline} (hready : ∀ f, p.slots.slot .fetch = some f →
    f.state = .ready) :
    p.advance.slots.slot .fetch = p.slots.slot .fetch := by
  rcases fetch_advance_cases (p := p) (fun f hf j => by rw [hready f hf]; nofun) with
    hsame | ⟨f, hf, hstate, -⟩
  · exact hsame
  · rw [hready f hf] at hstate
    cases hstate

section

variable {σ : Type} {b c : Nat} {p : Pipeline} {context : Context σ}

-- Nobody has been fetched behind a branch that has left the counter at `c`: there is nobody, or one
-- who was not tried yet.
structure Untried (b c : Nat) (p : Pipeline) (context : Context σ) : Prop where
  place : (p.nextId = b + 1 ∧ p.slots.slot .fetch = none) ∨
    (p.nextId = b + 2 ∧ p.slots.slot .fetch = some { id := b + 1 })
  flights : p.slots.Each fun f => f = { id := b + 1 } ∨ f.id ≤ b ∧ f.OnlyLinks
  counter_eq : context.registers.counter = c

-- The branch has passed Memory Access, and so have all before it.
def Passed (b : Nat) : Pipeline → Prop := Upheld (b + 1) fun f => f.id ≤ b → .memory ∈ f.stagesDone

namespace Untried

variable (h : Untried b c p context) (hpassed : Passed b p)

include h hpassed

-- Whoever is not in Fetch has nothing more to do than to commit links.
theorem late {stage : Stage} {f : Flight} (hf : p.slots.slot stage = some f)
    (hstage : stage ≠ .fetch) :
    6 < f.progress ∧ f.id ≤ b ∧ f.OnlyLinks := by
  have hplace := hpassed.wellFormed.inPlace stage f hf
  obtain ⟨hid, hlinks⟩ :=
    (h.flights stage f hf).resolve_left (by rintro rfl; exact hstage hplace.symm)
  have hdone := hpassed.each stage f hf hid
  exact ⟨((hpassed.wellFormed.fits hf).done_iff .memory nofun).mp hdone, hid, hlinks⟩

theorem free {stage : Stage} (hstage : stage ≠ .fetch) (horder : stage.order.val < 3) :
    p.slots.slot stage = none := by
  cases hf : p.slots.slot stage with
  | none => rfl
  | some f =>
      have hlate := (h.late hpassed hf hstage).1
      have hbounds := hpassed.wellFormed.progress_bounds hf
      omega

theorem accessed : ∀ f, p.slots.slot .memory = some f → f.state ≠ .ready := by
  intro f hf hready
  have hlate := (h.late hpassed hf nofun).1
  have hprogress : f.progress = 6 := hpassed.wellFormed.progress_of_ready hf hready
  omega

omit hpassed in
theorem ready_of_fetch : ∀ f, p.slots.slot .fetch = some f → f.state = .ready := by
  intro f hf
  rcases h.place with ⟨-, hfree⟩ | ⟨-, hfetch⟩
  · rw [hfree] at hf
    cases hf
  · rw [← Option.some.inj (hfetch.symm.trans hf)]

theorem commitStage : Untried b c (p.commitStage context).1 (p.commitStage context).2 := by
  refine ⟨?_, ?_, ?_⟩
  · rw [(p.commitStage_works context).nextId_eq, (p.commitStage_works context).slot_eq .fetch nofun]
    exact h.place
  · refine each_commitStage hpassed.wellFormed h.flights context ?_
    rintro f hstage - (rfl | ⟨hid, -⟩)
    · cases hstage
    · exact .inr ⟨hid, nofun⟩
  · rcases in_state_or_not (p.slots.slot .writeBack) .ready with ⟨f, hf, hready⟩ | hidle
    · rw [commitStage_of_ready hf hready]
      exact ((h.late hpassed hf nofun).2.2.counter_commit context).trans h.counter_eq
    · rw [commitStage_of_idle hidle]
      exact h.counter_eq

theorem advance : Untried b c p.advance context := by
  refine ⟨?_, ?_, h.counter_eq⟩
  · rw [p.advance_entry.nextId_eq, fetch_advance h.ready_of_fetch]
    exact h.place
  · refine each_advance hpassed.wellFormed h.flights ?_ ?_
    · rintro f j hstate - (rfl | hpassed)
      · cases hstate
      · exact .inr hpassed
    · rintro f stage hstate - (rfl | hpassed)
      · cases hstate
      · exact .inr hpassed

omit hpassed in
theorem takeIn : Untried b c p.takeIn context := by
  rcases p.takeIn_cases with hsame | ⟨-, hfree, -, htaken⟩
  · rw [hsame]
    exact h
  · rcases h.place with ⟨hnext, -⟩ | ⟨-, hfetch⟩
    · rw [htaken, hnext]
      refine ⟨.inr ⟨rfl, p.slots.slot_put .fetch nofun _ .fetch⟩, ?_, h.counter_eq⟩
      exact h.flights.put .fetch (.inl rfl)
    · rw [hfree] at hfetch
      cases hfetch

end Untried

section Fetch

variable [Storage σ]

-- The first try settles the address.
theorem Untried.fetchStage (h : Untried b c p context) (hpassed : Passed b p) :
    Untried b c (p.fetchStage context).1 (p.fetchStage context).2 ∨
      Upheld (b + 2) (fun f => f.id = b + 1 → f.address = some c) (p.fetchStage context).1 := by
  rcases h.place with ⟨-, hfree⟩ | ⟨hnext, hf⟩
  · left
    rw [fetchStage_of_idle (by simp [hfree])]
    exact h
  · right
    have hnext := (p.fetchStage_works context).nextId_eq
    refine ⟨hpassed.wellFormed.fetchStage context, by omega, ?_⟩
    have hothers : (p.slots.put .fetch none).Each fun f => f.id = b + 1 → f.address = some c := by
      intro stage f hslot hid
      rw [p.slots.slot_put .fetch nofun] at hslot
      split at hslot
      · cases hslot
      · rename_i hstage
        have hle := (h.late hpassed hslot hstage).2.1
        omega
    rcases slots_fetchStage hpassed.wellFormed hf rfl context with hgone | hdone
    · rw [hgone]
      exact hothers
    · rw [hdone]
      refine hothers.put .fetch fun _ => ?_
      rw [address_fetch]
      exact congrArg some h.counter_eq

end Fetch

-- What comes behind a branch that has passed: the next one is fetched from where it has left the
-- counter.
structure Behind (b c : Nat) (p : Pipeline) (context : Context σ) : Prop where
  passed : Passed b p
  next : Untried b c p context ∨ Upheld (b + 2) (fun f => f.id = b + 1 → f.address = some c) p

-- The next one is fetched where the branch has left the counter.
theorem Behind.target (h : Behind b c p context) {g : Flight} (hg : p.slots.slot .fetch = some g)
    (hid : g.id = b + 1) : g.target context.registers = c := by
  rcases h.next with hnext | hnext
  · rcases hnext.place with ⟨-, hfree⟩ | ⟨-, hfresh⟩
    · rw [hfree] at hg
      cases hg
    · obtain rfl := Option.some.inj (hfresh.symm.trans hg)
      exact hnext.counter_eq
  · rw [Flight.target, hnext.each .fetch g hg hid]
    rfl

variable [Storage σ]

theorem lasting_passed (b : Nat) : Lasting σ (b + 1) fun f => f.id ≤ b → .memory ∈ f.stagesDone :=
  lasting_done .memory b

theorem behind_kept (b c : Nat) : Kept (Behind (σ := σ) b c) where
  counts context clock running h := ⟨(lasting_passed b).kept.counts context clock running h.passed,
    h.next.imp (fun hnext => ⟨hnext.place, hnext.flights, hnext.counter_eq⟩)
      ((lasting_address (b + 1) c).kept.counts context clock running)⟩
  commitStage h := ⟨(lasting_passed b).kept.commitStage h.passed,
    h.next.imp (·.commitStage h.passed) (lasting_address (b + 1) c).kept.commitStage⟩
  accessStage {p context} h := by
    refine ⟨(lasting_passed b).kept.accessStage h.passed,
      h.next.imp ?_ (lasting_address (b + 1) c).kept.accessStage⟩
    intro hnext
    rw [accessStage_of_idle (hnext.accessed h.passed)]
    exact hnext
  executeStage {p p' context} h hresult := by
    refine ⟨(lasting_passed b).kept.executeStage h.passed hresult, h.next.imp ?_ fun hnext =>
      (lasting_address (b + 1) c).kept.executeStage hnext hresult⟩
    intro hnext
    have hfree : p.slots.slot .execute = none := hnext.free h.passed nofun (by decide)
    rw [executeStage_of_idle (by simp [hfree])] at hresult
    obtain rfl := Except.ok.inj hresult
    exact hnext
  decodeStage {p} context h := by
    refine ⟨(lasting_passed b).kept.decodeStage context h.passed, h.next.imp ?_
      ((lasting_address (b + 1) c).kept.decodeStage context)⟩
    intro hnext
    rw [decodeStage_of_empty (hnext.free h.passed nofun (by decide))]
    exact hnext
  fetchStage h := ⟨(lasting_passed b).kept.fetchStage h.passed,
    h.next.elim (·.fetchStage h.passed) fun hnext =>
      .inr ((lasting_address (b + 1) c).kept.fetchStage hnext)⟩
  advance context h := ⟨(lasting_passed b).kept.advance context h.passed,
    h.next.imp (·.advance h.passed) ((lasting_address (b + 1) c).kept.advance context)⟩
  takeIn context h := ⟨(lasting_passed b).kept.takeIn context h.passed,
    h.next.imp (·.takeIn) ((lasting_address (b + 1) c).kept.takeIn context)⟩

-- A branch has just passed Memory Access, and all before it have written what they had to.
structure JustPassed (f : Flight) (p : Pipeline) : Prop where
  branching : Upheld 0 Branching p
  slot_eq : p.slots.slot .memory = some f
  state_eq : f.state = .completed
  kind : f.raw.any (·.kind = Word.branchKind) = true
  nextId_eq : p.nextId = f.id + 1
  free : ∀ stage : Stage, stage.order.val < 3 → p.slots.slot stage = none
  written : ∀ g, p.slots.slot .writeBack = some g → g.results = []

omit [Storage σ] in
theorem JustPassed.behind {f : Flight} (h : JustPassed f p) (context : Context σ) :
    Behind f.id context.registers.counter p context := by
  have hwell := h.branching.wellFormed
  have hplaces : ∀ stage g, p.slots.slot stage = some g → stage = .memory ∧ g = f ∨
      stage = .writeBack := by
    intro stage g hg
    by_cases horder : stage.order.val < 3
    · rw [h.free stage horder] at hg
      cases hg
    · cases stage with
      | memory => exact .inl ⟨rfl, Option.some.inj (hg.symm.trans h.slot_eq)⟩
      | writeBack => exact .inr rfl
      | system => cases hg
      | _ => exact absurd (by decide) horder
  refine ⟨⟨hwell, Nat.le_of_eq h.nextId_eq.symm, ?_⟩,
    .inl ⟨.inl ⟨h.nextId_eq, h.free .fetch (by decide)⟩, ?_, rfl⟩⟩
  · intro stage g hg _
    refine ((hwell.fits hg).done_iff .memory nofun).mpr ?_
    rcases hplaces stage g hg with ⟨rfl, rfl⟩ | rfl
    · rw [hwell.progress_of_completed hg h.state_eq]
      decide
    · have hbounds : 8 ≤ g.progress := (hwell.progress_bounds hg).1
      show 6 < g.progress
      omega
  · intro stage g hg
    right
    rcases hplaces stage g hg with ⟨rfl, rfl⟩ | rfl
    · refine ⟨Nat.le_refl _, ?_⟩
      intro write hwrite
      have hnames := (h.branching.each .memory g hg h.kind).1
      exact List.mem_singleton.mp (hnames.results write hwrite)
    · refine ⟨Nat.le_of_lt (hwell.id_lt h.slot_eq hg (by decide)), ?_⟩
      intro write hwrite
      rw [h.written g hg] at hwrite
      cases hwrite

omit [Storage σ] in
theorem written_commitStage (hwell : WellFormed p) (hunfinished : p.Unfinished)
    (hrunning : p.running = true) (context : Context σ) :
    ∀ g, (p.tick.commitStage context).1.slots.slot .writeBack = some g → g.results = [] := by
  intro g hg
  rcases in_state_or_not (p.slots.slot .writeBack) .ready with ⟨f, hf, hready⟩ | hidle
  · rw [commitStage_of_ready (p := p.tick) hf hready] at hg
    obtain rfl := Option.some.inj ((Slots.slot_put _ .writeBack nofun _ _).symm.trans hg)
    rfl
  · rw [commitStage_of_idle (p := p.tick) hidle] at hg
    exfalso
    cases hstate : g.state with
    | ready => exact hidle g hg hstate
    | completed => exact hunfinished hrunning g hg hstate
    | stalled j => cases hwell.decode_of_stalled hg hstate

section Access

variable {f : Flight} (hwell : WellFormed p) (hlast : p.LastOpen)
  (hf : p.slots.slot .memory = some f) (hopen : f.Unresolved)

include hwell hf hopen

theorem ready_of_unresolved : f.state = .ready := by
  have hprogress := ((hwell.fits hf).unresolved_iff.mp hopen).2
  cases hstate : f.state with
  | ready => rfl
  | stalled j => cases hwell.decode_of_stalled hf hstate
  | completed =>
      have hdone : f.progress = 7 := hwell.progress_of_completed hf hstate
      omega

include hlast

-- Behind a branch in Memory Access all stages are free.
theorem free_of_unresolved {stage : Stage} (horder : stage.order.val < 3) :
    p.slots.slot stage = none := by
  cases hg : p.slots.slot stage with
  | none => rfl
  | some g =>
      have hlt : f.id < g.id := hwell.id_lt hg hf horder
      obtain ⟨hyoungest, -⟩ := hwell.unresolved hlast (Slots.mem_flights.mpr ⟨_, hf⟩) hopen
      rcases hyoungest g (Slots.mem_flights.mpr ⟨_, hg⟩) with rfl | hgt
      · omega
      · omega

-- It passes in the cycle in which it gets there.
theorem justPassed_of_access (hbranching : Upheld 0 Branching p) (hunfinished : p.Unfinished)
    (hrunning : p.running = true) (context : Context σ) :
    ∃ f' after, f.access (p.committed context) = (none, f', after) ∧ f'.id = f.id ∧
      JustPassed f' (p.tick.accessed context).2.1 ∧ (p.tick.accessed context).2.2 = after := by
  have hkind := ((hwell.fits hf).unresolved_iff.mp hopen).1
  have hready := ready_of_unresolved hwell hf hopen
  have hslot : (p.tick.commitStage context).1.slots.slot .memory = some f :=
    ((p.tick.commitStage_works context).slot_eq .memory (by decide)).trans hf
  rw [committed_eq context hrunning]
  obtain ⟨hfault, hstate, -⟩ :=
    (hbranching.each .memory f hf).completes hkind (p.tick.commitStage context).2
  have hraw := f.raw_access (p.tick.commitStage context).2
  have hid := (f.grows_access (p.tick.commitStage context).2).id_eq
  rcases haccess : f.access (p.tick.commitStage context).2 with ⟨fault, f', after⟩
  rw [haccess] at hfault hstate hraw hid
  obtain rfl : fault = none := hfault
  refine ⟨f', after, rfl, hid, ⟨?_, ?_, hstate, hraw ▸ hkind, ?_, ?_, ?_⟩, ?_⟩
  · exact lasting_branching.kept.accessed (lasting_branching.kept.tick context hbranching)
  · rw [accessed, accessStage_of_ready hslot hready haccess]
    exact Slots.slot_put _ .memory (by decide) _ _
  · rw [accessed, (accessStage_works _ _).nextId_eq, (commitStage_works _ _).nextId_eq]
    exact (hwell.unresolved hlast (Slots.mem_flights.mpr ⟨_, hf⟩) hopen).2.1.trans
      (congrArg (· + 1) hid.symm)
  · intro stage horder
    rw [slot_accessed]
    · exact free_of_unresolved hwell hlast hf hopen horder
    all_goals
      rintro rfl
      exact absurd horder (by decide)
  · intro g hg
    refine written_commitStage hwell hunfinished hrunning context g ?_
    exact ((accessStage_works _ _).slot_eq .writeBack (by decide)).symm.trans hg
  · rw [accessed, accessStage_of_ready hslot hready haccess]

end Access

end

section

variable {σ : Type} [Storage σ] (pipelined : Bool) (context : Context σ)

theorem kept_runFor {P : Pipeline → Context σ → Prop} (hkept : Kept P) {n m : Nat} (hle : n ≤ m)
    (h : P (runFor pipelined context n).1 (runFor pipelined context n).2) :
    P (runFor pipelined context m).1 (runFor pipelined context m).2 := by
  induction hle with
  | refl => exact h
  | step hle ih => exact hkept.step ih

theorem lastOpen_runFor (n : Nat) : (runFor pipelined context n).1.LastOpen := by
  refine (kept_runFor pipelined context lastOpen_kept (Nat.zero_le n)
    ⟨wellFormed_start pipelined, ?_⟩).2
  intro b hb
  cases pipelined <;> cases hb

theorem branching_runFor (n : Nat) : Upheld 0 Branching (runFor pipelined context n).1 := by
  refine kept_runFor pipelined context lasting_branching.kept (Nat.zero_le n) ?_
  refine lasting_branching.kept.takeIn context ⟨wellFormed_empty pipelined, Nat.zero_le _, ?_⟩
  intro stage f hf
  cases stage <;> cases hf

-- What Fetch works on in the next cycle.
def beforeFetch (n : Nat) : Context σ :=
  ((runFor pipelined context n).1.tick.accessed (runFor pipelined context n).2).2.2

-- After so many cycles branch `b` has passed Memory Access and left the counter at `c`. The next
-- instruction is asked for there.
structure Resolved (b c : Nat) (n : Nat) : Prop where
  passed : ∀ f ∈ (runFor pipelined context n).1.slots.flights, f.id ≤ b → ¬f.Unresolved
  address : ∀ f ∈ (runFor pipelined context n).1.slots.flights, f.id = b + 1 →
    f = { id := b + 1 } ∨ f.address = some c
  target : ∀ f, (runFor pipelined context n).1.slots.fetch = some f → f.id = b + 1 →
    f.target (beforeFetch pipelined context n).registers = c

-- After so many cycles, and in the next one.
structure HeldBack (n : Nat) : Prop where
  -- a branch that was fetched is the last instruction to come in until it has passed Memory Access,
  -- and nothing else is taken for one
  unresolved : ∀ f ∈ (runFor pipelined context n).1.slots.flights, f.Unresolved →
    (∀ g ∈ (runFor pipelined context n).1.slots.flights, g = f ∨ g.id < f.id) ∧
      (runFor pipelined context n).1.nextId = f.id + 1 ∧
      (runFor pipelined context n).1.openBranch = some f.id
  opened : ∀ b, (runFor pipelined context n).1.openBranch = some b →
    ∃ f ∈ (runFor pipelined context n).1.slots.flights, f.id = b ∧ f.Unresolved
  -- this only ends in Memory Access, where it takes one cycle
  stays : ∀ b, (runFor pipelined context n).1.openBranch = some b →
    (∀ f, (runFor pipelined context n).1.slots.memory = some f → f.id ≠ b) →
      (runFor pipelined context (n + 1)).1.openBranch = some b
  resolves : ∀ f, (runFor pipelined context n).1.slots.memory = some f → f.Unresolved →
    (runFor pipelined context n).1.running = true →
      ∃ f' after,
      f.access ((runFor pipelined context n).1.committed (runFor pipelined context n).2) =
        (none, f', after) ∧ f'.state = .completed ∧
          ∀ m, n < m → Resolved pipelined context f.id after.registers.counter m

-- Nothing is fetched past a branch that has not decided where to go on. By then all before it have
-- written what they had to, and it writes no more than the link itself, so that nobody else moves
-- the counter before the next instruction is asked for.
theorem heldBack_runFor (n : Nat) : HeldBack pipelined context n where
  unresolved _ hf hopen :=
    (runFor_invariant pipelined context n).1.unresolved
      (lastOpen_runFor pipelined context n) hf hopen
  opened b hb := (runFor_invariant pipelined context n).1.opened hb
  stays b hb hother := openBranch_step (runFor_invariant pipelined context n).1 _ hb hother
  resolves f hf hopen hrunning := by
    obtain ⟨hwell, hunfinished⟩ := runFor_invariant pipelined context n
    obtain ⟨f', after, haccess, hid, hpassed, rfl⟩ :=
      justPassed_of_access hwell (lastOpen_runFor pipelined context n)
      hf hopen (branching_runFor pipelined context n) hunfinished hrunning
        (runFor pipelined context n).2
    have hbehind := hid ▸ hpassed.behind (beforeFetch pipelined context n)
    refine ⟨f', _, haccess, hpassed.state_eq, ?_⟩
    intro m hlt
    have hkept := behind_kept (σ := σ) f.id (beforeFetch pipelined context n).registers.counter
    have hm := kept_runFor pipelined context hkept hlt (hkept.step_of_accessed hrunning hbehind)
    refine ⟨?_, ?_, ?_⟩
    · rintro g hg hle ⟨-, hopen'⟩
      exact hopen' (hm.passed.each.of_mem hg hle)
    · intro g hg hid
      rcases hm.next with hnext | hnext
      · rcases hnext.flights.of_mem hg with hfresh | ⟨hle, -⟩
        · exact .inl hfresh
        · omega
      · exact .inr (hnext.each.of_mem hg hid)
    · intro g hg hid
      have haccessed := hkept.accessed (hkept.tick _ hm)
      refine haccessed.target ?_ hid
      exact (slot_accessed _ _ .fetch nofun nofun).trans hg

end

end Pipeline

end PipelinedProcessor
