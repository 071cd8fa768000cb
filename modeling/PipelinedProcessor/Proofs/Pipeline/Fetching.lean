import PipelinedProcessor.Proofs.Pipeline.AfterBranch
import PipelinedProcessor.Proofs.Pipeline.Attempts

namespace PipelinedProcessor

open Flight LawfulStorage

namespace Registers

theorem min_lt_bound (address : Nat) : min address (Word.bound - 1) < Word.bound := by
  rw [Word.bound]
  omega

theorem counter_setCounter (registers : Registers) (address : Nat) :
    (registers.setCounter address).counter = min address (Word.bound - 1) := by
  show ((registers.write Register.counter _).read Register.counter).toNat = _
  rw [read_write, if_pos ⟨rfl, by decide⟩, BitVec.toNat_ofNat]
  exact Nat.mod_eq_of_lt (min_lt_bound address)

end Registers

-- Memory Access moves the counter for a branch that is taken, and for nothing else.

section

variable {σ : Type} [Storage σ]

theorem Action.registers_advance (action : Action) (context : Context σ)
    (h : ∀ cond target back, action = .branch cond target back →
      context.registers.holds cond = false) :
    (action.advance context).2.2.registers = context.registers := by
  obtain ⟨registers, vectors, memory⟩ := context
  cases action with
  | branch cond target back =>
      have hholds : registers.holds cond = false := h cond target back rfl
      simp only [advance, hholds, Bool.false_eq_true, if_false]
  | scalar op rd swapped flags first second => rfl
  | load rd address => rfl
  | store address w => rfl
  | vectorLoad vd base length loaded => rfl
  | vectorStore base data written => rfl

theorem Flight.registers_access (f : Flight) (context : Context σ)
    (h : ∀ cond target back, f.action = some (.branch cond target back) →
      context.registers.holds cond = false) :
    (f.access context).2.2.registers = context.registers := by
  rw [context_access]
  cases haction : f.action with
  | none => rfl
  | some action =>
      exact action.registers_advance context fun cond target back heq =>
        h cond target back (haction.trans (congrArg some heq))

end

namespace Pipeline

-- Whether an instruction moves the counter in the next cycle, by a result that it writes there or
-- as a branch that is taken.
def redirects {σ : Type} (p : Pipeline) (context : Context σ) : Bool :=
  p.committing.any (·.results.any (·.target = .scalar Register.counter)) ||
    p.running && p.slots.memory.any fun f => f.state = .ready && f.action.any fun
      | .branch cond _ _ => (p.committed context).registers.holds cond
      | _ => false

-- What is committed does not depend on memory.

section

variable {σ τ : Type}

theorem commit_recast (f : Flight) (context : Context σ) (memory : τ) :
    (f.commit (⟨context.registers, context.vectors, memory⟩ : Context τ)).2 =
      ⟨(f.commit context).2.registers, (f.commit context).2.vectors, memory⟩ := by
  simp only [Flight.commit]
  induction f.results generalizing context with
  | nil => rfl
  | cons write rest ih =>
      have hwrite : write.commit (⟨context.registers, context.vectors, memory⟩ : Context τ) =
          ⟨(write.commit context).registers, (write.commit context).vectors, memory⟩ := by
        cases write <;> rfl
      rw [List.foldl_cons, List.foldl_cons, hwrite, ih]

theorem redirects_recast (p : Pipeline) (context : Context σ) (memory : τ) :
    p.redirects (⟨context.registers, context.vectors, memory⟩ : Context τ) =
      p.redirects context := by
  have hcommitted : p.committed (⟨context.registers, context.vectors, memory⟩ : Context τ) =
      ⟨(p.committed context).registers, (p.committed context).vectors, memory⟩ := by
    unfold committed
    induction p.committing generalizing context with
    | nil => rfl
    | cons f rest ih => rw [List.foldl_cons, List.foldl_cons, commit_recast, ih]
  simp only [redirects, hcommitted]

end

-- The word that was fetched under a number, by an instruction in flight or by the one that halts.
def word? (p : Pipeline) (id : Nat) : Option Word :=
  if p.haltId = some id then some Word.halt
  else (p.slots.flights.find? (·.id = id)).bind (·.raw)

-- What Fetch has got from one state to another: the word that the instruction in it was without.
def fetched (p p' : Pipeline) : List Word :=
  ((p.slots.fetch.filter (·.raw.isNone)).bind fun f => p'.word? f.id).toList

section

variable {p p' : Pipeline} {f g : Flight} {stage : Stage}

theorem WellFormed.word?_of_slot (h : WellFormed p) (hf : p.slots.slot stage = some f) :
    p.word? f.id = f.raw := by
  have hmem : f ∈ p.slots.flights := Slots.mem_flights.mpr ⟨stage, hf⟩
  have hbounds := h.row.id_bounds hmem
  have hhalt : p.haltId ≠ some f.id := by
    intro heq
    have hnext := h.nextId_eq
    have hlast := (h.halting f.id heq).2
    rw [heq] at hnext
    simp only [Option.elim_some] at hnext
    omega
  rw [word?, if_neg hhalt]
  cases hfound : p.slots.flights.find? (·.id = f.id) with
  | none =>
      rw [List.find?_eq_none] at hfound
      exact absurd (decide_eq_true rfl) (hfound f hmem)
  | some g =>
      obtain ⟨other, hg⟩ := Slots.mem_flights.mp (List.mem_of_find?_eq_some hfound)
      have hid : g.id = f.id := by simpa using List.find?_some hfound
      obtain rfl := h.stage_of_id hf hg hid
      obtain rfl := Option.some.inj (hf.symm.trans hg)
      rfl

theorem fetched_of_idle (h : ∀ f, p.slots.slot .fetch = some f → f.raw ≠ none) :
    p.fetched p' = [] := by
  unfold fetched
  cases hf : p.slots.fetch with
  | none => rfl
  | some f =>
      rw [Option.filter_some, if_neg (by simpa using h f hf)]
      rfl

section

variable (hf : p.slots.slot .fetch = some f) (hblank : f.raw = none)

include hf hblank

theorem fetched_eq : p.fetched p' = (p'.word? f.id).toList := by
  rw [fetched, show p.slots.fetch = some f from hf, Option.filter_some, if_pos (by simp [hblank])]
  rfl

theorem fetched_of_halt (hhalt : p'.haltId = some f.id) : p.fetched p' = [Word.halt] := by
  rw [fetched_eq hf hblank, word?, if_pos hhalt]
  rfl

theorem fetched_of_slot (hwell : WellFormed p') (hg : p'.slots.slot stage = some g)
    (hid : g.id = f.id) :
    p.fetched p' = g.raw.toList := by
  rw [fetched_eq hf hblank, ← hid, hwell.word?_of_slot hg]

end

end

-- Whoever is still in Fetch as it was has got nothing.
theorem fetched_of_same {p p' : Pipeline} (hwell : WellFormed p')
    (hsame : p'.slots.slot .fetch = p.slots.slot .fetch) : p.fetched p' = [] := by
  by_cases hall : ∀ f, p.slots.slot .fetch = some f → f.raw ≠ none
  · exact fetched_of_idle hall
  · push Not at hall
    obtain ⟨f, hf, hblank⟩ := hall
    rw [fetched_of_slot hf hblank hwell (hsame.trans hf) rfl, hblank]
    rfl

-- Whoever is in Fetch without a word asks for the one at the counter.
def Aimed (p : Pipeline) (registers : Registers) : Prop :=
  ∀ f, p.slots.slot .fetch = some f → f.raw = none → f.target registers = registers.counter

section

variable {σ : Type} [Storage σ]

-- Where no instruction moves it, the counter is the same when Fetch has its turn.
theorem counter_accessed {p : Pipeline} {context : Context σ} (hrunning : p.running = true)
    (h : p.redirects context = false) :
    (p.tick.accessed context).2.2.registers.counter = context.registers.counter := by
  simp only [redirects, Bool.or_eq_false_iff, List.any_eq_false, hrunning,
    Bool.true_and, Option.any_eq_false, Bool.and_eq_false_iff, decide_eq_false_iff_not] at h
  obtain ⟨hwrites, hbranch⟩ := h
  have hcommit : (p.tick.commitStage context).2.registers.counter = context.registers.counter := by
    rcases commitStage_cases context hrunning with ⟨-, hcommit⟩ | ⟨f, -, -, hone, hcommit⟩
    · rw [hcommit]
    · rw [hcommit]
      rw [hone] at hwrites
      exact counter_commit (f := f)
        (fun write hwrite htarget => hwrites f List.mem_cons_self (List.any_eq_true.mpr
        ⟨write, hwrite, decide_eq_true htarget⟩)) context
  have hslot : (p.tick.commitStage context).1.slots.slot .memory = p.slots.slot .memory :=
    (p.tick.commitStage_works context).slot_eq .memory nofun
  rw [accessed, ← hcommit]
  rcases in_state_or_not ((p.tick.commitStage context).1.slots.slot .memory) .ready with
    ⟨f, hf, hready⟩ | hidle
  · have hmemory : p.slots.memory = some f := hslot.symm.trans hf
    have hsame :=
      f.registers_access (p.tick.commitStage context).2 fun cond target back haction => by
      rcases hbranch f hmemory with hnot | hnot
      · exact absurd hready hnot
      · rw [haction, committed_eq context hrunning] at hnot
        exact hnot _ rfl
    rcases haccess : f.access (p.tick.commitStage context).2 with ⟨fault, f', after⟩
    rw [haccess] at hsame
    rw [accessStage_of_ready hf hready haccess]
    exact congrArg Registers.counter hsame
  · rw [accessStage_of_idle hidle]

-- A state within a cycle in which Fetch has not had its turn.
structure Unfetched [LawfulStorage σ] (p : Pipeline) (context : Context σ) (q : Pipeline)
    (now : Context σ) : Prop where
  wellFormed : WellFormed q
  sound : Sound now.memory
  slot_eq : q.slots.slot .fetch = p.slots.slot .fetch
  haltId_eq : q.haltId = p.haltId
  counter_eq : now.registers.counter = context.registers.counter

variable [LawfulStorage σ] {p q p' : Pipeline} {context now after : Context σ}

theorem Unfetched.executeStage (h : Unfetched p context q now) {registers : Registers}
    {vectors : VectorRegisters} {q' : Pipeline}
    (hresult : q.executeStage registers vectors = .ok q') : Unfetched p context q' now := by
  have hsame : q'.slots.slot .fetch = q.slots.slot .fetch := by
    rcases in_state_or_not (q.slots.slot .execute) .ready with ⟨f, hf, hready⟩ | hidle
    · rw [executeStage_of_ready hf hready] at hresult
      obtain ⟨f', -, rfl⟩ := ok_of_map hresult
      rfl
    · rw [executeStage_of_idle hidle] at hresult
      obtain rfl := Except.ok.inj hresult
      rfl
  exact ⟨h.wellFormed.executeStage hresult, h.sound, hsame.trans h.slot_eq,
    ((q.executeStage_works hresult).haltId_eq nofun).trans h.haltId_eq, h.counter_eq⟩

theorem Unfetched.decodeStage (h : Unfetched p context q now) :
    Unfetched p context q.decodeStage now := by
  have hsame : q.decodeStage.slots.slot .fetch = q.slots.slot .fetch := by
    unfold Pipeline.decodeStage
    split
    · rfl
    · split <;> rfl
  exact ⟨h.wellFormed.decodeStage, h.sound, hsame.trans h.slot_eq,
    (q.decodeStage_works.haltId_eq nofun).trans h.haltId_eq, h.counter_eq⟩

theorem unfetched_accessed (hwell : WellFormed p) (hsound : Sound context.memory)
    (hrunning : p.running = true) (hstraight : p.redirects context = false) :
    Unfetched p context (p.tick.accessed context).2.1 (p.tick.accessed context).2.2 where
  wellFormed := ((hwell.of_counts (p.clock + 1) _ p.running).commitStage context).accessStage _
  sound := (kept_of_tries tries_sound).accessed (p := p.tick) hsound
  slot_eq := p.tick.slot_accessed context .fetch nofun nofun
  haltId_eq := ((accessStage_works _ _).haltId_eq nofun).trans
    ((p.tick.commitStage_works context).haltId_eq nofun)
  counter_eq := counter_accessed hrunning hstraight

-- A fault comes before Fetch has its turn.
theorem work_unfetched
    (h : Unfetched p context (p.tick.accessed context).2.1 (p.tick.accessed context).2.2) :
    (∃ fault q now, p.tick.work context = (some fault, q, now) ∧ Unfetched p context q now) ∨
      ∃ q now, Unfetched p context q now ∧
        p.tick.work context = (none, (q.fetchStage now).1, (q.fetchStage now).2) := by
  rcases hcommit : p.tick.commitStage context with ⟨committed, context'⟩
  rcases haccess : committed.accessStage context' with ⟨fault, accessed, now⟩
  simp only [Pipeline.accessed, hcommit, haccess] at h
  cases fault with
  | some fault =>
      exact .inl ⟨fault, accessed, now, by simp only [Pipeline.work, hcommit, haccess], h⟩
  | none =>
      cases hresult : accessed.executeStage now.registers now.vectors with
      | error fault =>
          exact .inl ⟨fault, accessed,
            now, by simp only [Pipeline.work, hcommit, haccess, hresult], h⟩
      | ok executed =>
          exact .inr ⟨executed.decodeStage, now, (h.executeStage hresult).decodeStage, by
            simp only [Pipeline.work, hcommit, haccess, hresult]⟩

end

-- The end of a cycle, from what its work comes to.
structure Concluded (q p' : Pipeline) : Prop where
  wellFormed : WellFormed p'
  haltId_eq : p'.haltId = q.haltId
  decode_eq : p'.slots.slot .decode = q.advance.slots.slot .decode
  fetch : p'.slots.slot .fetch = q.advance.slots.slot .fetch ∨
    q.advance.slots.slot .fetch = none ∧ q.haltId = none ∧
    ∃ id, p'.slots.slot .fetch = some { id := id }

theorem concluded_stop {q : Pipeline} (h : WellFormed q) :
    Concluded q { q.advance with running := false } :=
  ⟨h.advance.of_counts _ _ _, q.advance_entry.haltId_eq, rfl, .inl rfl⟩

theorem concluded_takeIn {q : Pipeline} (h : WellFormed q) : Concluded q q.advance.takeIn := by
  have hwell := h.advance.takeIn
  have hhalt := q.advance_entry.haltId_eq
  rcases q.advance.takeIn_cases with hsame | ⟨hnone, hfree, -, htaken⟩
  · rw [hsame]
    exact ⟨h.advance, hhalt, rfl, .inl rfl⟩
  · rw [htaken] at hwell ⊢
    exact ⟨hwell, hhalt, rfl, .inr ⟨hfree, hhalt.symm.trans hnone, _, rfl⟩⟩

-- Whoever is in Fetch is not stalled there, and has its word once it is done.

theorem WellFormed.not_stalled_of_fetch {q : Pipeline} (h : WellFormed q) :
    ∀ f, q.slots.slot .fetch = some f → ∀ j, f.state ≠ .stalled j := by
  intro f hf j hstate
  cases h.decode_of_stalled hf hstate

theorem WellFormed.raw_of_not_ready {q : Pipeline} (h : WellFormed q) {f : Flight}
    (hf : q.slots.slot .fetch = some f) (hnot : f.state ≠ .ready) : f.raw ≠ none := by
  have hstate : f.state = .completed := by
    cases hcase : f.state with
    | ready => exact absurd hcase hnot
    | stalled j => exact absurd hcase (h.not_stalled_of_fetch f hf j)
    | completed => rfl
  have hp := h.progress_of_completed hf hstate
  obtain ⟨w, hw, -⟩ := (h.fits hf).fetched (by omega)
  rw [hw]
  nofun

theorem Concluded.aimed {q p' : Pipeline} (h : Concluded q p') (hwell : WellFormed q)
    {registers : Registers} (haimed : Aimed q registers) : Aimed p' registers := by
  intro g hg hblank
  rcases h.fetch with hsame | ⟨-, -, id, hnew⟩
  · rcases fetch_advance_cases hwell.not_stalled_of_fetch with hstays | ⟨f, -, -, hgone, -⟩
    · exact haimed g (hstays.symm.trans (hsame.symm.trans hg)) hblank
    · rw [hsame, hgone] at hg
      cases hg
  · obtain rfl := Option.some.inj (hnew.symm.trans hg)
    rfl

-- Whoever is left in Fetch is found after the cycle, there or in Decode.
theorem Concluded.found {q p' : Pipeline} (h : Concluded q p') (hwell : WellFormed q) {f : Flight}
    (hf : q.slots.slot .fetch = some f) :
    ∃ stage g, p'.slots.slot stage = some g ∧ g.id = f.id ∧ g.raw = f.raw := by
  rcases fetch_advance_cases hwell.not_stalled_of_fetch with hstays | ⟨g, hg, -, -, hdecode⟩
  · rw [hf] at hstays
    rcases h.fetch with hsame | ⟨hfree, -⟩
    · exact ⟨.fetch, f, hsame.trans hstays, rfl, rfl⟩
    · rw [hstays] at hfree
      cases hfree
  · obtain rfl := Option.some.inj (hf.symm.trans hg)
    exact ⟨.decode, f.enter .decode, h.decode_eq.trans hdecode, rfl, rfl⟩

-- What a cycle has fetched: nothing, the word at the counter, which goes on to the next one, or the
-- word that halts.
inductive Fetching {σ : Type} [Storage σ] [LawfulStorage σ] (p : Pipeline) (context : Context σ)
    (p' : Pipeline) (after : Context σ) : List Word → Prop where
  | nothing (hcounter : after.registers.counter = context.registers.counter)
      (hhalt : p'.haltId = p.haltId) :
      Fetching p context p' after []
  | word {w : Word} (hword : w = view after.memory context.registers.counter) (hw : w ≠ Word.halt)
      (hcounter : after.registers.counter = (context.registers.counter + 1) % Word.bound) :
      Fetching p context p' after [w]
  | halt (hword : Word.halt = view after.memory context.registers.counter)
      (hhalt : p'.haltId.isSome) :
      Fetching p context p' after [Word.halt]

section

variable {σ : Type} [Storage σ] [LawfulStorage σ] {p q p' : Pipeline} {context now : Context σ}

theorem Unfetched.aimed (h : Unfetched p context q now) (haimed : Aimed p context.registers) :
    Aimed q now.registers := by
  intro f hf hblank
  have htarget := haimed f (h.slot_eq.symm.trans hf) hblank
  rwa [target, ← h.counter_eq] at htarget

-- A word that arrives is what the cycle has fetched.
theorem Unfetched.fetched_of_done (h : Unfetched p context q now)
    (hend : Concluded (q.fetchStage now).1 p') {f : Flight} (hf : q.slots.slot .fetch = some f)
    (hready : f.state = .ready) {w : Word} {memory : σ}
    (hread : Storage.read now.memory .fetch (f.target now.registers) = (.done w, memory)) :
    p.fetched p' = [w] := by
  have hwell' := h.wellFormed.fetchStage now
  have hfirst : p.slots.slot .fetch = some f := h.slot_eq.symm.trans hf
  have hblank := (h.wellFormed.fits hf).blank (h.wellFormed.progress_of_ready hf hready)
  by_cases hhalt : w = Word.halt
  · subst hhalt
    rw [fetchStage_of_halt hf hready hread] at hend
    exact fetched_of_halt hfirst hblank hend.haltId_eq
  · rw [fetchStage_of_word hf hready hhalt hread] at hend hwell'
    obtain ⟨stage, g, hg, hid, hraw⟩ := hend.found hwell' rfl
    rw [fetched_of_slot hfirst hblank hend.wellFormed hg hid, hraw]
    rfl

theorem Unfetched.fetchStage (h : Unfetched p context q now) (haimed : Aimed p context.registers)
    (hend : Concluded (q.fetchStage now).1 p') :
    Fetching p context p' (q.fetchStage now).2 (p.fetched p') ∧
    Aimed p' (q.fetchStage now).2.registers := by
  have hwell' := h.wellFormed.fetchStage now
  have haimed' := h.aimed haimed
  rcases in_state_or_not (q.slots.slot .fetch) .ready with ⟨f, hf, hready⟩ | hidle
  · have hfirst : p.slots.slot .fetch = some f := h.slot_eq.symm.trans hf
    have hblank := (h.wellFormed.fits hf).blank (h.wellFormed.progress_of_ready hf hready)
    have htarget := haimed' f hf hblank
    rcases hread : Storage.read now.memory .fetch (f.target now.registers) with ⟨answer, memory⟩
    obtain ⟨-, -, hview, hdone⟩ := read_sound h.sound hread
    have hword (w : Word) (hw : Poll.done w = answer) :
        w = view memory context.registers.counter := by
      rw [hdone w hw.symm, htarget, h.counter_eq, hview]
    cases answer with
    | wait =>
        rw [fetchStage_of_wait hf hready hblank hread] at hend hwell' ⊢
        obtain ⟨stage, g, hg, hid, hraw⟩ := hend.found hwell' rfl
        rw [fetched_of_slot hfirst hblank hend.wellFormed hg hid, hraw,
          show Flight.raw _ = none from hblank]
        refine ⟨.nothing h.counter_eq (hend.haltId_eq.trans h.haltId_eq),
          hend.aimed hwell' fun g hg _ => ?_⟩
        obtain rfl := Option.some.inj hg
        exact htarget
    | done w =>
        rw [h.fetched_of_done hend hf hready hread]
        by_cases hhalt : w = Word.halt
        · subst hhalt
          rw [fetchStage_of_halt hf hready hread] at hend hwell' ⊢
          refine ⟨.halt (hword _ rfl) (by rw [hend.haltId_eq]; rfl),
            hend.aimed hwell' fun g hg _ => ?_⟩
          cases hg
        · rw [fetchStage_of_word hf hready hhalt hread] at hend hwell' ⊢
          refine ⟨.word (hword w rfl) hhalt ?_, hend.aimed hwell' fun g hg hnone => ?_⟩
          · exact now.registers.counter_stepCounter.trans (by rw [h.counter_eq])
          · obtain rfl := Option.some.inj hg
            cases hnone
  · rw [fetchStage_of_idle hidle] at hend hwell' ⊢
    have hfetched : p.fetched p' = [] :=
      fetched_of_idle fun f hf => h.wellFormed.raw_of_not_ready (h.slot_eq.trans hf)
        (hidle f (h.slot_eq.trans hf))
    rw [hfetched]
    exact ⟨.nothing h.counter_eq (hend.haltId_eq.trans h.haltId_eq), hend.aimed hwell' haimed'⟩

-- A cycle in which no instruction moves the counter.
theorem fetching_step {after : Context σ} {answer : Except Fault Message} (hwell : WellFormed p)
    (hsound : Sound context.memory) (haimed : Aimed p context.registers)
    (hrunning : p.running = true) (hstraight : p.redirects context = false)
    (hresult : p.step context = (answer, p', after)) :
    Fetching p context p' after (p.fetched p') ∧ Aimed p' after.registers ∧
      (p.fetched p' ≠ [] → ∃ message, answer = .ok message) := by
  have haccessed := unfetched_accessed hwell hsound hrunning hstraight
  rcases work_unfetched haccessed with ⟨fault, q, now, hwork, h⟩ | ⟨q, now, h, hwork⟩
  · rw [step_of_fault hrunning hwork] at hresult
    obtain ⟨-, rfl, rfl⟩ := hresult
    have hwell' : WellFormed { q with running := false } :=
      h.wellFormed.of_counts q.clock q.stalls false
    rw [fetched_of_same hwell' h.slot_eq]
    refine ⟨.nothing h.counter_eq h.haltId_eq, h.aimed haimed, fun hmore => absurd rfl hmore⟩
  · have hwell' := h.wellFormed.fetchStage now
    by_cases hlast : (q.fetchStage now).1.advance.haltId.isSome ∧
      (q.fetchStage now).1.advance.slots.flights = []
    · rw [step_of_end hrunning hwork hlast] at hresult
      obtain ⟨rfl, rfl, rfl⟩ := hresult
      obtain ⟨hfetching, haimed'⟩ := h.fetchStage haimed (concluded_stop hwell')
      exact ⟨hfetching, haimed', fun _ => ⟨_, rfl⟩⟩
    · rw [step_of_running hrunning hwork hlast] at hresult
      obtain ⟨rfl, rfl, rfl⟩ := hresult
      obtain ⟨hfetching, haimed'⟩ := h.fetchStage haimed (concluded_takeIn hwell')
      exact ⟨hfetching, haimed', fun _ => ⟨_, rfl⟩⟩

end

-- A run whose only instruction still waits for its word.
structure Lone (p : Pipeline) (f : Flight) : Prop where
  wellFormed : WellFormed p
  running : p.running = true
  slots_eq : p.slots = { fetch := some f }
  ready : f.state = .ready

theorem lone_start (pipelined : Bool) : Lone (start pipelined) { id := 0 } := by
  refine ⟨wellFormed_start pipelined, ?_, ?_, rfl⟩
  · cases pipelined <;> rfl
  · cases pipelined <;> rfl

namespace Lone

variable {σ : Type} [Storage σ] {p : Pipeline} {f : Flight} (h : Lone p f)

include h

theorem slot_eq : p.slots.slot .fetch = some f := by rw [h.slots_eq]; rfl

omit [Storage σ] in
theorem advance_eq : p.advance = p := by
  obtain ⟨clock, running, pipelined, slots, nextId, openBranch, haltId, retired, stalls⟩ := p
  obtain rfl : slots = { fetch := some f } := h.slots_eq
  simp only [Pipeline.advance, Pipeline.retire, Pipeline.moveOn, passOn, h.ready,
    reduceCtorEq, if_false]

omit [Storage σ] in
theorem takeIn_eq : p.takeIn = p := by
  rcases p.takeIn_cases with hsame | ⟨-, hfree, -⟩
  · exact hsame
  · rw [h.slot_eq] at hfree
    cases hfree

theorem work_eq (context : Context σ) :
    p.tick.work context = (none, (p.tick.fetchStage context).1, (p.tick.fetchStage context).2) := by
  have hslots : p.tick.slots = { fetch := some f } := h.slots_eq
  have hidle (stage : Stage) (hother : stage ≠ .fetch) :
      ∀ g, p.tick.slots.slot stage = some g → g.state ≠ .ready := by
    intro g hg
    rw [hslots] at hg
    cases stage <;> contradiction
  have hdecode : p.tick.slots.slot .decode = none := by rw [hslots]; rfl
  unfold Pipeline.work
  rw [commitStage_of_idle (hidle .writeBack (by decide))]
  simp only [accessStage_of_idle (hidle .memory (by decide)),
    executeStage_of_idle (hidle .execute (by decide)), decodeStage_of_empty hdecode]

-- As long as memory makes it wait nothing else happens.
theorem step_of_wait {context : Context σ} {memory : σ}
    (hread : Storage.read context.memory .fetch (f.target context.registers) = (.wait, memory)) :
    ∃ p', p.step context = (.ok .running, p', { context with memory := memory }) ∧
      Lone p' { f with address := some (f.target context.registers) } ∧ p.fetched p' = [] := by
  have hblank :=
    (h.wellFormed.fits h.slot_eq).blank (h.wellFormed.progress_of_ready h.slot_eq h.ready)
  have hworked : WellFormed (p.tick.fetchStage context).1 :=
    (h.wellFormed.of_counts (p.clock + 1) _ p.running).fetchStage context
  have hwork := h.work_eq context
  rw [fetchStage_of_wait (p := p.tick) h.slot_eq h.ready hblank hread] at hwork hworked
  set waiting : Flight := { f with address := some (f.target context.registers) }
  have hslots : p.tick.slots.put .fetch (some waiting) = { fetch := some waiting } := by
    rw [show p.tick.slots = _ from h.slots_eq]
    rfl
  have hlone : Lone { p.tick with slots := p.tick.slots.put .fetch (some waiting) } waiting :=
    ⟨hworked, h.running, hslots, h.ready⟩
  have hmore := Slots.mem_flights.mpr ⟨.fetch, hlone.slot_eq⟩
  refine ⟨_, ?_, hlone, ?_⟩
  · rw [step_of_running h.running hwork, hlone.advance_eq, hlone.takeIn_eq]
    rw [hlone.advance_eq]
    exact fun hend => List.ne_nil_of_mem hmore hend.2
  · rw [fetched_of_slot h.slot_eq hblank hworked hlone.slot_eq rfl]
    exact congrArg Option.toList hblank

theorem step_of_done [LawfulStorage σ] {context : Context σ} (hsound : Sound context.memory)
    {memory : σ} {w : Word}
    (hread : Storage.read context.memory .fetch (f.target context.registers) = (.done w, memory)) :
    p.fetched (p.step context).2.1 = [w] := by
  have hticked : Unfetched p context p.tick context :=
    ⟨h.wellFormed.of_counts (p.clock + 1) _ p.running, hsound, rfl, rfl, rfl⟩
  have hwell' := hticked.wellFormed.fetchStage context
  have hwork := h.work_eq context
  by_cases hlast : (p.tick.fetchStage context).1.advance.haltId.isSome ∧
      (p.tick.fetchStage context).1.advance.slots.flights = []
  · rw [step_of_end h.running hwork hlast]
    exact hticked.fetched_of_done (concluded_stop hwell') h.slot_eq h.ready hread
  · rw [step_of_running h.running hwork hlast]
    exact hticked.fetched_of_done (concluded_takeIn hwell') h.slot_eq h.ready hread

end Lone

end Pipeline

end PipelinedProcessor
