import PipelinedProcessor.Proofs.Pipeline.WellFormed

namespace PipelinedProcessor.Pipeline

open Flight

-- What the stages do to a pipeline, by what they find in their slot. A flight that is not ready is
-- left alone.

theorem in_state_or_not (slot : Option Flight) (state : FlightState) :
    (∃ f, slot = some f ∧ f.state = state) ∨ ∀ f, slot = some f → f.state ≠ state := by
  cases slot with
  | none => exact .inr fun _ hf => nomatch hf
  | some f =>
      by_cases hstate : f.state = state
      · exact .inl ⟨f, rfl, hstate⟩
      · refine .inr fun g hg => ?_
        obtain rfl := Option.some.inj hg
        exact hstate

variable {σ : Type} {p : Pipeline} {f : Flight} {context : Context σ}

theorem commitStage_of_idle (h : ∀ f, p.slots.slot .writeBack = some f → f.state ≠ .ready) :
    p.commitStage context = (p, context) := by
  unfold commitStage
  split
  · rfl
  · rename_i f hf
    rw [if_neg (h f hf)]

theorem commitStage_of_ready (hf : p.slots.slot .writeBack = some f) (hready : f.state = .ready) :
    p.commitStage context = ({ p with slots := p.slots.put .writeBack (some (f.commit context).1) },
      (f.commit context).2) := by
  simp only [Slots.slot] at hf
  simp only [commitStage, hf, hready, if_true]
  rfl

theorem executeStage_of_idle {registers : Registers} {vectors : VectorRegisters}
    (h : ∀ f, p.slots.slot .execute = some f → f.state ≠ .ready) :
    p.executeStage registers vectors = .ok p := by
  unfold executeStage
  split
  · rfl
  · rename_i f hf
    rw [if_neg (h f hf)]

theorem executeStage_of_ready {registers : Registers} {vectors : VectorRegisters}
    (hf : p.slots.slot .execute = some f) (hready : f.state = .ready) :
    p.executeStage registers vectors = (f.execute registers vectors).map fun f' =>
      { p with slots := p.slots.put .execute (some f') } := by
  simp only [Slots.slot] at hf
  simp only [executeStage, hf, hready, if_true]
  rfl

theorem decodeStage_of_empty (h : p.slots.slot .decode = none) : p.decodeStage = p := by
  simp only [Slots.slot] at h
  simp only [decodeStage, h]

theorem decodeStage_of_ready (hf : p.slots.slot .decode = some f) (hready : f.state = .ready) :
    p.decodeStage = { p with slots := p.slots.put .decode (some (f.decode p.slots.flights)) } := by
  simp only [Slots.slot] at hf
  simp only [decodeStage, hf, hready]
  rfl

theorem decodeStage_of_stalled {j : Nat} (hf : p.slots.slot .decode = some f)
    (hstate : f.state = .stalled j) :
    p.decodeStage = { p with stalls := p.stalls + 1 } := by
  simp only [Slots.slot] at hf
  simp only [decodeStage, hf, hstate]

theorem decodeStage_of_completed (hf : p.slots.slot .decode = some f)
    (hstate : f.state = .completed) :
    p.decodeStage = p := by
  simp only [Slots.slot] at hf
  simp only [decodeStage, hf, hstate]

-- Who waits in Decode only lets the stalls be counted.
theorem decodeStage_of_idle (h : ∀ f, p.slots.slot .decode = some f → f.state ≠ .ready) :
    p.decodeStage.slots = p.slots ∧ p.decodeStage.nextId = p.nextId := by
  cases hf : p.slots.slot .decode with
  | none =>
      rw [decodeStage_of_empty hf]
      exact ⟨rfl, rfl⟩
  | some f =>
      cases hstate : f.state with
      | ready => exact absurd hstate (h f hf)
      | stalled j =>
          rw [decodeStage_of_stalled hf hstate]
          exact ⟨rfl, rfl⟩
      | completed =>
          rw [decodeStage_of_completed hf hstate]
          exact ⟨rfl, rfl⟩

section

variable [Storage σ]

theorem accessStage_of_idle (h : ∀ f, p.slots.slot .memory = some f → f.state ≠ .ready) :
    p.accessStage context = (none, p, context) := by
  unfold accessStage
  split
  · rfl
  · rename_i f hf
    rw [if_neg (h f hf)]

theorem accessStage_of_ready {f' : Flight} {fault : Option Fault} {after : Context σ}
    (hf : p.slots.slot .memory = some f) (hready : f.state = .ready)
    (haccess : f.access context = (fault, f', after)) :
    p.accessStage context = (fault, { p with
      slots := p.slots.put .memory (some f')
      openBranch := if f'.state = .completed ∧ p.openBranch = some f'.id
        then none else p.openBranch },
      after) := by
  simp only [Slots.slot] at hf
  simp only [accessStage, hf, hready, if_true, haccess, Bool.and_eq_true, decide_eq_true_eq]
  rfl

theorem fetchStage_of_idle (h : ∀ f, p.slots.slot .fetch = some f → f.state ≠ .ready) :
    p.fetchStage context = (p, context) := by
  unfold fetchStage
  split
  · rfl
  · rename_i f hf
    rw [if_neg (h f hf)]

variable {memory : σ} (hf : p.slots.slot .fetch = some f) (hready : f.state = .ready)

include hf hready

theorem fetchStage_of_wait (hraw : f.raw = none)
    (hread : Storage.read context.memory .fetch (f.target context.registers) = (.wait, memory)) :
    p.fetchStage context =
      ({ p with
        slots := p.slots.put .fetch
          (some { f with address := some (f.target context.registers) }) },
        { context with memory := memory }) := by
  simp only [Slots.slot] at hf
  simp only [fetchStage, hf, hready, if_true, fetch_of_wait hread, hraw, reduceCtorEq, if_false,
    decide_false, Bool.false_and, Bool.false_eq_true]
  rfl

theorem fetchStage_of_halt
    (hread : Storage.read context.memory .fetch (f.target context.registers) =
      (.done Word.halt, memory)) :
    p.fetchStage context =
      ({ p with slots := p.slots.put .fetch none, haltId := some f.id },
        { context with memory := memory }) := by
  simp only [Slots.slot] at hf
  simp only [fetchStage, hf, hready, if_true, fetch_of_done hread, complete]
  rfl

theorem fetchStage_of_word {w : Word} (hw : w ≠ Word.halt)
    (hread : Storage.read context.memory .fetch (f.target context.registers) = (.done w, memory)) :
    p.fetchStage context =
      ({ p with
        slots := p.slots.put .fetch
          (some { f with address := some (f.target context.registers), raw := some w }.complete)
        openBranch := if w.kind = Word.branchKind then some f.id else p.openBranch },
        { context with registers := context.registers.stepCounter, memory := memory }) := by
  simp only [Slots.slot] at hf
  simp only [fetchStage, hf, hready, if_true, fetch_of_done hread, complete,
    Option.some.injEq, hw, if_false, decide_true, Bool.true_and, Option.any_some, decide_eq_true_eq]
  rfl

end

-- The end of a cycle.

theorem retire_of_unfinished (h : ∀ f, p.slots.slot .writeBack = some f → f.state ≠ .completed) :
    p.retire = p := by
  unfold retire
  split
  · rfl
  · rename_i f hf
    rw [if_neg (h f hf)]

theorem retire_of_completed (hf : p.slots.slot .writeBack = some f)
    (hstate : f.state = .completed) :
    p.retire = { p with
      slots := (p.slots.put .writeBack none).map (wakeIf f.id)
      retired := p.retired + 1 } := by
  simp only [Slots.slot] at hf
  simp only [retire, hf, hstate, if_true]
  rfl

-- A new instruction comes in, or nothing happens.
theorem takeIn_cases (p : Pipeline) :
    p.takeIn = p ∨ (p.haltId = none ∧ p.slots.slot .fetch = none ∧
      (if p.pipelined then p.openBranch = none else p.slots.flights = []) ∧
      p.takeIn = { p with
        slots := p.slots.put .fetch (some { id := p.nextId })
        nextId := p.nextId + 1 }) := by
  unfold takeIn
  by_cases hheld : (p.haltId.isSome || p.slots.fetch.isSome ||
      if p.pipelined then p.openBranch.isSome else !p.slots.isEmpty) = true
  · left
    simp only [hheld, if_true]
  · right
    simp only [hheld, if_false, Bool.false_eq_true]
    simp only [Bool.or_eq_true, not_or, Bool.not_eq_true, Option.isSome_eq_false_iff,
      Option.isNone_iff_eq_none] at hheld
    obtain ⟨⟨hhalts, hfetch⟩, hlast⟩ := hheld
    refine ⟨hhalts, hfetch, ?_, rfl⟩
    cases hmode : p.pipelined with
    | true => simpa [hmode] using hlast
    | false => simpa [hmode, Slots.isEmpty] using hlast

-- A whole cycle, by what its work comes to.

section Cycle

variable [Storage σ] {worked : Pipeline} {after : Context σ}

def tick (p : Pipeline) : Pipeline := { p with clock := p.clock + 1 }

theorem step_of_fault {fault : Fault} (hrunning : p.running = true)
    (hwork : p.tick.work context = (some fault, worked, after)) :
    p.step context = (.error fault, { worked with running := false }, after) := by
  unfold tick at hwork
  unfold Pipeline.step
  rw [if_pos hrunning, hwork]

variable (hrunning : p.running = true) (hwork : p.tick.work context = (none, worked, after))

include hrunning hwork

theorem step_of_end (hend : worked.advance.haltId.isSome ∧ worked.advance.slots.flights = []) :
    p.step context = (.ok .halted, { worked.advance with running := false }, after) := by
  unfold tick at hwork
  unfold Pipeline.step
  rw [if_pos hrunning, hwork]
  refine if_pos ?_
  rw [hend.1, Slots.isEmpty, hend.2]
  rfl

theorem step_of_running
    (hmore : ¬(worked.advance.haltId.isSome ∧ worked.advance.slots.flights = [])) :
    p.step context = (.ok .running, worked.advance.takeIn, after) := by
  unfold tick at hwork
  unfold Pipeline.step
  rw [if_pos hrunning, hwork]
  refine if_neg ?_
  simpa [Slots.isEmpty] using hmore

end Cycle

-- Without a run nothing happens.
theorem step_of_stopped [Storage σ] (h : p.running = false) :
    p.step context = (.ok .idle, p, context) := by
  rw [Pipeline.step, h]
  rfl

-- What every stage keeps is kept by a whole cycle, whether or not a fault cuts it short.

section Kept

variable [Storage σ]

-- The work of the last two stages, which the others find done when they begin.
def accessed (p : Pipeline) (context : Context σ) : Option Fault × Pipeline × Context σ :=
  (p.commitStage context).1.accessStage (p.commitStage context).2

variable {P : Pipeline → Context σ → Prop}

-- What the stages before them and the end of a cycle keep.
structure KeptBehind (P : Pipeline → Context σ → Prop) : Prop where
  counts : ∀ {p} context (clock : Nat) (running : Bool), P p context →
    P { p with clock := clock, running := running } context
  executeStage : ∀ {p p' context}, P p context →
    p.executeStage context.registers context.vectors = .ok p' → P p' context
  decodeStage : ∀ {p} context, P p context → P p.decodeStage context
  fetchStage : ∀ {p context}, P p context → P (p.fetchStage context).1 (p.fetchStage context).2
  advance : ∀ {p} context, P p context → P p.advance context
  takeIn : ∀ {p} context, P p context → P p.takeIn context

theorem work_keeps_accessed (h : P (p.accessed context).2.1 (p.accessed context).2.2)
    (hexecute : ∀ {p p' context}, P p context →
      p.executeStage context.registers context.vectors = .ok p' → P p' context)
    (hdecode : ∀ {p} context, P p context → P p.decodeStage context)
    (hfetch : ∀ {p context}, P p context → P (p.fetchStage context).1 (p.fetchStage context).2) :
    P (p.work context).2.1 (p.work context).2.2 := by
  rcases hcommit : p.commitStage context with ⟨committed, context'⟩
  rcases haccess : committed.accessStage context' with ⟨fault, accessed, context''⟩
  simp only [Pipeline.accessed, hcommit, haccess] at h
  cases fault with
  | some fault =>
      simp only [Pipeline.work, hcommit, haccess]
      exact h
  | none =>
      cases hresult : accessed.executeStage context''.registers context''.vectors with
      | error fault =>
          simp only [Pipeline.work, hcommit, haccess, hresult]
          exact h
      | ok executed =>
          simp only [Pipeline.work, hcommit, haccess, hresult]
          exact hfetch (hdecode context'' (hexecute h hresult))

theorem work_keeps (h : P (p.commitStage context).1 (p.commitStage context).2)
    (haccess : ∀ {p context}, P p context →
      P (p.accessStage context).2.1 (p.accessStage context).2.2)
    (hexecute : ∀ {p p' context}, P p context →
      p.executeStage context.registers context.vectors = .ok p' → P p' context)
    (hdecode : ∀ {p} context, P p context → P p.decodeStage context)
    (hfetch : ∀ {p context}, P p context → P (p.fetchStage context).1 (p.fetchStage context).2) :
    P (p.work context).2.1 (p.work context).2.2 :=
  work_keeps_accessed (haccess h) hexecute hdecode hfetch

theorem KeptBehind.tick (hkept : KeptBehind P) (context : Context σ) (h : P p context) :
    P p.tick context :=
  hkept.counts context (p.clock + 1) p.running h

theorem KeptBehind.step_of_work (hkept : KeptBehind P) (hrunning : p.running = true)
    (h : P (p.tick.work context).2.1 (p.tick.work context).2.2) :
    P (p.step context).2.1 (p.step context).2.2 := by
  rcases hwork : p.tick.work context with ⟨fault, worked, after⟩
  rw [hwork] at h
  cases fault with
  | some fault =>
      rw [step_of_fault hrunning hwork]
      exact hkept.counts after worked.clock false h
  | none =>
      by_cases hlast : worked.advance.haltId.isSome ∧ worked.advance.slots.flights = []
      · rw [step_of_end hrunning hwork hlast]
        exact hkept.counts after worked.advance.clock false (hkept.advance after h)
      · rw [step_of_running hrunning hwork hlast]
        exact hkept.takeIn after (hkept.advance after h)

theorem KeptBehind.step_of_accessed (hkept : KeptBehind P) (hrunning : p.running = true)
    (h : P (p.tick.accessed context).2.1 (p.tick.accessed context).2.2) :
    P (p.step context).2.1 (p.step context).2.2 :=
  hkept.step_of_work hrunning
    (work_keeps_accessed h hkept.executeStage hkept.decodeStage hkept.fetchStage)

structure Kept (P : Pipeline → Context σ → Prop) : Prop extends KeptBehind P where
  commitStage : ∀ {p context}, P p context → P (p.commitStage context).1 (p.commitStage context).2
  accessStage : ∀ {p context}, P p context →
    P (p.accessStage context).2.1 (p.accessStage context).2.2

namespace Kept

variable (hkept : Kept P)

include hkept

theorem accessed (h : P p context) : P (p.accessed context).2.1 (p.accessed context).2.2 :=
  hkept.accessStage (hkept.commitStage h)

theorem work (h : P p context) : P (p.work context).2.1 (p.work context).2.2 :=
  work_keeps_accessed (hkept.accessed h) hkept.executeStage hkept.decodeStage hkept.fetchStage

theorem step (h : P p context) : P (p.step context).2.1 (p.step context).2.2 := by
  by_cases hrunning : p.running = true
  · exact hkept.step_of_accessed hrunning (hkept.accessed (hkept.tick context h))
  · rw [step_of_stopped (Bool.eq_false_iff.mpr hrunning)]
    exact h

end Kept

end Kept

-- The work of the stages counts no cycle and retires nothing, and nothing enters Write Back or
-- leaves it.
structure SameRun (p p' : Pipeline) : Prop where
  clock_eq : p'.clock = p.clock
  retired_eq : p'.retired = p.retired
  pipelined_eq : p'.pipelined = p.pipelined
  running_eq : p'.running = p.running
  occupied_eq : p'.slots.writeBack.isSome = p.slots.writeBack.isSome

theorem SameRun.refl (p : Pipeline) : SameRun p p := ⟨rfl, rfl, rfl, rfl, rfl⟩

theorem SameRun.trans {p p' p'' : Pipeline} (h : SameRun p p') (h' : SameRun p' p'') :
    SameRun p p'' :=
  ⟨h'.clock_eq.trans h.clock_eq, h'.retired_eq.trans h.retired_eq,
    h'.pipelined_eq.trans h.pipelined_eq,
    h'.running_eq.trans h.running_eq, h'.occupied_eq.trans h.occupied_eq⟩

-- Only Fetch sees the word that halts and opens a branch, and only what comes in is given a number.
structure SameEntry (p q : Pipeline) : Prop where
  nextId_eq : q.nextId = p.nextId
  haltId_eq : q.haltId = p.haltId
  openBranch_eq : q.openBranch = p.openBranch

-- What a stage leaves as it is that works on the instruction in its slot. Fetch may come to the
-- word that halts, and to a branch, which stays open until Memory Access.
structure WorksIn (stage : Stage) (p q : Pipeline) : Prop extends SameRun p q where
  slot_eq : ∀ other, other ≠ stage → q.slots.slot other = p.slots.slot other
  nextId_eq : q.nextId = p.nextId
  haltId_eq : stage ≠ .fetch → q.haltId = p.haltId
  openBranch_eq : stage ≠ .fetch → stage ≠ .memory → q.openBranch = p.openBranch

namespace WorksIn

variable {stage : Stage} {p q : Pipeline}

theorem refl (stage : Stage) (p : Pipeline) : WorksIn stage p p :=
  ⟨.refl p, fun _ _ => rfl, rfl, fun _ => rfl, fun _ _ => rfl⟩

theorem entry (h : WorksIn stage p q) (hfetch : stage ≠ .fetch) (hmemory : stage ≠ .memory) :
    SameEntry p q :=
  ⟨h.nextId_eq, h.haltId_eq hfetch, h.openBranch_eq hfetch hmemory⟩

-- It puts the instruction back, or in Fetch lets it go.
theorem put (p : Pipeline) (stage : Stage) (hstage : stage ≠ .system) {slot : Option Flight}
    (hslot : stage = .writeBack → slot.isSome = p.slots.writeBack.isSome)
    {haltId openBranch : Option Nat} (hhalt : stage ≠ .fetch → haltId = p.haltId)
    (hopen : stage ≠ .fetch → stage ≠ .memory → openBranch = p.openBranch) :
    WorksIn stage p { p with
      slots := p.slots.put stage slot
      haltId := haltId
      openBranch := openBranch } := by
  have hothers (other : Stage) (hother : other ≠ stage) :
      (p.slots.put stage slot).slot other = p.slots.slot other :=
    (p.slots.slot_put stage hstage slot other).trans (if_neg hother)
  refine ⟨⟨rfl, rfl, rfl, rfl, ?_⟩, hothers, rfl, hhalt, hopen⟩
  by_cases hlast : stage = .writeBack
  · subst hlast
    exact hslot rfl
  · exact congrArg Option.isSome (hothers .writeBack (Ne.symm hlast))

end WorksIn

section Same

variable {σ : Type} (p : Pipeline) (context : Context σ)

theorem commitStage_works : WorksIn .writeBack p (p.commitStage context).1 := by
  rcases in_state_or_not (p.slots.slot .writeBack) .ready with ⟨f, hf, hready⟩ | hidle
  · have hslot : p.slots.writeBack = some f := hf
    rw [commitStage_of_ready hf hready]
    exact .put p .writeBack nofun (fun _ => by rw [hslot]; rfl) (fun _ => rfl) fun _ _ => rfl
  · rw [commitStage_of_idle hidle]
    exact .refl .writeBack p

theorem executeStage_works {p' : Pipeline} {registers : Registers} {vectors : VectorRegisters}
    (hresult : p.executeStage registers vectors = .ok p') : WorksIn .execute p p' := by
  rcases in_state_or_not (p.slots.slot .execute) .ready with ⟨f, hf, hready⟩ | hidle
  · rw [executeStage_of_ready hf hready] at hresult
    obtain ⟨f', -, rfl⟩ := ok_of_map hresult
    exact .put p .execute nofun nofun (fun _ => rfl) fun _ _ => rfl
  · rw [executeStage_of_idle hidle] at hresult
    obtain rfl := Except.ok.inj hresult
    exact .refl .execute p

theorem decodeStage_works : WorksIn .decode p p.decodeStage := by
  unfold decodeStage
  split
  · exact .refl .decode p
  · split
    · exact .put p .decode nofun nofun (fun _ => rfl) fun _ _ => rfl
    · exact ⟨⟨rfl, rfl, rfl, rfl, rfl⟩, fun _ _ => rfl, rfl, fun _ => rfl, fun _ _ => rfl⟩
    · exact .refl .decode p

variable [Storage σ]

theorem accessStage_works : WorksIn .memory p (p.accessStage context).2.1 := by
  rcases in_state_or_not (p.slots.slot .memory) .ready with ⟨f, hf, hready⟩ | hidle
  · rcases haccess : f.access context with ⟨fault, f', after⟩
    rw [accessStage_of_ready hf hready haccess]
    exact .put p .memory nofun nofun (fun _ => rfl) fun _ hmemory => absurd rfl hmemory
  · rw [accessStage_of_idle hidle]
    exact .refl .memory p

theorem fetchStage_works : WorksIn .fetch p (p.fetchStage context).1 := by
  unfold fetchStage
  split
  · exact .refl .fetch p
  · split
    · dsimp only
      split <;> exact .put p .fetch nofun nofun (fun hfetch => absurd rfl hfetch) fun hfetch _ =>
        absurd rfl hfetch
    · exact .refl .fetch p

theorem work_same : SameRun p (p.work context).2.1 :=
  work_keeps (P := fun q _ => SameRun p q) (p.commitStage_works context).toSameRun
    (fun h => h.trans (accessStage_works _ _).toSameRun)
    (fun h hresult => h.trans (executeStage_works _ hresult).toSameRun)
    (fun _ h => h.trans (decodeStage_works _).toSameRun)
      (fun h => h.trans (fetchStage_works _ _).toSameRun)

theorem slot_accessed (stage : Stage) (hwriteBack : stage ≠ .writeBack)
    (hmemory : stage ≠ .memory) :
    (p.accessed context).2.1.slots.slot stage = p.slots.slot stage :=
  ((accessStage_works _ _).slot_eq stage hmemory).trans
    ((p.commitStage_works context).slot_eq stage hwriteBack)

end Same

-- The end of a cycle moves the instructions and counts the one that retires.
theorem advance_eq (p : Pipeline) :
    p.advance = { p with slots := p.advance.slots, retired := p.advance.retired } := by
  unfold advance retire
  split
  · rfl
  · split <;> rfl

theorem advance_mode (p : Pipeline) : p.advance.pipelined = p.pipelined ∧
    p.advance.running = p.running := by
  rw [advance_eq]
  exact ⟨rfl, rfl⟩

theorem advance_clock (p : Pipeline) : p.advance.clock = p.clock := by rw [advance_eq]

theorem advance_entry (p : Pipeline) : SameEntry p p.advance := by
  rw [advance_eq]
  exact ⟨rfl, rfl, rfl⟩

theorem advance_retired (p : Pipeline) : p.advance.retired = p.retired ∨
    p.advance.retired = p.retired + 1 ∧ ∃ f, p.slots.slot .writeBack = some f ∧
    f.state = .completed := by
  rcases in_state_or_not (p.slots.slot .writeBack) .completed with ⟨f, hf, hstate⟩ | hunfinished
  · right
    unfold advance
    rw [retire_of_completed hf hstate]
    exact ⟨rfl, f, hf, hstate⟩
  · left
    unfold advance
    rw [retire_of_unfinished hunfinished]

theorem takeIn_same (p : Pipeline) : SameRun p p.takeIn := by
  rcases p.takeIn_cases with hsame | ⟨-, -, -, htaken⟩
  · rw [hsame]
    exact .refl p
  · rw [htaken]
    exact ⟨rfl, rfl, rfl, rfl, rfl⟩

-- A run stops with a cycle that does not answer that it goes on, and a fault retires nothing.

section Stop

variable {σ : Type} [Storage σ] {p p' : Pipeline} {context after : Context σ}
  (hrunning : p.running = true)

include hrunning

-- A cycle of a run is counted, it never finds nothing to do, and the run is over unless it answers
-- that it goes on.
theorem ticked_of_step {answer : Except Fault Message}
    (hresult : p.step context = (answer, p', after)) :
    p'.clock = p.clock + 1 ∧ answer ≠ .ok .idle ∧ (p'.running = true ↔ answer = .ok .running) := by
  have hsame := p.tick.work_same context
  rcases hwork : p.tick.work context with ⟨fault, worked, context'⟩
  rw [hwork] at hsame
  have hclock : worked.clock = p.clock + 1 := hsame.clock_eq
  cases fault with
  | some cause =>
      rw [step_of_fault hrunning hwork] at hresult
      obtain ⟨rfl, rfl, -⟩ := hresult
      exact ⟨hclock, nofun, nofun, nofun⟩
  | none =>
      by_cases hlast : worked.advance.haltId.isSome ∧ worked.advance.slots.flights = []
      · rw [step_of_end hrunning hwork hlast] at hresult
        obtain ⟨rfl, rfl, -⟩ := hresult
        exact ⟨worked.advance_clock.trans hclock, nofun, nofun, nofun⟩
      · rw [step_of_running hrunning hwork hlast] at hresult
        obtain ⟨rfl, rfl, -⟩ := hresult
        have hkept := worked.advance.takeIn_same
        refine ⟨hkept.clock_eq.trans (worked.advance_clock.trans hclock), nofun,
          fun _ => rfl, fun _ => ?_⟩
        rw [hkept.running_eq, worked.advance_mode.2, hsame.running_eq]
        exact hrunning

theorem stopped_of_step {answer : Except Fault Message}
    (hresult : p.step context = (answer, p', after)) (hend : answer ≠ .ok .running) :
    p'.running = false := by
  obtain ⟨-, -, hgoes⟩ := ticked_of_step hrunning hresult
  exact Bool.eq_false_iff.mpr fun hon => hend (hgoes.mp hon)

-- It ends when the word that halts has been seen and nobody is left.
theorem emptied_of_halted (hresult : p.step context = (.ok .halted, p', after)) :
    p'.haltId.isSome ∧ p'.slots.flights = [] := by
  rcases hwork : p.tick.work context with ⟨fault, worked, context'⟩
  cases fault with
  | some cause =>
      rw [step_of_fault hrunning hwork] at hresult
      cases (Prod.mk.inj hresult).1
  | none =>
      by_cases hlast : worked.advance.haltId.isSome ∧ worked.advance.slots.flights = []
      · rw [step_of_end hrunning hwork hlast] at hresult
        obtain ⟨-, rfl, -⟩ := hresult
        exact hlast
      · rw [step_of_running hrunning hwork hlast] at hresult
        cases (Prod.mk.inj hresult).1

theorem retired_of_fault {cause : Fault} (hresult : p.step context = (.error cause, p', after)) :
    p'.retired = p.retired := by
  rcases hwork : p.tick.work context with ⟨fault, worked, context'⟩
  cases fault with
  | some cause =>
      rw [step_of_fault hrunning hwork] at hresult
      obtain ⟨-, rfl, -⟩ := hresult
      have hsame := (p.tick.work_same context).retired_eq
      rw [hwork] at hsame
      exact hsame
  | none =>
      by_cases hlast : worked.advance.haltId.isSome ∧ worked.advance.slots.flights = []
      · rw [step_of_end hrunning hwork hlast] at hresult
        cases (Prod.mk.inj hresult).1
      · rw [step_of_running hrunning hwork hlast] at hresult
        cases (Prod.mk.inj hresult).1

end Stop

-- A cycle retires one at most, and that is the one that was in Write Back before.
theorem retired_step {σ : Type} [Storage σ] {p p' : Pipeline} {context after : Context σ}
    {answer : Except Fault Message} (hresult : p.step context = (answer, p', after)) :
    p'.pipelined = p.pipelined ∧ (p'.retired = p.retired ∨
      p'.retired = p.retired + 1 ∧ ∃ f, p.slots.slot .writeBack = some f) := by
  by_cases hrunning : p.running = true
  · rcases hwork : p.tick.work context with ⟨fault, worked, context'⟩
    have hsame := p.tick.work_same context
    rw [hwork] at hsame
    have hadvanced : worked.advance.pipelined = p.pipelined ∧ (worked.advance.retired = p.retired ∨
        worked.advance.retired = p.retired + 1 ∧ ∃ f, p.slots.slot .writeBack = some f) := by
      refine ⟨worked.advance_mode.1.trans hsame.pipelined_eq, ?_⟩
      obtain hnone | ⟨hone, f, hf, -⟩ := worked.advance_retired
      · exact .inl (hnone.trans hsame.retired_eq)
      · refine .inr ⟨hone.trans (congrArg (· + 1) hsame.retired_eq), Option.isSome_iff_exists.mp ?_⟩
        have hoccupied : p.slots.writeBack.isSome = worked.slots.writeBack.isSome :=
          hsame.occupied_eq.symm
        show p.slots.writeBack.isSome = true
        rw [hoccupied, show worked.slots.writeBack = some f from hf]
        rfl
    cases fault with
    | some cause =>
        rw [step_of_fault hrunning hwork] at hresult
        obtain ⟨-, rfl, -⟩ := hresult
        exact ⟨hsame.pipelined_eq, .inl hsame.retired_eq⟩
    | none =>
        by_cases hend : worked.advance.haltId.isSome ∧ worked.advance.slots.flights = []
        · rw [step_of_end hrunning hwork hend] at hresult
          obtain ⟨-, rfl, -⟩ := hresult
          exact hadvanced
        · rw [step_of_running hrunning hwork hend] at hresult
          obtain ⟨-, rfl, -⟩ := hresult
          have hkept := worked.advance.takeIn_same
          rw [hkept.pipelined_eq, hkept.retired_eq]
          exact hadvanced
  · unfold Pipeline.step at hresult
    rw [if_neg hrunning] at hresult
    obtain ⟨-, rfl, -⟩ := hresult
    exact ⟨rfl, .inl rfl⟩

end PipelinedProcessor.Pipeline
