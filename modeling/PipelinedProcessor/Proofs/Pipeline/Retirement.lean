import PipelinedProcessor.Proofs.Pipeline.Hazards

namespace PipelinedProcessor

open Flight

-- All registers as they were, but for the program counter.
structure Context.KeepsRegisters {σ : Type} (context after : Context σ) : Prop where
  vectors_eq : after.vectors = context.vectors
  read_eq : ∀ number, number ≠ Register.counter →
    after.registers.read number = context.registers.read number

namespace Context.KeepsRegisters

variable {σ : Type} {context after later : Context σ}

theorem refl (context : Context σ) : context.KeepsRegisters context := ⟨rfl, fun _ _ => rfl⟩

theorem trans (h : context.KeepsRegisters after) (h' : after.KeepsRegisters later) :
    context.KeepsRegisters later :=
  ⟨h'.vectors_eq.trans h.vectors_eq,
    fun number hne => (h'.read_eq number hne).trans (h.read_eq number hne)⟩

-- A write to the counter, and whatever is done to memory.
theorem of_counter (registers : Registers) (vectors : VectorRegisters) (memory memory' : σ)
    (w : Word) :
    (⟨registers, vectors, memory⟩ : Context σ).KeepsRegisters
      ⟨registers.write Register.counter w, vectors, memory'⟩ where
  vectors_eq := rfl
  read_eq number hne := by
    show (registers.write Register.counter w).read number = _
    rw [Registers.read_write, if_neg]
    rintro ⟨heq, -⟩
    exact hne heq.symm

theorem of_memory (context : Context σ) (memory : σ) :
    context.KeepsRegisters { context with memory := memory } :=
  ⟨rfl, fun _ _ => rfl⟩

end Context.KeepsRegisters

-- Memory Access and Fetch write no register themselves: a branch sets the counter, and a word that
-- was read moves it on.

section

variable {σ : Type} [Storage σ]

theorem Action.advance_keepsRegisters (action : Action) (context : Context σ) :
    context.KeepsRegisters (action.advance context).2.2 := by
  obtain ⟨registers, vectors, memory⟩ := context
  cases action with
  | branch cond target back =>
      simp only [Action.advance]
      split
      · exact .of_counter registers vectors memory memory _
      · exact .refl _
  | scalar op rd swapped flags first second => exact .of_memory _ _
  | load rd address => exact .of_memory _ _
  | store address w => exact .of_memory _ _
  | vectorLoad vd base length loaded => exact .of_memory _ _
  | vectorStore base data written => exact .of_memory _ _

theorem Flight.access_keepsRegisters (f : Flight) (context : Context σ) :
    context.KeepsRegisters (f.access context).2.2 := by
  rw [context_access]
  cases f.action with
  | none => exact .refl context
  | some action => exact action.advance_keepsRegisters context

theorem Flight.fetch_keepsRegisters (f : Flight) (context : Context σ) :
    context.KeepsRegisters (f.fetch context).2 := by
  rcases hread :
    Storage.read context.memory .fetch (f.target context.registers) with ⟨answer, memory⟩
  cases answer with
  | wait =>
      rw [fetch_of_wait hread]
      exact .of_memory context memory
  | done w =>
      rw [fetch_of_done hread]
      by_cases hhalt : w = Word.halt
      · simp only [hhalt, if_true]
        exact .of_memory context memory
      · simp only [hhalt, if_false]
        exact .of_counter context.registers context.vectors context.memory memory _

end

namespace Pipeline

-- The instruction whose results a cycle commits, if there is one.
def committing (p : Pipeline) : List Flight :=
  if p.running then p.slots.writeBack.toList.filter (·.state = .ready) else []

-- The numbers in flight, the oldest first.
def ids (p : Pipeline) : List Nat := (p.slots.flights.map Flight.id).reverse

-- The numbers that are gone from one state to another, but for the one of the word that halts.
def leaving (p p' : Pipeline) : List Nat :=
  p.ids.filter fun id => id ∉ p'.ids ∧ p'.haltId ≠ some id

-- The numbers of a row, from those retired on and without gaps.

theorem row_ids {retired : Nat} {fs : List Flight} (h : Row retired fs) :
    (fs.map Flight.id).reverse = List.range' retired fs.length := by
  induction fs with
  | nil => rfl
  | cons f older ih =>
      rw [List.map_cons, List.reverse_cons, ih h.2, h.1.id_eq,
        List.length_cons, List.range'_1_concat]

theorem WellFormed.ids_eq {p : Pipeline} (h : WellFormed p) :
    p.ids = List.range' p.retired p.slots.flights.length := row_ids h.row

theorem WellFormed.mem_ids {p : Pipeline} (h : WellFormed p) (id : Nat) :
    id ∈ p.ids ↔ p.retired ≤ id ∧ id < p.retired + p.slots.flights.length := by
  rw [h.ids_eq, List.mem_range'_1]

-- As nothing that was given a number loses it, what leaves are the oldest.
theorem WellFormed.leaving_eq {p p' : Pipeline} (h : WellFormed p) (h' : WellFormed p')
    (hnext : p.nextId ≤ p'.nextId) {count : Nat} (hcount : count ≤ p.slots.flights.length)
    (hretired : p'.retired = p.retired + count) : leaving p p' = List.range' p.retired count := by
  have hnextId := h.nextId_eq
  have hnextId' := h'.nextId_eq
  have hhalt (id : Nat) : p'.haltId = some id → id + 1 = p'.nextId :=
    fun heq => (h'.halting id heq).2
  have hlength : count + (p.slots.flights.length - count) = p.slots.flights.length := by omega
  rw [leaving, h.ids_eq, ← hlength, ← List.range'_append_1, List.filter_append]
  have hgone : (List.range' p.retired count).filter (fun id => id ∉ p'.ids ∧ p'.haltId ≠ some id) =
      List.range' p.retired count := by
    rw [List.filter_eq_self]
    intro id hid
    rw [List.mem_range'_1] at hid
    rw [decide_eq_true_eq, h'.mem_ids]
    refine ⟨by omega, ?_⟩
    intro heq
    have hlast := hhalt id heq
    rw [hnextId', heq] at hlast
    simp only [Option.elim_some] at hlast
    omega
  have hkept : (List.range' (p.retired + count) (p.slots.flights.length - count)).filter
      (fun id => id ∉ p'.ids ∧ p'.haltId ≠ some id) = [] := by
    rw [List.filter_eq_nil_iff]
    intro id hid
    rw [List.mem_range'_1] at hid
    rw [decide_eq_true_eq, h'.mem_ids, not_and, not_not]
    intro hout
    cases hhalts : p'.haltId with
    | none =>
        rw [hhalts] at hnextId'
        simp only [Option.elim_none] at hnextId'
        omega
    | some last =>
        have hlast := hhalt last hhalts
        rw [hhalts] at hnextId'
        simp only [Option.elim_some] at hnextId'
        congr 1
        omega
  rw [hgone, hkept, List.append_nil]

-- Numbers are given in order, and none after the word that halts was seen.
structure Later (p q : Pipeline) : Prop where
  wellFormed : WellFormed q
  nextId_le : p.nextId ≤ q.nextId
  haltId_eq : ∀ id, p.haltId = some id → q.haltId = some id

theorem Later.refl {p : Pipeline} (h : WellFormed p) : Later p p :=
  ⟨h, Nat.le_refl _, fun _ heq => heq⟩

theorem Later.of_same {p q r : Pipeline} (h : Later p q) (hwell : WellFormed r)
    (hnext : r.nextId = q.nextId) (hhalt : r.haltId = q.haltId) : Later p r :=
  ⟨hwell, hnext ▸ h.nextId_le, fun id heq => hhalt.trans (h.haltId_eq id heq)⟩

theorem Later.of_works {p q r : Pipeline} (h : Later p q) (hwell : WellFormed r) {stage : Stage}
    (hworks : WorksIn stage q r) (hfetch : stage ≠ .fetch) : Later p r :=
  h.of_same hwell hworks.nextId_eq (hworks.haltId_eq hfetch)

section

variable {σ : Type} [Storage σ]

theorem later_kept (p : Pipeline) : Kept fun q (_ : Context σ) => Later p q where
  counts _ clock running h := h.of_same (h.wellFormed.of_counts clock _ running) rfl rfl
  commitStage h := h.of_works (h.wellFormed.commitStage _) (commitStage_works _ _) nofun
  accessStage h := h.of_works (h.wellFormed.accessStage _) (accessStage_works _ _) nofun
  executeStage h hresult :=
    h.of_works (h.wellFormed.executeStage hresult) (executeStage_works _ hresult) nofun
  decodeStage _ h := h.of_works h.wellFormed.decodeStage (decodeStage_works _) nofun
  fetchStage {q context} h := by
    refine ⟨h.wellFormed.fetchStage context,
      (q.fetchStage_works context).nextId_eq.symm ▸ h.nextId_le, ?_⟩
    intro id heq
    -- once the word that halts was seen, nobody is in Fetch
    have hhalts := h.haltId_eq id heq
    have hfree : q.slots.slot .fetch = none := (h.wellFormed.halting id hhalts).1
    have hidle : ∀ f, q.slots.slot .fetch = some f → f.state ≠ .ready := by simp [hfree]
    rw [fetchStage_of_idle hidle]
    exact hhalts
  advance {q} _ h :=
    h.of_same h.wellFormed.advance q.advance_entry.nextId_eq q.advance_entry.haltId_eq
  takeIn {q} _ h := by
    have hwell := h.wellFormed.takeIn
    rcases q.takeIn_cases with hsame | ⟨-, -, -, htaken⟩
    · rw [hsame]
      exact h
    · rw [htaken] at hwell ⊢
      exact ⟨hwell, Nat.le_succ_of_le h.nextId_le, h.haltId_eq⟩

-- Between two cycles of a run nobody in Write Back is done.
def Unfinished (p : Pipeline) : Prop :=
  p.running = true → ∀ f, p.slots.slot .writeBack = some f → f.state ≠ .completed

theorem unfinished_advance (p : Pipeline) :
    ∀ f, p.advance.slots.slot .writeBack = some f → f.state ≠ .completed := by
  have hmove (slots : Slots) (hunfinished : ∀ f, slots.writeBack = some f → f.state ≠ .completed) :
      ∀ f, (moveOn slots).writeBack = some f → f.state ≠ .completed := by
    intro f hf
    replace hf : (passOn .writeBack slots.memory slots.writeBack).2 = some f := hf
    unfold passOn at hf
    split at hf
    · split at hf
      · obtain rfl := Option.some.inj hf
        exact nofun
      · cases hf
    · exact hunfinished f hf
  apply hmove
  intro f hf
  unfold Pipeline.retire at hf
  split at hf
  · rename_i hnone
    rw [hnone] at hf
    cases hf
  · rename_i g hg
    split at hf
    · cases hf
    · rename_i hstate
      obtain rfl := Option.some.inj (hg.symm.trans hf)
      exact hstate

theorem unfinished_start (pipelined : Bool) : (start pipelined).Unfinished := by
  intro _ f hf
  cases pipelined <;> cases hf

variable {p p' : Pipeline} {context after : Context σ} {answer : Except Fault Message}

theorem unfinished_step (h : p.Unfinished) (hresult : p.step context = (answer, p', after)) :
    p'.Unfinished := by
  by_cases hrunning : p.running = true
  · intro hon
    rcases hwork : p.tick.work context with ⟨fault, worked, context'⟩
    cases fault with
    | some cause =>
        rw [step_of_fault hrunning hwork] at hresult
        obtain ⟨-, rfl, -⟩ := hresult
        cases hon
    | none =>
        by_cases hlast : worked.advance.haltId.isSome ∧ worked.advance.slots.flights = []
        · rw [step_of_end hrunning hwork hlast] at hresult
          obtain ⟨-, rfl, -⟩ := hresult
          cases hon
        · rw [step_of_running hrunning hwork hlast] at hresult
          obtain ⟨-, rfl, -⟩ := hresult
          rcases worked.advance.takeIn_cases with hsame | ⟨-, -, -, htaken⟩
          · rw [hsame]
            exact worked.unfinished_advance
          · rw [htaken]
            simp only [Slots.slot_put _ .fetch nofun, reduceCtorEq, if_false]
            exact worked.unfinished_advance
  · rw [step_of_stopped (Bool.eq_false_iff.mpr hrunning)] at hresult
    obtain ⟨-, rfl, -⟩ := hresult
    exact h

-- What a cycle works on after it has committed the results of the oldest instruction.
def committed (p : Pipeline) (context : Context σ) : Context σ :=
  p.committing.foldl (fun context f => (f.commit context).2) context

omit [Storage σ] in
theorem commitStage_cases (context : Context σ) (hrunning : p.running = true) :
    (p.committing = [] ∧ p.tick.commitStage context = (p.tick, context)) ∨
      ∃ f, p.slots.slot .writeBack = some f ∧ f.state = .ready ∧ p.committing = [f] ∧
        p.tick.commitStage context =
          ({ p.tick with slots := p.slots.put .writeBack (some (f.commit context).1) },
            (f.commit context).2) := by
  rcases in_state_or_not (p.slots.slot .writeBack) .ready with ⟨f, hf, hready⟩ | hidle
  · right
    have hslot : p.slots.writeBack = some f := hf
    refine ⟨f, hf, hready, ?_, commitStage_of_ready hf hready⟩
    simp [committing, hrunning, hslot, hready]
  · left
    refine ⟨?_, commitStage_of_idle hidle⟩
    rw [committing, if_pos hrunning, List.filter_eq_nil_iff]
    intro f hf
    have hslot : p.slots.writeBack = some f := by simpa using hf
    simpa using hidle f hslot

omit [Storage σ] in
theorem committed_eq (context : Context σ) (hrunning : p.running = true) :
    p.committed context = (p.tick.commitStage context).2 := by
  rcases commitStage_cases context hrunning with ⟨hnone, hcommit⟩ | ⟨f, -, -, hone, hcommit⟩
  · rw [committed, hnone, hcommit]
    rfl
  · rw [committed, hone, hcommit]
    rfl

-- Memory Access and Fetch write nothing but the counter.

theorem accessStage_keepsRegisters (p : Pipeline) (context : Context σ) :
    context.KeepsRegisters (p.accessStage context).2.2 := by
  unfold accessStage
  split
  · exact .refl context
  · split
    · exact access_keepsRegisters _ context
    · exact .refl context

theorem fetchStage_keepsRegisters (p : Pipeline) (context : Context σ) :
    context.KeepsRegisters (p.fetchStage context).2 := by
  unfold fetchStage
  split
  · exact .refl context
  · split
    · dsimp only
      split <;> exact fetch_keepsRegisters _ context
    · exact .refl context

-- The stages before the last one leave it alone.
theorem work_last :
    (p.work context).2.1.slots.writeBack = (p.commitStage context).1.slots.writeBack ∧
    (p.commitStage context).2.KeepsRegisters (p.work context).2.2 := by
  refine work_keeps (P := fun q later => q.slots.writeBack =
    (p.commitStage context).1.slots.writeBack ∧
    (p.commitStage context).2.KeepsRegisters later) ⟨rfl, .refl _⟩ ?_ ?_ ?_ ?_
  · rintro q later ⟨hlast, hkeeps⟩
    exact ⟨((q.accessStage_works later).slot_eq .writeBack nofun).trans hlast,
      hkeeps.trans (q.accessStage_keepsRegisters later)⟩
  · rintro q q' later ⟨hlast, hkeeps⟩ hresult
    exact ⟨((q.executeStage_works hresult).slot_eq .writeBack nofun).trans hlast, hkeeps⟩
  · rintro q later ⟨hlast, hkeeps⟩
    exact ⟨(q.decodeStage_works.slot_eq .writeBack nofun).trans hlast, hkeeps⟩
  · rintro q later ⟨hlast, hkeeps⟩
    exact ⟨((q.fetchStage_works later).slot_eq .writeBack nofun).trans hlast,
      hkeeps.trans (q.fetchStage_keepsRegisters later)⟩

-- What a cycle does to the oldest instruction. Its results are committed first, and unless a fault
-- stops the run it retires with them.
structure Cycled (p : Pipeline) (context : Context σ) (answer : Except Fault Message)
    (p' : Pipeline) (after : Context σ) : Prop where
  later : Later p p'
  unfinished : p'.Unfinished
  keeps : (p.committed context).KeepsRegisters after
  retired_of_ok : ∀ message, answer = .ok message → p'.retired = p.retired + p.committing.length
  retired_of_error : ∀ cause, answer = .error cause → p'.retired = p.retired

theorem advance_retired_of_committing (context : Context σ) (hunfinished : p.Unfinished)
    (hrunning : p.running = true) :
    (p.tick.work context).2.1.advance.retired = p.retired + p.committing.length := by
  have hsame : (p.tick.work context).2.1.retired = p.retired :=
    (p.tick.work_same context).retired_eq
  have hlast : (p.tick.work context).2.1.slots.writeBack =
      (p.tick.commitStage context).1.slots.writeBack :=
    work_last.1
  generalize (p.tick.work context).2.1 = worked at hsame hlast ⊢
  unfold Pipeline.advance
  rcases commitStage_cases context hrunning with ⟨hnone, hcommit⟩ | ⟨f, hf, -, hone, hcommit⟩
  · rw [hcommit] at hlast
    have hidle : ∀ g, worked.slots.slot .writeBack = some g → g.state ≠ .completed := by
      intro g hg
      exact hunfinished hrunning g (hlast.symm.trans hg)
    rw [retire_of_unfinished hidle, hnone]
    exact hsame
  · rw [hcommit] at hlast
    have hdone : worked.slots.slot .writeBack = some (f.commit context).1 := hlast
    rw [retire_of_completed hdone rfl, hone]
    exact congrArg (· + 1) hsame

theorem cycled_of_step (h : WellFormed p) (hunfinished : p.Unfinished)
    (hresult : p.step context = (answer, p', after)) : Cycled p context answer p' after := by
  have hlater : Later p p' := by
    have hkept : Later p (p.step context).2.1 :=
      (later_kept p).step (.refl h)
    rwa [hresult] at hkept
  have hafter := unfinished_step hunfinished hresult
  by_cases hrunning : p.running = true
  · have hretired := advance_retired_of_committing context hunfinished hrunning
    have hkeeps : (p.committed context).KeepsRegisters (p.tick.work context).2.2 :=
      committed_eq context hrunning ▸ work_last.2
    rcases hwork : p.tick.work context with ⟨fault, worked, context'⟩
    rw [hwork] at hretired hkeeps
    cases fault with
    | some cause =>
        have hsame := retired_of_fault hrunning (step_of_fault hrunning hwork)
        rw [step_of_fault hrunning hwork] at hresult
        obtain ⟨rfl, rfl, rfl⟩ := hresult
        exact ⟨hlater, hafter, hkeeps, nofun, fun _ _ => hsame⟩
    | none =>
        by_cases hlast : worked.advance.haltId.isSome ∧ worked.advance.slots.flights = []
        · rw [step_of_end hrunning hwork hlast] at hresult
          obtain ⟨rfl, rfl, rfl⟩ := hresult
          exact ⟨hlater, hafter, hkeeps, fun _ _ => hretired, nofun⟩
        · rw [step_of_running hrunning hwork hlast] at hresult
          obtain ⟨rfl, rfl, rfl⟩ := hresult
          exact ⟨hlater, hafter, hkeeps,
            fun _ _ => worked.advance.takeIn_same.retired_eq.trans hretired, nofun⟩
  · have hnone : p.committing = [] := if_neg hrunning
    rw [step_of_stopped (Bool.eq_false_iff.mpr hrunning)] at hresult
    obtain ⟨rfl, rfl, rfl⟩ := hresult
    refine ⟨hlater, hafter, ?_, fun _ _ => ?_, nofun⟩
    · rw [committed, hnone]
      exact .refl context
    · rw [hnone]
      rfl

-- At most one instruction commits in a cycle, and it is the oldest.
theorem WellFormed.committing_eq (h : WellFormed p) :
    p.committing.map Flight.id = List.range' p.retired p.committing.length ∧
    p.committing.length ≤ 1 ∧
      p.committing.length ≤ p.slots.flights.length := by
  unfold committing
  split
  · cases hslot : p.slots.writeBack with
    | none => exact ⟨rfl, Nat.zero_le 1, Nat.zero_le _⟩
    | some f =>
        have hid : f.id = p.retired :=
          (h.fits (show p.slots.slot .writeBack = some f from hslot)).id_eq
        have hlength : 0 < p.slots.flights.length :=
          List.length_pos_of_mem (Slots.mem_flights.mpr ⟨.writeBack, hslot⟩)
        by_cases hready : f.state = .ready
        · simp [hready, hid]
          omega
        · simp [hready]
  · exact ⟨rfl, Nat.zero_le 1, Nat.zero_le _⟩

end

end Pipeline

end PipelinedProcessor
