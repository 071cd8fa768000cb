import PipelinedProcessor.Proofs.Flight.Moves
import PipelinedProcessor.Proofs.Memory.Storage

namespace PipelinedProcessor

-- An instruction that has read its operands, seen as a whole: what it writes to registers at the
-- end, the memory it leaves, and where it jumps to.
structure Outcome where
  writes : List RegisterWrite
  memory : MemoryView
  jump : Option Nat

namespace RegisterWrite

def apply (write : RegisterWrite) (s : ArchState) : ArchState :=
  match write with
  | scalar number w => s.write number w
  | vector number slots => s.writeVector number slots
  | append number w => { s with vectors := s.vectors.append number w }

-- The register that changes.
def target : RegisterWrite → Register
  | scalar number _ => .scalar number
  | vector number _ => .vector number
  | append number _ => .vector number

end RegisterWrite

namespace Outcome

def prepend (results : List RegisterWrite) (outcome : Outcome) : Outcome :=
  { outcome with writes := results ++ outcome.writes }

def jumped (outcome : Outcome) (registers : Registers) : Registers :=
  outcome.jump.elim registers registers.setCounter

-- First the jump, then the results.
def apply (outcome : Outcome) (s : ArchState) : ArchState :=
  outcome.writes.foldl (fun s write => write.apply s)
    { s with registers := outcome.jumped s.registers, memory := outcome.memory }

end Outcome

def Source.word (view : MemoryView) : Source → Word
  | .value w => w
  | .deref address => view address

namespace Action

-- What is left of an action, done at once.
def outcome (capacity : Nat) (holds : Condition → Bool) (view : MemoryView) :
    Action → Except Fault Outcome
  | scalar op rd swapped flags first second =>
    (op.results rd swapped flags (first.word view) (second.word view)).map fun writes =>
      ⟨writes, view, none⟩
  | load rd address => .ok ⟨[.scalar rd (view address)], view, none⟩
  | store address w => .ok ⟨[], view.put capacity address w, none⟩
  | vectorLoad vd base length loaded =>
    .ok ⟨[.vector vd (loaded ++ (List.range (length - loaded.length)).map fun i =>
      some (view (base + loaded.length + i)))], view, none⟩
  | vectorStore base data written =>
    .ok ⟨[], view.putAll capacity (base + written) (data.drop written), none⟩
  | branch cond target back =>
    .ok (if holds cond then ⟨(back.map fun w => .scalar Register.link w).toList, view, some target⟩
      else ⟨[], view, none⟩)

-- Where an action may still write to memory.
def StoresTo (capacity : Nat) (action : Action) (address : Nat) : Prop :=
  match action with
  | store place _ => address % capacity = place % capacity
  | vectorStore base data written =>
    ∃ i, written ≤ i ∧ i < data.length ∧ address % capacity = (base + i) % capacity
  | _ => False

theorem outcome_memory {capacity : Nat} {holds : Condition → Bool} {view : MemoryView}
    {action : Action} {outcome : Outcome} (h : action.outcome capacity holds view = .ok outcome)
    {address : Nat} (hn : ¬action.StoresTo capacity address) :
    outcome.memory address = view address := by
  cases action with
  | scalar op rd swapped flags first second =>
      cases hresults : op.results rd swapped flags (first.word view) (second.word view) with
      | error fault =>
          rw [Action.outcome, hresults] at h
          cases h
      | ok writes =>
          rw [Action.outcome, hresults] at h
          obtain rfl := Except.ok.inj h
          rfl
  | load rd place =>
      obtain rfl := Except.ok.inj h
      rfl
  | store place w =>
      obtain rfl := Except.ok.inj h
      exact if_neg hn
  | vectorLoad vd base length loaded =>
      obtain rfl := Except.ok.inj h
      rfl
  | vectorStore base data written =>
      obtain rfl := Except.ok.inj h
      refine MemoryView.putAll_of_ne ?_
      intro i hi heq
      rw [List.length_drop] at hi
      exact hn ⟨written + i, by omega, by omega, by rw [heq, Nat.add_assoc]⟩
  | branch cond target back =>
      obtain rfl := Except.ok.inj h
      split <;> rfl

-- Tries of an action.

section Tries

variable {σ : Type} [Storage σ] [LawfulStorage σ]

open LawfulStorage

-- A memory after a try that has not changed what is seen.
structure Quiet (before after : σ) : Prop where
  sound : Sound after
  capacity_eq : capacity after = capacity before
  view_eq : view after = view before

theorem Quiet.refl {memory : σ} (h : Sound memory) : Quiet memory memory := ⟨h, rfl, rfl⟩

theorem quiet_of_wait {access : Access} {memory after : σ} (hsound : Sound memory)
    (hwait : access.attempt memory .memory = (false, after)) : Quiet memory after := by
  cases access with
  | read address =>
      rcases hread : Storage.read memory .memory address with ⟨answer, memory'⟩
      obtain ⟨hsound', hcapacity, hview, -⟩ := read_sound hsound hread
      obtain ⟨-, rfl⟩ := Prod.mk.inj ((attempt_read hread).symm.trans hwait)
      exact ⟨hsound', hcapacity, hview⟩
  | store address w =>
      rcases hstore : Storage.store memory .memory address w with ⟨answer, memory'⟩
      obtain ⟨hsound', hcapacity, hview⟩ := store_sound hsound hstore
      obtain ⟨hdone, rfl⟩ := Prod.mk.inj ((attempt_store hstore).symm.trans hwait)
      cases answer with
      | wait => exact ⟨hsound', hcapacity, hview⟩
      | done _ => cases hdone
  | writePartial address data =>
      rcases hwrite : Storage.writePartial memory .memory address data with ⟨answer, memory'⟩
      obtain ⟨hsound', hcapacity, hview, -⟩ := writePartial_sound hsound hwrite
      obtain ⟨hdone, rfl⟩ := Prod.mk.inj ((attempt_writePartial hwrite).symm.trans hwait)
      cases answer with
      | wait => exact ⟨hsound', hcapacity, hview⟩
      | done _ => cases hdone

-- The progress of a try that concerns memory alone. One that waits leaves an action with the same
-- outcome.
def Answers (capacity : Nat) (holds : Condition → Bool) (action : Action) (before : MemoryView)
    (progress : Progress) (next : Action) (after : MemoryView) : Prop :=
  match progress with
  | .waiting => next.outcome capacity holds after = action.outcome capacity holds before ∧
    ∀ address, next.StoresTo capacity address → action.StoresTo capacity address
  | .finished writes => action.outcome capacity holds before = .ok ⟨writes, after, none⟩
  | .faulted fault => action.outcome capacity holds before = .error fault

-- What such a try comes to.
structure Attempt (holds : Condition → Bool) (action : Action) (memory : σ) (progress : Progress)
    (next : Action) (after : σ) : Prop where
  sound : Sound after
  capacity_eq : capacity after = capacity memory
  frame : ∀ address, ¬action.StoresTo (capacity memory) address →
    view after address = view memory address
  answers : action.Answers (capacity memory) holds (view memory) progress next (view after)

-- Most actions only look at memory.
theorem Attempt.of_quiet {holds : Condition → Bool} {action next : Action} {memory after : σ}
    {progress : Progress} (h : Quiet memory after)
    (hanswers : action.Answers (capacity memory) holds (view memory) progress next (view memory)) :
    Attempt holds action memory progress next after := by
  refine ⟨h.sound, h.capacity_eq, ?_, ?_⟩
  · intro address _
    rw [h.view_eq]
  · rw [h.view_eq]
    exact hanswers

theorem Attempt.trans {holds : Condition → Bool} {action middle next : Action}
    {memory memory' after : σ} {progress : Progress}
    (h : Attempt holds action memory .waiting middle memory')
    (h' : Attempt holds middle memory' progress next after) :
    Attempt holds action memory progress next after := by
  obtain ⟨hsame, hstores⟩ := h.answers
  have hanswers := h'.answers
  rw [h.capacity_eq] at hanswers
  refine ⟨h'.sound, h'.capacity_eq.trans h.capacity_eq, ?_, ?_⟩
  · intro address hn
    have hn' : ¬middle.StoresTo (capacity memory') address := by
      rw [h.capacity_eq]
      exact fun hstore => hn (hstores address hstore)
    exact (h'.frame address hn').trans (h.frame address hn)
  · cases progress with
    | waiting =>
        exact ⟨hanswers.1.trans hsame, fun address hstore =>
          hstores address (hanswers.2 address hstore)⟩
    | finished writes => exact hsame.symm.trans hanswers
    | faulted fault => exact hsame.symm.trans hanswers

section Attempt

variable (holds : Condition → Bool) {memory after : σ} {next : Action} {progress : Progress}
  (hsound : Sound memory)

omit [Storage σ] [LawfulStorage σ] in
-- The word that is read now and those that are still to be read are the words from where the last
-- try ended.
theorem outcome_of_loaded {vd base length capacity : Nat} {loaded : List Slot} {seen : MemoryView}
    (hlt : loaded.length < length) :
    (vectorLoad vd base length (loaded ++ [some (seen (base + loaded.length))])).outcome
      capacity holds seen =
      (vectorLoad vd base length loaded).outcome capacity holds seen := by
  have hsplit : length - loaded.length = length - (loaded.length + 1) + 1 := by omega
  rw [outcome, outcome, List.length_append, List.length_singleton, hsplit,
    List.range_succ_eq_map, List.map_cons, List.map_map, List.append_assoc, List.singleton_append]
  congr 6
  refine List.map_congr_left fun i _ => ?_
  have hplace : base + (loaded.length + 1) + i = base + loaded.length + i.succ := by omega
  rw [Function.comp_apply, hplace]

include hsound

-- As far as words are concerned, what an access has done and what is left of the action make up the
-- action.
theorem Attempt.of_move {action : Action} (h : action.Moves memory next after) :
    Attempt holds action memory .waiting next after := by
  cases h with
  | first hread =>
      obtain ⟨hsound', hcapacity, hview, hanswer⟩ := read_sound hsound hread
      refine .of_quiet ⟨hsound', hcapacity, hview⟩ ⟨?_, fun _ => id⟩
      simp only [outcome, Source.word, hanswer _ rfl]
  | second hread =>
      obtain ⟨hsound', hcapacity, hview, hanswer⟩ := read_sound hsound hread
      refine .of_quiet ⟨hsound', hcapacity, hview⟩ ⟨?_, fun _ => id⟩
      simp only [outcome, Source.word, hanswer _ rfl]
  | loaded hlt hread =>
      obtain ⟨hsound', hcapacity, hview, hanswer⟩ := read_sound hsound hread
      obtain rfl := hanswer _ rfl
      exact .of_quiet ⟨hsound', hcapacity, hview⟩ ⟨outcome_of_loaded holds hlt, fun _ => id⟩
  | @written base written count data _ _ hlt hpos hwrite =>
      obtain ⟨hsound', hcapacity, hview, hcount⟩ := writePartial_sound hsound hwrite
      obtain ⟨hle, -⟩ := hcount count rfl
      have hlength : ((data.drop written).take count).length = count := List.length_take_of_le hle
      rw [List.length_drop] at hle
      dsimp only at hview
      refine ⟨hsound', hcapacity, ?_, ?_, ?_⟩
      · intro address hn
        rw [hview]
        refine MemoryView.putAll_of_ne ?_
        intro i hi heq
        rw [hlength] at hi
        exact hn ⟨written + i, by omega, by omega, by rw [heq, Nat.add_assoc]⟩
      · have hsplit := MemoryView.putAll_append (capacity memory) (view memory) (base + written)
          ((data.drop written).take count) ((data.drop written).drop count)
        rw [List.take_append_drop, hlength, List.drop_drop] at hsplit
        simp only [outcome, hview, hsplit, Nat.add_assoc]
      · rintro address ⟨i, hi, hlength, heq⟩
        exact ⟨i, by omega, hlength, heq⟩

theorem Attempt.of_end {action : Action} (h : action.Ends memory progress after)
    (hbranch : ∀ cond target back, action ≠ branch cond target back) :
    Attempt holds action memory progress action after := by
  cases h with
  | waits haccess hwait => exact .of_quiet (quiet_of_wait hsound hwait) ⟨rfl, fun _ => id⟩
  | calculated hresults =>
      refine .of_quiet (.refl hsound) ?_
      simp only [Answers, outcome, Source.word, hresults]
      rfl
  | failed hresults =>
      refine .of_quiet (.refl hsound) ?_
      simp only [Answers, outcome, Source.word, hresults]
      rfl
  | loaded hread =>
      obtain ⟨hsound', hcapacity, hview, hanswer⟩ := read_sound hsound hread
      obtain rfl := hanswer _ rfl
      exact .of_quiet ⟨hsound', hcapacity, hview⟩ rfl
  | stored hstore =>
      obtain ⟨hsound', hcapacity, hview⟩ := store_sound hsound hstore
      refine ⟨hsound', hcapacity, ?_, ?_⟩
      · intro other hn
        rw [hview]
        exact if_neg hn
      · rw [Answers, hview]
        rfl
  | allLoaded hall =>
      refine .of_quiet (.refl hsound) ?_
      rw [Answers, outcome, Nat.sub_eq_zero_of_le hall, List.range_zero,
        List.map_nil, List.append_nil]
  | allWritten hall =>
      refine ⟨hsound, rfl, fun _ _ => rfl, ?_⟩
      rw [Answers, outcome, List.drop_eq_nil_of_le hall]
      rfl
  | stuck hlt hwrite =>
      obtain ⟨-, -, -, hcount⟩ := writePartial_sound hsound hwrite
      obtain ⟨-, hpos⟩ := hcount 0 rfl
      exact absurd (hpos (by rw [List.length_drop]; omega)) (Nat.lt_irrefl 0)
  | branch => exact absurd rfl (hbranch _ _ _)

theorem Attempt.of_goes {action : Action} (h : action.Goes memory progress next after)
    (hbranch : ∀ cond target back, action ≠ branch cond target back) :
    Attempt holds action memory progress next after := by
  induction h with
  | ends h => exact .of_end holds hsound h hbranch
  | moves hmove _ ih =>
      have hfirst := Attempt.of_move holds hsound hmove
      exact hfirst.trans (ih hfirst.sound fun cond target back heq => by cases hmove <;> cases heq)

end Attempt

-- The same with the registers. A branch needs the flags to be those that it is to be decided by.
theorem advance_spec (holds : Condition → Bool) {action next : Action} {context after : Context σ}
    {progress : Progress} (hsound : Sound context.memory)
    (h : action.advance context = (progress, next, after))
    (hholds : ∀ cond target back, action = branch cond target back →
      holds cond = context.registers.holds cond) :
    Sound after.memory ∧ capacity after.memory = capacity context.memory ∧
      after.vectors = context.vectors ∧
      (∀ address, ¬action.StoresTo (capacity context.memory) address →
        view after.memory address = view context.memory address) ∧
      match progress with
      | .waiting => after.registers = context.registers ∧
        next.outcome (capacity context.memory) holds (view after.memory) =
          action.outcome (capacity context.memory) holds (view context.memory) ∧
        ∀ address, next.StoresTo (capacity context.memory) address →
          action.StoresTo (capacity context.memory) address
      | .finished writes => ∃ outcome : Outcome,
        action.outcome (capacity context.memory) holds (view context.memory) = .ok outcome ∧
        outcome.writes = writes ∧ outcome.memory = view after.memory ∧
        after.registers = outcome.jumped context.registers
      | .faulted fault =>
        action.outcome (capacity context.memory) holds (view context.memory) = .error fault := by
  cases tried_of_advance h with
  | @jumps cond target back _ htaken =>
      refine ⟨hsound, rfl, rfl, fun _ _ => rfl, _, rfl, ?_⟩
      rw [hholds cond target back rfl, if_pos htaken]
      exact ⟨rfl, rfl, rfl⟩
  | @stays cond target back _ huntaken =>
      refine ⟨hsound, rfl, rfl, fun _ _ => rfl, _, rfl, ?_⟩
      rw [hholds cond target back rfl, huntaken, if_neg (by decide)]
      exact ⟨rfl, rfl, rfl⟩
  | goes hother hgoes =>
      obtain ⟨hsound', hcapacity, hframe, hanswers⟩ := Attempt.of_goes holds hsound hgoes hother
      refine ⟨hsound', hcapacity, rfl, hframe, ?_⟩
      cases progress with
      | waiting => exact ⟨rfl, hanswers⟩
      | finished writes => exact ⟨_, hanswers, rfl, rfl, rfl⟩
      | faulted fault => exact hanswers

end Tries

end Action

end PipelinedProcessor
