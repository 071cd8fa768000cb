import PipelinedProcessor.Proofs.Architecture.Course
import PipelinedProcessor.Proofs.Flight.Stages

namespace PipelinedProcessor

open LawfulStorage

-- What a program could tell of the machine if it were stopped now.
def Context.state {σ : Type} [Storage σ] [LawfulStorage σ] (context : Context σ) : ArchState :=
  ⟨context.registers, context.vectors, view context.memory⟩

namespace Flight

-- What an instruction comes to if the rest of its action is done at once.
def outcome (capacity : Nat) (holds : Condition → Bool) (view : MemoryView) (f : Flight) :
    Except Fault Outcome :=
  match f.action with
  | none => .ok ⟨f.results, view, none⟩
  | some todo => (todo.outcome capacity holds view).map (·.prepend f.results)

-- What is left to do on this memory gives the outcome that the instruction has in the state `t`.
structure Promises (capacity : Nat) (t : ArchState) (view : MemoryView) (f : Flight) : Prop where
  outcome_eq : f.outcome capacity t.stepped.registers.holds view = t.staged capacity
  stores : ∀ todo, f.action = some todo → ∀ x, todo.StoresTo capacity x →
    ∃ y ∈ t.storeTargets, x % capacity = y % capacity
  tests : ∀ todo cond, f.action = some todo → todo.tests? = some cond → cond.flag?.isSome →
    .scalar Register.flags ∈ t.instr.reads

-- A flight that carries out the instruction of the state `t`, up to where it has come. From Execute
-- on that takes some certainty of finding its operands. While it is in Memory Access its action is
-- half done, so that it is seen with the memory as it is now.
structure Follows (capacity : Nat) (now : MemoryView) (t : ArchState) (certain : Prop)
    (f : Flight) : Prop where
  asked : ∀ a, f.address = some a → a = t.address
  fetched : 1 ≤ f.progress → f.address = some t.address ∧ f.raw = some t.word
  executed : certain → f.progress = 5 → f.Promises capacity t t.memory
  accessing : certain → f.progress = 6 → f.Promises capacity t now
  served : certain → 7 ≤ f.progress → ∃ outcome, t.staged capacity = .ok outcome ∧
    (f.progress ≤ 8 → f.results = outcome.writes)

variable {capacity : Nat} {now : MemoryView} {t : ArchState} {certain : Prop} {f f' : Flight}

theorem outcome_of_none {holds : Condition → Bool} (h : f.action = none) :
    f.outcome capacity holds now = .ok ⟨f.results, now, none⟩ := by
  simp only [outcome, h]

theorem outcome_of_some {holds : Condition → Bool} {todo : Action} (h : f.action = some todo) :
    f.outcome capacity holds now = (todo.outcome capacity holds now).map (·.prepend f.results) := by
  simp only [outcome, h]

-- A flight that has just read its operands.

theorem outcome_take {holds : Condition → Bool} (haction : f.action = none)
    (hresults : f.results = []) (work : Work) :
    (f.take work).outcome capacity holds now = work.outcome capacity holds now := by
  cases work with
  | nothing =>
      rw [take, outcome_of_none haction, hresults]
      rfl
  | results writes => exact outcome_of_none haction
  | action todo =>
      have htodo : (f.take (.action todo)).action = some todo := rfl
      rw [outcome_of_some htodo, show (f.take (.action todo)).results = [] from hresults]
      show _ = todo.outcome capacity holds now
      cases todo.outcome capacity holds now <;> rfl

theorem action_take {work : Work} {todo : Action} (haction : f.action = none)
    (h : (f.take work).action = some todo) : work = .action todo := by
  cases work with
  | nothing =>
      rw [show (f.take .nothing).action = f.action from rfl, haction] at h
      cases h
  | results writes =>
      rw [show (f.take (.results writes)).action = f.action from rfl, haction] at h
      cases h
  | action other =>
      obtain rfl := Option.some.inj h
      rfl

section Execute

variable {s : ArchState} (hagrees : ∀ r ∈ t.instr.reads, s.Agrees t.stepped r)

include hagrees

theorem staged_eq :
    t.staged capacity = (t.instr.work t.address s.registers s.vectors).bind fun work =>
    work.outcome capacity t.stepped.registers.holds t.memory :=
  (Instruction.work_congr t.legal_instr hagrees).symm

variable (hinstr : f.instr = some t.instr) (haddress : f.address = some t.address)

include hinstr haddress

theorem staged_of_execute_error {fault : Fault}
    (hresult : f.execute s.registers s.vectors = .error fault) :
    t.staged capacity = .error fault := by
  rw [execute_of_known hinstr, haddress, Option.getD_some] at hresult
  rw [staged_eq hagrees]
  cases hwork : t.instr.work t.address s.registers s.vectors with
  | ok work =>
      rw [hwork] at hresult
      cases hresult
  | error other =>
      rw [hwork] at hresult
      obtain rfl := Except.error.inj hresult
      rfl

theorem promises_of_execute (haction : f.action = none) (hresults : f.results = [])
    (hresult : f.execute s.registers s.vectors = .ok f') :
    f'.Promises capacity t t.memory ∧ f'.address = f.address ∧ f'.raw = f.raw := by
  rw [execute_of_known hinstr, haddress, Option.getD_some] at hresult
  obtain ⟨work, hwork, rfl⟩ := ok_of_map hresult
  have hwithin := Instruction.work_within t.legal_instr hwork
  have hsame : (f.take work).address = f.address := by
    cases work <;> rfl
  refine ⟨⟨?_, ?_, ?_⟩, hsame, (take_face f work).2.1⟩
  · show (f.take work).outcome capacity t.stepped.registers.holds t.memory = _
    rw [outcome_take haction hresults, staged_eq hagrees, hwork]
    rfl
  · intro todo htodo x hx
    obtain rfl := action_take haction htodo
    have htargets : s.targets t.instr = t.storeTargets := Instruction.targets_congr hagrees
    exact htargets ▸ hwithin.targets hx
  · intro todo cond htodo hcond hflag
    obtain rfl := action_take haction htodo
    exact hwithin.flags rfl hcond hflag

end Execute

-- A condition looks at the flags, if at anything.
theorem holds_congr {registers registers' : Registers} {cond : Condition}
    (h : cond.flag?.isSome → registers'.read Register.flags = registers.read Register.flags) :
    registers'.holds cond = registers.holds cond := by
  unfold Registers.holds
  cases hflag : cond.flag? with
  | none => rfl
  | some i => rw [h (by rw [hflag]; rfl)]

section Access

variable {σ : Type} [Storage σ]

theorem tests_of_goes {memory after : σ} {todo next : Action} {progress : Progress}
    (h : todo.Goes memory progress next after) : next.tests? = todo.tests? := by
  induction h with
  | ends => rfl
  | moves hmove _ ih => cases hmove <;> exact ih

-- What a try makes of an action keeps the condition that it tests.
theorem tests_advance {context after : Context σ} {todo next : Action} {progress : Progress}
    (h : todo.advance context = (progress, next, after)) : next.tests? = todo.tests? := by
  cases Action.tried_of_advance h with
  | jumps | stays => rfl
  | goes _ hgoes => exact tests_of_goes hgoes

variable [LawfulStorage σ]

-- What a try in Memory Access comes to: it faults as the instruction does, or it leaves as much to
-- do as there was before, or it is the last and leaves the memory and the counter as the
-- instruction does.
structure Accessed (capacity : Nat) (t : ArchState) (f : Flight) (context : Context σ)
    (fault : Option Fault) (f' : Flight) (after : Context σ) : Prop where
  sound : Sound after.memory
  capacity_eq : LawfulStorage.capacity after.memory = capacity
  vectors_eq : after.vectors = context.vectors
  frame : ∀ x, (∀ y ∈ t.storeTargets, x % capacity ≠ y % capacity) →
    view after.memory x = view context.memory x
  faulted : ∀ cause, fault = some cause → t.staged capacity = .error cause
  served : fault = none → f'.address = f.address ∧ f'.raw = f.raw ∧
    (f'.state = f.state ∧ after.registers = context.registers ∧
      f'.Promises capacity t (view after.memory) ∨
      f'.state = .completed ∧ ∃ outcome, t.staged capacity = .ok outcome ∧
      f'.results = outcome.writes ∧
        view after.memory = outcome.memory ∧ after.registers = outcome.jumped context.registers)

namespace Promises

-- An action that waits keeps what was promised of it.
theorem of_waiting {todo next : Action} {before later : MemoryView}
    (h : f.Promises capacity t before) (haction : f.action = some todo)
    (hsame : next.outcome capacity t.stepped.registers.holds later =
      todo.outcome capacity t.stepped.registers.holds before)
    (hstores : ∀ x, next.StoresTo capacity x → todo.StoresTo capacity x)
    (htests : next.tests? = todo.tests?) :
    ({ f with action := some next } : Flight).Promises capacity t later := by
  refine ⟨?_, ?_, ?_⟩
  · rw [← h.outcome_eq, outcome_of_some haction, ← hsame]
    rfl
  · intro other hother x hx
    obtain rfl := Option.some.inj hother
    exact h.stores todo haction x (hstores x hx)
  · intro other cond hother hcond
    obtain rfl := Option.some.inj hother
    exact h.tests todo cond haction (htests ▸ hcond)

variable {context after : Context σ} (h : f.Promises capacity t (view context.memory))
  (hagrees : ∀ r ∈ t.instr.reads, context.state.Agrees t.stepped r)

include h hagrees

-- A branch is decided by the flags that the instruction is to find.
theorem holds_eq {cond : Condition} {target : Nat} {back : Option Word}
    (haction : f.action = some (.branch cond target back)) :
    t.stepped.registers.holds cond = context.registers.holds cond := by
  have htests := h.tests _ cond haction rfl
  refine holds_congr fun hflag => ?_
  have hflags : context.registers.read Register.flags = t.stepped.registers.read Register.flags :=
    hagrees _ (htests hflag)
  exact hflags.symm

theorem access (hsound : Sound context.memory)
    (hcapacity : LawfulStorage.capacity context.memory = capacity) {fault : Option Fault}
    (hresult : f.access context = (fault, f', after)) :
    Accessed capacity t f context fault f' after := by
  have houtcome := h.outcome_eq
  cases haction : f.action with
  | none =>
      rw [access_of_none haction] at hresult
      obtain ⟨rfl, rfl, rfl⟩ := hresult
      rw [outcome_of_none haction] at houtcome
      exact ⟨hsound, hcapacity, rfl, fun _ _ => rfl, nofun,
        fun _ => ⟨rfl, rfl, .inr ⟨rfl, _, houtcome.symm, rfl, rfl, rfl⟩⟩⟩
  | some todo =>
      rw [outcome_of_some haction] at houtcome
      rcases hadvance : todo.advance context with ⟨progress, next, after'⟩
      obtain ⟨hsound', hcapacity', hvectors, hframe, hprogress⟩ :=
        Action.advance_spec t.stepped.registers.holds hsound hadvance
          fun cond target back hbranch => h.holds_eq hagrees (hbranch ▸ haction)
      rw [hcapacity] at hcapacity' hframe hprogress
      have hquiet (x : Nat) (hx : ∀ y ∈ t.storeTargets, x % capacity ≠ y % capacity) :
          view after'.memory x = view context.memory x := by
        refine hframe x ?_
        intro hstores
        obtain ⟨y, hy, heq⟩ := h.stores todo haction x hstores
        exact hx y hy heq
      cases progress with
      | waiting =>
          rw [access_of_waiting haction hadvance] at hresult
          obtain ⟨rfl, rfl, rfl⟩ := hresult
          obtain ⟨hregisters, hsame, hstores⟩ := hprogress
          have hpromises := h.of_waiting haction hsame hstores (tests_advance hadvance)
          exact ⟨hsound', hcapacity', hvectors, hquiet, nofun,
            fun _ => ⟨rfl, rfl, .inl ⟨rfl, hregisters, hpromises⟩⟩⟩
      | finished writes =>
          rw [access_of_finished haction hadvance] at hresult
          obtain ⟨rfl, rfl, rfl⟩ := hresult
          obtain ⟨outcome, hok, rfl, hmemory, hregisters⟩ := hprogress
          rw [hok] at houtcome
          exact ⟨hsound', hcapacity', hvectors, hquiet, nofun,
            fun _ => ⟨rfl, rfl, .inr ⟨rfl, _, houtcome.symm, rfl, hmemory.symm, hregisters⟩⟩⟩
      | faulted fault =>
          rw [access_of_faulted haction hadvance] at hresult
          obtain ⟨rfl, rfl, rfl⟩ := hresult
          rw [hprogress] at houtcome
          refine ⟨hsound', hcapacity', hvectors, hquiet, ?_, nofun⟩
          intro cause hcause
          obtain rfl := Option.some.inj hcause
          exact houtcome.symm

end Promises

end Access

namespace Follows

variable (h : f.Follows capacity now t certain)

include h

-- Up to Execute nothing depends on the memory.
theorem of_early {later : MemoryView} (haddress : f'.address = f.address) (hraw : f'.raw = f.raw)
    (hstarted : 1 ≤ f'.progress → 1 ≤ f.progress) (hearly : f'.progress ≤ 4) :
    f'.Follows capacity later t certain := by
  refine ⟨?_, ?_, fun _ => by omega, fun _ => by omega, fun _ => by omega⟩
  · rw [haddress]
    exact h.asked
  · rw [haddress, hraw]
    exact fun hprogress => h.fetched (hstarted hprogress)

-- In Memory Access it waits, or it is done there.

theorem of_waiting {later : MemoryView} (haddress : f'.address = f.address) (hraw : f'.raw = f.raw)
    (hstarted : 1 ≤ f.progress) (hprogress : f'.progress = 6)
    (hpromises : f'.Promises capacity t later) :
    f'.Follows capacity later t certain := by
  refine ⟨?_, ?_, fun _ => by omega, fun _ _ => hpromises, fun _ => by omega⟩
  · rw [haddress]
    exact h.asked
  · rw [haddress, hraw]
    exact fun _ => h.fetched hstarted

theorem of_served {later : MemoryView} {outcome : Outcome} (haddress : f'.address = f.address)
    (hraw : f'.raw = f.raw) (hstarted : 1 ≤ f.progress) (hprogress : f'.progress = 7)
    (houtcome : t.staged capacity = .ok outcome) (hresults : f'.results = outcome.writes) :
    f'.Follows capacity later t certain := by
  refine ⟨?_, ?_, fun _ => by omega, fun _ => by omega,
    fun _ _ => ⟨outcome, houtcome, fun _ => hresults⟩⟩
  · rw [haddress]
    exact h.asked
  · rw [haddress, hraw]
    exact fun _ => h.fetched hstarted

theorem of_memory {later : MemoryView} (hn : f.progress ≠ 6) : f.Follows capacity later t certain :=
  ⟨h.asked, h.fetched, h.executed, fun _ hp => absurd hp hn, h.served⟩

-- Memory Access begins on the memory that the instruction is to find.
theorem enter {stage : Stage} (hstate : f.state = .completed)
    (hstage : stage.order.val = f.stage.order + 1) (hmemory : f.progress = 5 → now = t.memory) :
    (f.enter stage).Follows capacity now t certain := by
  have hp := progress_of_completed hstate
  have hp' : (f.enter stage).progress = f.progress + 1 := by
    rw [progress_enter, hp]
    omega
  refine ⟨h.asked, fun _ => h.fetched (by omega), fun _ => by omega, ?_, ?_⟩
  · intro hcertain hsix
    have hfive : f.progress = 5 := by omega
    obtain ⟨houtcome, hstores, htests⟩ := h.executed hcertain hfive
    rw [← hmemory hfive] at houtcome
    exact ⟨houtcome, hstores, htests⟩
  · intro hcertain hlate
    obtain ⟨outcome, hok, hresults⟩ := h.served hcertain (by omega)
    exact ⟨outcome, hok, fun hle => hresults (by omega)⟩

end Follows

theorem state_commit {σ : Type} [Storage σ] [LawfulStorage σ] (f : Flight) (context : Context σ) :
    (f.commit context).2.state = f.results.foldl (fun s write => write.apply s) context.state := by
  show (f.results.foldl _ context).state = _
  induction f.results generalizing context with
  | nil => rfl
  | cons write rest ih =>
      have hone : (write.commit context).state = write.apply context.state := by
        cases write <;> rfl
      rw [List.foldl_cons, List.foldl_cons, ← hone]
      exact ih _

-- Results that do not name the counter leave it.
theorem counter_commit {σ : Type} {f : Flight}
    (h : ∀ write ∈ f.results, write.target ≠ .scalar Register.counter) (context : Context σ) :
    (f.commit context).2.registers.counter = context.registers.counter := by
  have hone (write : RegisterWrite) (context : Context σ)
      (hother : write.target ≠ .scalar Register.counter) :
      (write.commit context).registers.counter = context.registers.counter := by
    cases write with
    | scalar number w =>
        show ((context.registers.write number w).read Register.counter).toAddress = _
        rw [Registers.read_write, if_neg fun heq => hother (congrArg Register.scalar heq.1)]
        rfl
    | vector number slots => rfl
    | append number w => rfl
  show (f.results.foldl (fun context write => write.commit context) context).registers.counter = _
  generalize f.results = writes at h
  induction writes generalizing context with
  | nil => rfl
  | cons write rest ih =>
      rw [List.foldl_cons, ih _ fun other hother => h other (List.mem_cons_of_mem _ hother),
        hone write context (h write List.mem_cons_self)]

end Flight

end PipelinedProcessor
