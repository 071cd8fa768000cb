import PipelinedProcessor.Proofs.Flight.Follows

namespace PipelinedProcessor

-- Two runs of one instruction, in registers that may differ where it does not read them, cannot be
-- told apart by what it asks of memory, decides on and faults with.

-- A request as memory gets it.
inductive MemoryRequest where
  | read (issuer : Stage) (address : Nat)
  | store (issuer : Stage) (address : Nat) (w : Word)
  | writePartial (issuer : Stage) (address : Nat) (data : List Word)
deriving DecidableEq

-- A memory that keeps the requests that it gets, the first one first.
structure Recorded (σ : Type) where
  memory : σ
  requests : List MemoryRequest := []

instance {σ : Type} [Storage σ] : Storage (Recorded σ) where
  read recorded issuer address :=
    let (answer, memory) := Storage.read recorded.memory issuer address
    (answer, ⟨memory, recorded.requests ++ [.read issuer address]⟩)
  store recorded issuer address w :=
    let (answer, memory) := Storage.store recorded.memory issuer address w
    (answer, ⟨memory, recorded.requests ++ [.store issuer address w]⟩)
  writePartial recorded issuer address data :=
    let (answer, memory) := Storage.writePartial recorded.memory issuer address data
    (answer, ⟨memory, recorded.requests ++ [.writePartial issuer address data]⟩)

-- Two contexts have the same in a register.
def Context.Agrees {σ : Type} (context other : Context σ) : Register → Prop
  | .scalar number => context.registers.read number = other.registers.read number
  | .vector number => context.vectors.get number = other.vectors.get number

instance {σ : Type} (context other : Context σ) (r : Register) :
    Decidable (context.Agrees other r) :=
  match r with
  | .scalar number =>
    inferInstanceAs (Decidable (context.registers.read number = other.registers.read number))
  | .vector number =>
    inferInstanceAs (Decidable (context.vectors.get number = other.vectors.get number))

-- Where the counter goes on.
def Registers.jumped (registers : Registers) (jump : Option Nat) : Registers :=
  jump.elim registers registers.setCounter

namespace Action

-- The registers that an action writes are among these.
def Names (allowed : List Register) : Action → Prop
  | scalar op rd swapped _ _ _ => swapped = none ∧ ∀ r ∈ Instruction.destination op rd, r ∈ allowed
  | load rd _ => .scalar rd ∈ allowed
  | store _ _ => True
  | vectorLoad vd _ _ _ => .vector vd ∈ allowed
  | vectorStore _ _ _ => True
  | branch _ _ back => back.isSome → .scalar Register.link ∈ allowed

section

variable {σ : Type} [Storage σ] {allowed : List Register} {action other next : Action}
  {memory after : σ} {progress : Progress}

theorem Names.of_move (h : action.Names allowed) (hmove : action.Moves memory next after) :
    next.Names allowed := by
  cases hmove <;> exact h

theorem Names.of_goes (h : action.Names allowed) (hgoes : action.Goes memory progress next after) :
    next.Names allowed ∧ ∀ writes, progress = .finished writes → ∀ write ∈ writes,
    write.target ∈ allowed := by
  induction hgoes with
  | moves hmove _ ih => exact ih (h.of_move hmove)
  | ends hends =>
      refine ⟨h, ?_⟩
      intro writes hfinished write hwrite
      cases hends with
      | calculated hresults =>
          obtain rfl := Progress.finished.inj hfinished
          obtain ⟨rfl, hrd⟩ := h
          obtain hmem | ⟨-, hnone⟩ := Instruction.target_of_results hresults write hwrite
          · exact hrd _ hmem
          · cases hnone
      | loaded | allLoaded =>
          obtain rfl := Progress.finished.inj hfinished
          obtain rfl := List.mem_singleton.mp hwrite
          exact h
      | stored | allWritten | branch =>
          obtain rfl := Progress.finished.inj hfinished
          cases hwrite
      | waits | failed | stuck => cases hfinished

theorem Similar.advanceMemory (h : action.Similar other)
    (hadvance : action.advanceMemory memory = (progress, next, after)) :
    ∃ next', other.advanceMemory memory = (progress, next', after) ∧ next.Similar next' := by
  cases h with
  | refl => exact ⟨next, hadvance, .refl next⟩
  | flags hop rd swapped flags flags' first second =>
      simp only [Action.advanceMemory, advanceScalar] at hadvance ⊢
      split at hadvance
      · obtain ⟨rfl, rfl, rfl⟩ := hadvance
        exact ⟨_, rfl, .flags hop ..⟩
      · split at hadvance
        · obtain ⟨rfl, rfl, rfl⟩ := hadvance
          exact ⟨_, rfl, .flags hop ..⟩
        · rename_i a _ _ _ b _ _
          obtain ⟨rfl, rfl, rfl⟩ := hadvance
          rw [results_congr (fun heq => absurd heq hop) (fun _ => rfl) fun _ => rfl]
          exact ⟨_, rfl, .flags hop ..⟩

-- A branch tests the flags when Memory Access gets to it.

theorem Names.advance {context after : Context σ} (h : action.Names allowed)
    (hadvance : action.advance context = (progress, next, after)) :
    next.Names allowed ∧ ∀ writes, progress = .finished writes → ∀ write ∈ writes,
    write.target ∈ allowed := by
  cases tried_of_advance hadvance with
  | jumps =>
      refine ⟨h, ?_⟩
      intro writes hfinished write hwrite
      obtain rfl := Progress.finished.inj hfinished
      obtain ⟨w, rfl, rfl⟩ := Option.map_eq_some_iff.mp (Option.mem_toList.mp hwrite)
      exact h rfl
  | stays =>
      refine ⟨h, ?_⟩
      intro writes hfinished write hwrite
      obtain rfl := Progress.finished.inj hfinished
      cases hwrite
  | goes _ hgoes => exact h.of_goes hgoes

theorem Similar.advance {registers registers' : Registers} {vectors : VectorRegisters}
    (vectors' : VectorRegisters) {after : Context σ} (h : action.Similar other)
    (hholds : ∀ cond, action.tests? = some cond → registers'.holds cond = registers.holds cond)
    (hadvance : action.advance ⟨registers, vectors, memory⟩ = (progress, next, after)) :
    ∃ next' jump, other.advance ⟨registers', vectors', memory⟩ =
        (progress, next', ⟨registers'.jumped jump, vectors', after.memory⟩) ∧ next.Similar next' ∧
      after.registers = registers.jumped jump ∧ after.vectors = vectors ∧
      (progress = .waiting → jump = none) := by
  by_cases hbranch : ∃ cond target back, action = branch cond target back
  · obtain ⟨cond, target, back, rfl⟩ := hbranch
    cases h
    simp only [Action.advance, hholds cond rfl] at hadvance ⊢
    split at hadvance
    · rename_i htaken
      obtain ⟨rfl, rfl, rfl⟩ := hadvance
      exact ⟨_, some target, if_pos htaken, .refl _, rfl, rfl, fun hwaiting => by cases hwaiting⟩
    · rename_i hstraight
      obtain ⟨rfl, rfl, rfl⟩ := hadvance
      exact ⟨_, none, if_neg hstraight, .refl _, rfl, rfl, fun _ => rfl⟩
  · have hbranch' : ∀ cond target back, other ≠ branch cond target back := by
      rintro cond target back rfl
      cases h
      exact hbranch ⟨cond, target, back, rfl⟩
    rcases hmemory : action.advanceMemory memory with ⟨progress', next', memory'⟩
    rw [advance_of_memory (fun cond target back heq => hbranch ⟨cond, target, back, heq⟩)
      hmemory] at hadvance
    obtain ⟨rfl, rfl, rfl⟩ := hadvance
    obtain ⟨next'', hother, hsimilar⟩ := h.advanceMemory hmemory
    exact ⟨next'', none, advance_of_memory hbranch' hother registers' vectors', hsimilar,
      rfl, rfl, fun _ => rfl⟩

end

end Action

namespace Flight

section

variable {σ : Type} [Storage σ]

-- Memory Access, tried until it is done or faults, but no more than so often.
def accesses : Nat → Flight → Context σ → Option Fault × Flight × Context σ
  | 0, f, context => (none, f, context)
  | tries + 1, f, context =>
    match f.access context with
    | (some fault, f, context) => (some fault, f, context)
    | (none, f, context) =>
      if f.state = .completed then (none, f, context) else accesses tries f context

-- Execute, and after it Memory Access.
def carryOut (tries : Nat) (f : Flight) (context : Context σ) : Option Fault × Flight × Context σ :=
  match f.execute context.registers context.vectors with
  | .error fault => (some fault, f, context)
  | .ok executed => (executed.enter .memory).accesses tries context

end

-- Flights that differ in no more than the flags that their actions carry along.
inductive Similar (f : Flight) : Flight → Prop where
  | idle (h : f.action = none) : Similar f f
  | active {action other : Action} (h : f.action = some action) (hsimilar : action.Similar other) :
      Similar f { f with action := some other }

-- What is queued names registers among these, and what is still to be done will.
structure Names (allowed : List Register) (f : Flight) : Prop where
  action : ∀ action, f.action = some action → action.Names allowed
  results : ∀ write ∈ f.results, write.target ∈ allowed

section

variable {σ : Type} [Storage σ] {allowed : List Register} {f g f' : Flight}
  {registers registers' : Registers} {vectors : VectorRegisters} (vectors' : VectorRegisters)
  {memory : σ} {after : Context σ} {fault : Option Fault}

theorem Similar.refl (f : Flight) : Similar f f := by
  cases haction : f.action with
  | none => exact .idle haction
  | some action =>
      have hsame : Similar f { f with action := some action } := .active haction (.refl action)
      rwa [← haction] at hsame

theorem Similar.state_eq (h : Similar f g) : g.state = f.state ∧ g.results = f.results := by
  cases h with
  | idle => exact ⟨rfl, rfl⟩
  | active => exact ⟨rfl, rfl⟩

-- One try on the same memory.
theorem Similar.access (h : Similar f g)
    (hholds : ∀ todo cond, f.action = some todo → todo.tests? = some cond →
      registers'.holds cond = registers.holds cond)
    (hresult : f.access ⟨registers, vectors, memory⟩ = (fault, f', after)) :
    ∃ g' jump, g.access ⟨registers', vectors', memory⟩ =
        (fault, g', ⟨registers'.jumped jump, vectors', after.memory⟩) ∧ Similar f' g' ∧
      after.registers = registers.jumped jump ∧ after.vectors = vectors ∧
      (fault = none → f'.state ≠ .completed → jump = none ∧
        ∀ todo cond, f'.action = some todo → todo.tests? = some cond →
          registers'.holds cond = registers.holds cond) := by
  cases h with
  | idle haction =>
      rw [access_of_none haction] at hresult ⊢
      obtain ⟨rfl, rfl, rfl⟩ := hresult
      exact ⟨_, none, rfl, .idle haction, rfl, rfl, fun _ hstate => absurd rfl hstate⟩
  | @active action other haction hsimilar =>
      rcases hadvance : action.advance ⟨registers, vectors, memory⟩ with ⟨progress, next, after'⟩
      obtain ⟨next', jump, hother, hnext, hregisters, hvectors, hwaiting⟩ :=
        hsimilar.advance vectors' (hholds action · haction) hadvance
      cases progress with
      | waiting =>
          rw [access_of_waiting haction hadvance] at hresult
          obtain ⟨rfl, rfl, rfl⟩ := hresult
          rw [access_of_waiting rfl hother]
          refine ⟨_, jump, rfl, .active rfl hnext, hregisters, hvectors, ?_⟩
          intro _ _
          refine ⟨hwaiting rfl, ?_⟩
          intro todo cond htodo hcond
          obtain rfl := Option.some.inj htodo
          exact hholds action cond haction ((tests_advance hadvance).symm.trans hcond)
      | finished writes =>
          rw [access_of_finished haction hadvance] at hresult
          obtain ⟨rfl, rfl, rfl⟩ := hresult
          rw [access_of_finished rfl hother]
          exact ⟨_, jump, rfl, .active rfl hnext, hregisters, hvectors,
            fun _ hstate => absurd rfl hstate⟩
      | faulted fault =>
          rw [access_of_faulted haction hadvance] at hresult
          obtain ⟨rfl, rfl, rfl⟩ := hresult
          rw [access_of_faulted rfl hother]
          exact ⟨_, jump, rfl, .idle rfl, hregisters, hvectors, fun hnone => by cases hnone⟩

theorem Names.access (h : f.Names allowed) {context : Context σ}
    (hresult : f.access context = (fault, f', after)) :
    f'.Names allowed := by
  cases haction : f.action with
  | none =>
      rw [access_of_none haction] at hresult
      obtain ⟨rfl, rfl, rfl⟩ := hresult
      exact ⟨h.action, h.results⟩
  | some action =>
      rcases hadvance : action.advance context with ⟨progress, next, after'⟩
      obtain ⟨hnext, hwrites⟩ := (h.action action haction).advance hadvance
      cases progress with
      | waiting =>
          rw [access_of_waiting haction hadvance] at hresult
          obtain ⟨rfl, rfl, rfl⟩ := hresult
          refine ⟨?_, h.results⟩
          intro other hother
          obtain rfl := Option.some.inj hother
          exact hnext
      | finished writes =>
          rw [access_of_finished haction hadvance] at hresult
          obtain ⟨rfl, rfl, rfl⟩ := hresult
          refine ⟨?_, ?_⟩
          · intro other hother
            obtain rfl := Option.some.inj hother
            exact hnext
          · intro write hwrite
            rcases List.mem_append.mp hwrite with hold | hnew
            · exact h.results write hold
            · exact hwrites writes rfl write hnew
      | faulted cause =>
          rw [access_of_faulted haction hadvance] at hresult
          obtain ⟨rfl, rfl, rfl⟩ := hresult
          exact ⟨fun other hother => (by cases hother), h.results⟩

-- All tries.

theorem Names.accesses (h : f.Names allowed) (tries : Nat) (context : Context σ) :
    (f.accesses tries context).2.1.Names allowed := by
  induction tries generalizing f context with
  | zero => exact h
  | succ tries ih =>
      rcases haccess : f.access context with ⟨fault, f', after⟩
      have hnames := h.access haccess
      cases fault with
      | some fault =>
          simp only [Flight.accesses, haccess]
          exact hnames
      | none =>
          simp only [Flight.accesses, haccess]
          split
          · exact hnames
          · exact ih hnames after

theorem Similar.accesses (h : Similar f g) (tries : Nat)
    (hholds : ∀ todo cond, f.action = some todo → todo.tests? = some cond →
      registers'.holds cond = registers.holds cond)
    (hresult : f.accesses tries ⟨registers, vectors, memory⟩ = (fault, f', after)) :
    ∃ g' jump, g.accesses tries ⟨registers', vectors', memory⟩ =
        (fault, g', ⟨registers'.jumped jump, vectors', after.memory⟩) ∧ Similar f' g' ∧
      after.registers = registers.jumped jump ∧ after.vectors = vectors := by
  induction tries generalizing f g memory with
  | zero =>
      obtain ⟨rfl, rfl, rfl⟩ := hresult
      exact ⟨g, none, rfl, h, rfl, rfl⟩
  | succ tries ih =>
      rcases haccess : f.access ⟨registers, vectors, memory⟩ with ⟨fault₁, f₁, after₁⟩
      obtain ⟨g₁, jump, hother, hsimilar, hregisters, hvectors, hwaiting⟩ :=
        h.access vectors' hholds haccess
      have hstate := hsimilar.state_eq.1
      cases fault₁ with
      | some cause =>
          simp only [Flight.accesses, haccess] at hresult
          obtain ⟨rfl, rfl, rfl⟩ := hresult
          refine ⟨g₁, jump, ?_, hsimilar, hregisters, hvectors⟩
          simp only [Flight.accesses, hother]
      | none =>
          simp only [Flight.accesses, haccess] at hresult
          by_cases hcompleted : f₁.state = .completed
          · rw [if_pos hcompleted] at hresult
            obtain ⟨rfl, rfl, rfl⟩ := hresult
            refine ⟨g₁, jump, ?_, hsimilar, hregisters, hvectors⟩
            simp only [Flight.accesses, hother]
            rw [if_pos (hstate.trans hcompleted)]
          · rw [if_neg hcompleted] at hresult
            obtain ⟨rfl, hholds₁⟩ := hwaiting rfl hcompleted
            obtain ⟨registers₁, vectors₁, memory₁⟩ := after₁
            obtain rfl : registers₁ = registers := hregisters
            obtain rfl : vectors₁ = vectors := hvectors
            obtain ⟨g', jump, hrest, hlast⟩ := ih hsimilar hholds₁ hresult
            refine ⟨g', jump, ?_, hlast⟩
            simp only [Flight.accesses, hother]
            rw [if_neg fun heq => hcompleted (hstate.symm.trans heq)]
            exact hrest

end

theorem names_take {instr : Instruction} {s : ArchState} {work : Work} (h : work.Within instr s)
    {f : Flight} (haction : f.action = none) (hresults : f.results = []) :
    (f.take work).Names instr.writes := by
  refine ⟨?_, ?_⟩
  · intro todo htodo
    obtain rfl := action_take haction htodo
    cases todo with
    | branch cond target back => exact h.2.2
    | store place w => trivial
    | vectorStore base data written => trivial
    | _ => exact h
  · cases work with
    | results writes => exact h
    | _ =>
        intro write hwrite
        rw [take, hresults] at hwrite
        cases hwrite

theorem similar_of_alike {work other : Except Fault Work} (h : Work.Alike work other) (f : Flight) :
    (∃ fault, work = .error fault ∧ other = .error fault) ∨
      ∃ todo todo', work = .ok todo ∧ other = .ok todo' ∧
        Similar ((f.take todo).complete.enter .memory) ((f.take todo').complete.enter .memory) := by
  cases h with
  | same =>
      cases work with
      | error fault => exact .inl ⟨fault, rfl, rfl⟩
      | ok todo => exact .inr ⟨todo, todo, rfl, rfl, .refl _⟩
  | action hsimilar => exact .inr ⟨_, _, rfl, rfl, .active rfl hsimilar⟩

-- What an instruction asks of memory, decides on and faults with depends on no registers but those
-- that it reads, and it queues writes to no registers but those that it writes.
theorem carryOut_confined {σ : Type} [Storage σ] {f first : Flight} {w : Word}
    (hinstr : f.instr = some (Instruction.ofWord w)) (haction : f.action = none)
    (hresults : f.results = []) {registers registers' : Registers}
    {vectors vectors' : VectorRegisters} {memory : Recorded σ}
    (hagrees : ∀ r ∈ (Instruction.ofWord w).reads,
      Context.Agrees ⟨registers, vectors, memory⟩ ⟨registers', vectors', memory⟩ r)
    {tries : Nat} {fault : Option Fault} {after : Context (Recorded σ)}
    (hfirst : f.carryOut tries ⟨registers, vectors, memory⟩ = (fault, first, after)) :
    (∃ second jump, f.carryOut tries ⟨registers', vectors', memory⟩ =
        (fault, second, ⟨registers'.jumped jump, vectors', after.memory⟩) ∧
      second.state = first.state ∧ second.results = first.results ∧
      after.registers = registers.jumped jump ∧ after.vectors = vectors) ∧
    ∀ write ∈ first.results, write.target ∈ (Instruction.ofWord w).writes := by
  have hlegal := Instruction.legal_ofWord w
  let s : ArchState := ⟨registers, vectors, fun _ => 0⟩
  let t : ArchState := ⟨registers', vectors', fun _ => 0⟩
  have hreads : ∀ r ∈ (Instruction.ofWord w).reads, s.Agrees t r := by
    intro r hr
    cases r with
    | scalar number => exact hagrees _ hr
    | vector number => exact hagrees _ hr
  have halike : Work.Alike ((Instruction.ofWord w).work (f.address.getD 0) registers vectors)
      ((Instruction.ofWord w).work (f.address.getD 0) registers' vectors') :=
        Instruction.work_alike hlegal hreads
  have hexecute := execute_of_known hinstr registers vectors
  have hexecute' := execute_of_known hinstr registers' vectors'
  rcases similar_of_alike halike f with
    ⟨cause, hwork, hwork'⟩ | ⟨work, work', hwork, hwork', hsimilar⟩
  · rw [hwork] at hexecute
    rw [hwork'] at hexecute'
    simp only [carryOut, hexecute, Except.map] at hfirst
    obtain ⟨rfl, rfl, rfl⟩ := hfirst
    have hsecond : f.carryOut tries ⟨registers', vectors', memory⟩ =
        (some cause, f, ⟨registers', vectors', memory⟩) := by
      simp only [carryOut, hexecute', Except.map]
    refine ⟨⟨f, none, hsecond, rfl, rfl, rfl, rfl⟩, ?_⟩
    rw [hresults]
    intro write hwrite
    cases hwrite
  · rw [hwork] at hexecute
    rw [hwork'] at hexecute'
    simp only [carryOut, hexecute, Except.map] at hfirst
    simp only [carryOut, hexecute', Except.map]
    have hwithin : work.Within (Instruction.ofWord w) s := Instruction.work_within hlegal hwork
    have hnames : ((f.take work).complete.enter .memory).Names (Instruction.ofWord w).writes :=
      ⟨(names_take hwithin haction hresults).action, (names_take hwithin haction hresults).results⟩
    have hlast := hnames.accesses tries ⟨registers, vectors, memory⟩
    rw [hfirst] at hlast
    refine ⟨?_, hlast.results⟩
    have hholds : ∀ todo cond, ((f.take work).complete.enter .memory).action = some todo →
        todo.tests? = some cond → registers'.holds cond = registers.holds cond := by
      intro todo cond htodo hcond
      obtain rfl := action_take haction htodo
      exact holds_congr fun hflag => (hreads _ (hwithin.flags rfl hcond hflag)).symm
    obtain ⟨second, jump, hsecond, hsame, hregisters, hvectors⟩ :=
      hsimilar.accesses vectors' tries hholds hfirst
    exact ⟨second, jump, hsecond, hsame.state_eq.1, hsame.state_eq.2, hregisters, hvectors⟩

-- An addition to a word of memory, with other flags and another destination.
theorem carryOut_confined_of_add :
    let f : Flight := { id := 0, instr := some (Instruction.ofWord (Instruction.encode
      (.scalarImmediate true .add 1 2 5))) }
    let memory : Recorded MainMemory := ⟨.zeroed 1 2 (by decide), []⟩
    let registers : Registers := (({} : Registers).write 1 7).write Register.flags 5
    (f.carryOut 3 ⟨registers, .empty 2 2, memory⟩).2.1.results =
      (f.carryOut 3 ⟨{}, .empty 1 1, memory⟩).2.1.results ∧
      (f.carryOut 3 ⟨registers, .empty 2 2, memory⟩).2.2.memory.requests =
        (f.carryOut 3 ⟨{}, .empty 1 1, memory⟩).2.2.memory.requests := by
  intro f memory registers
  have hagrees :
      ∀ r ∈ (Instruction.ofWord (Instruction.encode (.scalarImmediate true .add 1 2 5))).reads,
      Context.Agrees ⟨{}, .empty 1 1, memory⟩ ⟨registers, .empty 2 2, memory⟩ r := by decide
  rcases hfirst : f.carryOut 3 ⟨{}, .empty 1 1, memory⟩ with ⟨fault, first, after⟩
  have hinstr : f.instr =
      some (Instruction.ofWord (Instruction.encode (.scalarImmediate true .add 1 2 5))) := rfl
  have haction : f.action = none := rfl
  have hresults : f.results = [] := rfl
  obtain ⟨⟨second, jump, hsecond, -, hsame, -, -⟩, -⟩ :=
    carryOut_confined hinstr haction hresults hagrees hfirst
  rw [hsecond]
  exact ⟨hsame, rfl⟩

end Flight

end PipelinedProcessor
