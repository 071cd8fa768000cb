import PipelinedProcessor.Proofs.Cache.Transparency
import PipelinedProcessor.Proofs.Machine.Interpreter

namespace PipelinedProcessor

open LawfulStorage LiveStorage

theorem MainMemory.peek_wraps (memory : MainMemory) :
    MemoryView.Wraps memory.capacity memory.peek := by
  intro address
  have hline : memory.lineStart (address % memory.capacity) = memory.lineStart address :=
    memory.lineStart_wrap address
  have hoffset : memory.offset (address % memory.capacity) = memory.offset address :=
    memory.offset_wrap address
  rw [peek, peek, hoffset, memory.peekWords_congr hline]

-- What has been written is what is there, as long as it fits.
theorem MemoryView.words_putAll {capacity : Nat} (memory : MemoryView) (base : Nat)
    {data : List Word} (h : data.length ≤ capacity) :
    ((List.range data.length).map fun i => some (memory.putAll capacity base data (base + i))) =
      data.map some := by
  apply List.ext_getElem
  · simp
  · intro i hi _
    rw [List.length_map, List.length_range] at hi
    rw [List.getElem_map, List.getElem_map, List.getElem_range, putAll_of_eq h hi rfl]

namespace Flight

-- Who tries something next: Memory Access for the instruction that it has, or Fetch for another
-- one.
inductive Turn where
  | access
  | fetch (g : Flight)

section

variable {σ : Type} [Storage σ]

-- Turns one after the other, in any order, up to a fault. An instruction that is done is not tried
-- again.
def turns : List Turn → Flight → Context σ → Option Fault × Flight × Context σ
  | [], f, context => (none, f, context)
  | .fetch g :: rest, f, context => turns rest f (g.fetch context).2
  | .access :: rest, f, context =>
    if f.state = .completed then turns rest f context
    else match f.access context with
      | (none, f, context) => turns rest f context
      | (some fault, f, context) => (some fault, f, context)

variable [LawfulStorage σ] {first : Action} {capacity : Nat} {results : List RegisterWrite}
  {seen : MemoryView} {goal : Outcome} {f : Flight} {context : Context σ}

-- What is left of an action for memory, or the end of it: together with what has been done it comes
-- to the goal.
structure Nearing (first : Action) (capacity : Nat) (results : List RegisterWrite)
    (seen : MemoryView) (goal : Outcome) (f : Flight) (context : Context σ) : Prop where
  sound : Sound context.memory
  capacity_eq : LawfulStorage.capacity context.memory = capacity
  frame : ∀ address, ¬ first.StoresTo capacity address → view context.memory address = seen address
  due : f.state ≠ .completed → f.results = results ∧ ∃ action,
    f.action = some action ∧ action.tests? = none ∧
    action.outcome capacity (fun _ => false) (view context.memory) = .ok goal ∧
    ∀ address, action.StoresTo capacity address → first.StoresTo capacity address
  done : f.state = .completed → f.results = results ++ goal.writes ∧
    view context.memory = goal.memory

-- Fetch only reads.
theorem Nearing.fetch (h : Nearing first capacity results seen goal f context) (g : Flight) :
    Nearing first capacity results seen goal f (g.fetch context).2 := by
  obtain ⟨registers, vectors, memory⟩ := context
  rcases hread : Storage.read memory .fetch (g.target registers) with ⟨answer, memory'⟩
  obtain ⟨hsound, hcapacity, hview, -⟩ := read_sound h.sound hread
  have hmemory : (g.fetch ⟨registers, vectors, memory⟩).2.memory = memory' := by
    cases answer with
    | wait => rw [fetch_of_wait hread]
    | done w => rw [fetch_of_done hread]
  refine ⟨?_, ?_, ?_, ?_, ?_⟩
  · rw [hmemory]
    exact hsound
  · rw [hmemory]
    exact hcapacity.trans h.capacity_eq
  · rw [hmemory, hview]
    exact h.frame
  · rw [hmemory, hview]
    exact h.due
  · rw [hmemory, hview]
    exact h.done

theorem Nearing.access (h : Nearing first capacity results seen goal f context)
    (hstate : f.state ≠ .completed) {fault : Option Fault} {f' : Flight} {after : Context σ}
    (hresult : f.access context = (fault, f', after)) :
    fault = none ∧ Nearing first capacity results seen goal f' after := by
  obtain ⟨hresults, action, haction, htests, hgoal, hstores⟩ := h.due hstate
  rcases hadvance : action.advance context with ⟨progress, next, after'⟩
  have hbranch (cond : Condition) (target : Nat) (back : Option Word)
      (heq : action = .branch cond target back) :
      (fun _ => false) cond = context.registers.holds cond := by
    subst heq
    cases htests
  obtain ⟨hsound, hcapacity, -, hframe, hprogress⟩ :=
    Action.advance_spec (fun _ => false) h.sound hadvance hbranch
  rw [h.capacity_eq] at hcapacity hframe hprogress
  have hframe' (address : Nat) (hn : ¬ first.StoresTo capacity address) :
      view after'.memory address = seen address :=
    (hframe address fun hstore => hn (hstores address hstore)).trans (h.frame address hn)
  cases progress with
  | waiting =>
      rw [access_of_waiting haction hadvance] at hresult
      obtain ⟨rfl, rfl, rfl⟩ := hresult
      obtain ⟨-, hsame, hfewer⟩ := hprogress
      refine ⟨rfl, hsound, hcapacity, hframe',
        fun _ => ⟨hresults, next, rfl, ?_, hsame.trans hgoal, ?_⟩, fun hdone => absurd hdone hstate⟩
      · rw [tests_advance hadvance, htests]
      · exact fun address hstore => hstores address (hfewer address hstore)
  | finished writes =>
      rw [access_of_finished haction hadvance] at hresult
      obtain ⟨rfl, rfl, rfl⟩ := hresult
      obtain ⟨outcome, houtcome, rfl, hmemory, -⟩ := hprogress
      obtain rfl := Except.ok.inj (hgoal.symm.trans houtcome)
      exact ⟨rfl, hsound, hcapacity, hframe', fun hnot => absurd rfl hnot,
        fun _ => ⟨congrArg (· ++ goal.writes) hresults, hmemory.symm⟩⟩
  | faulted cause =>
      rw [hgoal] at hprogress
      cases hprogress

theorem Nearing.turns (h : Nearing first capacity results seen goal f context) (more : List Turn)
    {fault : Option Fault} {f' : Flight} {after : Context σ}
    (hresult : f.turns more context = (fault, f', after)) :
    fault = none ∧ Nearing first capacity results seen goal f' after := by
  induction more generalizing f context with
  | nil =>
      obtain ⟨rfl, rfl, rfl⟩ := hresult
      exact ⟨rfl, h⟩
  | cons turn rest ih =>
      cases turn with
      | fetch g => exact ih (h.fetch g) hresult
      | access =>
          unfold Flight.turns at hresult
          split at hresult
          · exact ih h hresult
          · rename_i hstate
            rcases haccess : f.access context with ⟨cause, g, later⟩
            obtain ⟨rfl, hnear⟩ := h.access hstate haccess
            rw [haccess] at hresult
            exact ih hnear hresult

end

end Flight

-- An instruction that is left alone with memory comes to its end.

namespace Action

section

variable {σ : Type} [Storage σ] [LiveStorage σ] {action next : Action} {memory after : σ}

-- Memory is at rest, or busy with what the action waits for.
def Unhindered (action : Action) (memory : σ) : Prop :=
  ∀ stage, owner memory = some stage → stage = .memory ∧ ∃ access, action.access? = some access ∧
    Attends memory .memory access

def patienceLeft (action : Action) (memory : σ) : Nat :=
  if owner memory = none then idle memory else (action.access?.map (patience memory .memory)).getD 0

theorem Unhindered.of_waiting (h : action.Unhindered memory)
    (htries : action.Tries memory .waiting next after) :
    next.Unhindered after := by
  have hhandover := htries.handover fun howner => (h _ howner).2
  intro stage hstage
  obtain ⟨rfl, access, haccess, hattends⟩ | ⟨hne, howner, -⟩ := hhandover stage hstage
  · exact ⟨rfl, access, haccess, hattends⟩
  · exact absurd (h stage howner).1 hne

-- A try that waits has got further or memory has.
theorem Unhindered.nearer (h : action.Unhindered memory)
    (htries : action.Tries memory .waiting next after) :
    next.todo < action.todo ∨
      next.todo = action.todo ∧ next.patienceLeft after < action.patienceLeft memory := by
  obtain ⟨n, middle, access, hserved, hsame, htodo, haccess, hwait⟩ := htries
  cases n with
  | succ n => exact .inl (by omega)
  | zero =>
      obtain rfl := hsame rfl
      cases hserved
      have hown : owner memory = none ∨
          owner memory = some .memory ∧ Attends memory .memory access := by
        cases howner : owner memory with
        | none => exact .inl rfl
        | some stage =>
            obtain ⟨rfl, access', haccess', hattends⟩ := h stage howner
            obtain rfl := Option.some.inj (haccess.symm.trans haccess')
            exact .inr ⟨rfl, hattends⟩
      obtain ⟨howner, -, hlt⟩ := wait_own hown hwait
      refine .inr ⟨rfl, ?_⟩
      simpa [patienceLeft, howner, haccess] using hlt

end

end Action

namespace Flight

section

variable {σ : Type} [Storage σ] [LawfulStorage σ] [LiveStorage σ] {first : Action} {capacity : Nat}
  {results : List RegisterWrite} {seen : MemoryView} {goal : Outcome}

theorem Nearing.completes {f : Flight} {context : Context σ} {action : Action}
    (h : Nearing first capacity results seen goal f context) (hstate : f.state ≠ .completed)
    (haction : f.action = some action) (hfree : action.Unhindered context.memory) :
    ∃ n, (f.turns (List.replicate n .access) context).2.1.state = .completed := by
  rcases hadvance : action.advance context with ⟨progress, next, after⟩
  have htries := Action.advance_tries hadvance
  have hturns (n : Nat) : f.turns (List.replicate (n + 1) .access) context =
      match f.access context with
      | (none, f, context) => f.turns (List.replicate n .access) context
      | (some fault, f, context) => (some fault, f, context) := by
    rw [List.replicate_succ, Flight.turns, if_neg hstate]
  cases progress with
  | waiting =>
      have haccess := access_of_waiting haction hadvance
      obtain ⟨-, hnear⟩ := h.access hstate haccess
      have hdecrease := hfree.nearer htries
      obtain ⟨n, hn⟩ := hnear.completes hstate rfl (hfree.of_waiting htries)
      refine ⟨n + 1, ?_⟩
      rw [hturns, haccess]
      exact hn
  | finished writes =>
      refine ⟨1, ?_⟩
      rw [hturns, access_of_finished haction hadvance]
      rfl
  | faulted cause =>
      obtain ⟨hnone, -⟩ := h.access hstate (access_of_faulted haction hadvance)
      cases hnone
termination_by (action.todo, action.patienceLeft context.memory)
decreasing_by
  obtain hlt | ⟨heq, hlt⟩ := hdecrease
  · exact Prod.Lex.left _ _ hlt
  · rw [heq]
    exact Prod.Lex.right _ hlt

end

-- Execute has left the action to Memory Access, which has not tried it yet.
def Begins (f : Flight) (action : Action) : Prop := f.state ≠ .completed ∧ f.action = some action

theorem Begins.nearing {σ : Type} [Storage σ] [LawfulStorage σ] {f : Flight} {action : Action}
    {context : Context σ} {goal : Outcome} (h : f.Begins action) (hsound : Sound context.memory)
    (htests : action.tests? = none) (hgoal : action.outcome (LawfulStorage.capacity context.memory)
      (fun _ => false) (view context.memory) = .ok goal) :
    Nearing action (LawfulStorage.capacity context.memory) f.results (view context.memory)
      goal f context :=
  ⟨hsound, rfl, fun _ _ => rfl, fun _ => ⟨rfl, action, h.2, htests, hgoal, fun _ hstore => hstore⟩,
    fun hdone => absurd hdone h.1⟩

end Flight

-- What may be relied on in transfers between vector registers and memory, whatever Fetch does in
-- between.
structure Context.Transfers {σ : Type} [Storage σ] (capacity : Nat) (view : σ → MemoryView)
    (AtRest : σ → Prop) (context : Context σ) : Prop where
  -- a store writes its words one after the other, modulo the capacity, and nothing else at any time
  stores : ∀ (f f' : Flight) (base : Nat) (data : List Word) (turns : List Flight.Turn)
    (fault : Option Fault) (after : Context σ), f.Begins (.vectorStore base data 0) →
    f.turns turns context = (fault, f', after) →
    fault = none ∧
    (∀ address, (∀ i < data.length, address % capacity ≠ (base + i) % capacity) →
      view after.memory address = view context.memory address) ∧
    (f'.state = .completed → f'.results = f.results ∧
      view after.memory = (view context.memory).putAll capacity base data)
  -- a load comes to one result, the words modulo the capacity, and changes nothing
  loads : ∀ (f f' : Flight) (vd base n : Nat) (turns : List Flight.Turn) (fault : Option Fault)
    (after : Context σ), f.Begins (.vectorLoad vd base n []) →
    f.turns turns context = (fault, f', after) →
    fault = none ∧ view after.memory = view context.memory ∧
    (f'.state = .completed → f'.results =
      f.results ++
        [.vector vd ((List.range n).map fun i =>
          some (view context.memory ((base + i) % capacity)))])
  -- words that were stored are loaded again
  returns :
    ∀ (f f' g g' : Flight) (vd base : Nat) (data : List Word) (turns more : List Flight.Turn)
    (after next later : Context σ), f.Begins (.vectorStore base data 0) →
    f.turns turns context = (none, f', after) → f'.state = .completed → data.length ≤ capacity →
    next.memory = after.memory → g.Begins (.vectorLoad vd base data.length []) →
    g.turns more next = (none, g', later) → g'.state = .completed →
    g'.results = g.results ++ [.vector vd (data.map some)]
  -- whenever memory is at rest, either comes to its end if it is left alone from there on
  completes : ∀ (f f' : Flight) (action : Action) (turns : List Flight.Turn) (after : Context σ),
    f.Begins action →
    ((∃ base data, action = .vectorStore base data 0) ∨ ∃ vd base n,
      action = .vectorLoad vd base n []) →
    f.turns turns context = (none, f', after) → AtRest after.memory →
    ∃ n, (f'.turns (List.replicate n .access) after).2.1.state = .completed

section

variable {σ : Type} [Storage σ] [LawfulStorage σ] {f f' : Flight} {base n : Nat} {data : List Word}
  {turns : List Flight.Turn} {fault : Option Fault} {context after : Context σ}

theorem Flight.turns_vectorStore (hsound : Sound context.memory)
    (hbegins : f.Begins (.vectorStore base data 0))
    (hresult : f.turns turns context = (fault, f', after)) :
    fault = none ∧
    Nearing (.vectorStore base data 0) (LawfulStorage.capacity context.memory) f.results
      (view context.memory)
      ⟨[], (view context.memory).putAll (LawfulStorage.capacity context.memory) base data,
        none⟩ f' after :=
  (hbegins.nearing hsound rfl rfl).turns turns hresult

theorem Flight.turns_vectorLoad {vd : Nat} (hsound : Sound context.memory)
    (hbegins : f.Begins (.vectorLoad vd base n []))
    (hresult : f.turns turns context = (fault, f', after)) :
    fault = none ∧
    Nearing (.vectorLoad vd base n []) (LawfulStorage.capacity context.memory) f.results
      (view context.memory)
      ⟨[.vector vd ((List.range n).map fun i => some (view context.memory (base + i)))],
        view context.memory, none⟩
      f' after :=
  (hbegins.nearing hsound rfl rfl).turns turns hresult

end

theorem Context.transfers_of_sound {σ : Type} [Storage σ] [LawfulStorage σ] [LiveStorage σ]
    {context : Context σ} (hsound : Sound context.memory)
    (hwraps : (view context.memory).Wraps (LawfulStorage.capacity context.memory)) :
    context.Transfers (LawfulStorage.capacity context.memory) view fun memory =>
      owner memory = none := by
  refine ⟨?_, ?_, ?_, ?_⟩
  · intro f f' base data turns fault after hbegins hresult
    obtain ⟨hfault, hnear⟩ := Flight.turns_vectorStore hsound hbegins hresult
    refine ⟨hfault, fun address haddress => hnear.frame address ?_, fun hdone => ?_⟩
    · rintro ⟨i, -, hi, heq⟩
      exact haddress i hi heq
    · obtain ⟨hresults, hview⟩ := hnear.done hdone
      exact ⟨hresults.trans (List.append_nil _), hview⟩
  · intro f f' vd base n turns fault after hbegins hresult
    obtain ⟨hfault, hnear⟩ := Flight.turns_vectorLoad hsound hbegins hresult
    refine ⟨hfault, funext fun address => hnear.frame address id, fun hdone => ?_⟩
    simp only [hwraps _]
    exact (hnear.done hdone).1
  · intro f f' g g' vd base data turns more after next later hbegins hstored hdone hlength
      hmemory hgbegins hloaded hgdone
    obtain ⟨-, hnear⟩ := Flight.turns_vectorStore hsound hbegins hstored
    have hview := (hnear.done hdone).2
    have hsound' : Sound next.memory := hmemory ▸ hnear.sound
    obtain ⟨-, hgnear⟩ := Flight.turns_vectorLoad hsound' hgbegins hloaded
    rw [(hgnear.done hgdone).1, hmemory, hview, MemoryView.words_putAll _ _ hlength]
  · intro f f' action turns after hbegins hkind hresult hrest
    obtain ⟨goal, htests, hgoal⟩ : ∃ goal, action.tests? = none ∧
        action.outcome (LawfulStorage.capacity context.memory) (fun _ => false)
          (view context.memory) = .ok goal := by
      obtain ⟨base, data, rfl⟩ | ⟨vd, base, n, rfl⟩ := hkind
      · exact ⟨_, rfl, rfl⟩
      · exact ⟨_, rfl, rfl⟩
    obtain ⟨-, hnear⟩ := (hbegins.nearing hsound htests hgoal).turns turns hresult
    by_cases hdone : f'.state = .completed
    · exact ⟨0, hdone⟩
    · obtain ⟨-, todo, htodo, -⟩ := hnear.due hdone
      exact hnear.completes hdone htodo fun stage howner => absurd (hrest.symm.trans howner) nofun

-- Transfers are right word by word on main memory alone and through a cache in good order, in
-- whatever state of its lines and of the requests under way.
theorem transfers_of_coherent :
    (∀ context : Context MainMemory,
      context.Transfers context.memory.capacity MainMemory.peek fun memory =>
        memory.pending = none) ∧
    ∀ context : Context Cache, context.memory.Coherent →
      context.Transfers context.memory.memory.capacity Cache.view fun cache =>
        cache.memory.pending = none := by
  refine ⟨fun context => ?_, fun context hcoherent => ?_⟩
  · have hsound : Sound context.memory := trivial
    have h := Context.transfers_of_sound hsound context.memory.peek_wraps
    exact ⟨h.stores, h.loads, h.returns, fun f f' action turns after hbegins hkind hresult hrest =>
      h.completes f f' action turns after hbegins hkind hresult
        (MainMemory.owner_eq_none.mpr hrest)⟩
  · have hsound : Sound context.memory := hcoherent
    have h := Context.transfers_of_sound hsound context.memory.view_wraps
    exact ⟨h.stores, h.loads, h.returns, fun f f' action turns after hbegins hkind hresult hrest =>
      h.completes f f' action turns after hbegins hkind hresult
        (MainMemory.owner_eq_none.mpr hrest)⟩

-- Three words over the end of a memory of eight, one line of which is dirty in the cache. Fetch
-- wants other words of the same lines in between.
theorem transfers_past_end :
    let cache := (Cache.empty 1 true (.zeroed 2 1 (by decide))).performAll
      [.poll .memory (.store 5 7), .poll .memory (.store 5 7), .poll .memory (.store 5 7)]
    let context : Context Cache := ⟨{}, ⟨[]⟩, cache⟩
    let f : Flight := { id := 0, stage := .memory, action := some (.vectorStore 6 [1, 2, 3] 0) }
    let g : Flight := { id := 1, stage := .memory, action := some (.vectorLoad 2 6 3 []) }
    let polls (address : Nat) : Flight.Turn := .fetch { id := 2, address := some address }
    let stored := f.turns [.access, polls 1, .access] context
    let loaded := g.turns [polls 6, .access, polls 6, .access, .access] stored.2.2
    cache.Coherent ∧ stored.2.1.state = .completed ∧ loaded.2.1.state = .completed ∧
      stored.2.2.memory.view = MemoryView.putAll 8 cache.view 6 [1, 2, 3] ∧
      loaded.2.1.results = [.vector 2 [some 1, some 2, some 3]] := by
  intro cache context f g polls stored loaded
  have hcoherent : cache.Coherent :=
    (Cache.performAll_spec (Cache.coherent_empty (by decide) true _) _).coherent
  have hcapacity : cache.memory.capacity = 8 := by decide +kernel
  have hstored : stored.1 = none ∧ stored.2.1.state = .completed := by decide +kernel
  have hloaded : loaded.1 = none ∧ loaded.2.1.state = .completed := by decide +kernel
  have hf : f.Begins (.vectorStore 6 [1, 2, 3] 0) := ⟨nofun, rfl⟩
  have hg : g.Begins (.vectorLoad 2 6 3 []) := ⟨nofun, rfl⟩
  have hstore : f.turns [.access, polls 1, .access] context = stored := rfl
  have hload : g.turns [polls 6, .access, polls 6, .access, .access] stored.2.2 = loaded := rfl
  have h : context.Transfers cache.memory.capacity Cache.view fun cache =>
      cache.memory.pending = none :=
    transfers_of_coherent.2 context hcoherent
  rw [hcapacity] at h
  clear_value loaded stored
  obtain ⟨fault, f', after⟩ := stored
  obtain ⟨fault', g', later⟩ := loaded
  obtain ⟨rfl, hdone⟩ := hstored
  obtain ⟨rfl, hdone'⟩ := hloaded
  obtain ⟨-, -, hview⟩ := h.stores f f' 6 [1, 2, 3] _ _ after hf hstore
  have hresults := h.returns f f' g g' 2 6 [1, 2, 3] _ _ after after later hf hstore hdone
    (by decide) rfl hg hload hdone'
  exact ⟨hcoherent, hdone, hdone', (hview hdone).2, hresults⟩

end PipelinedProcessor
