import PipelinedProcessor.Proofs.Architecture.Staged
import PipelinedProcessor.Proofs.Flight.Moves

namespace PipelinedProcessor

-- A memory after so many accesses of Memory Access that were done.
inductive Served {σ : Type} [Storage σ] : Nat → σ → σ → Prop where
  | zero (memory : σ) : Served 0 memory memory
  | succ {n : Nat} {memory middle after : σ} (access : Access)
      (hattempt : access.attempt memory .memory = (true, middle)) (hmore : Served n middle after) :
      Served (n + 1) memory after

-- How many words have still to be read.
def Source.todo : Source → Nat
  | value _ => 0
  | deref _ => 1

def Action.todo : Action → Nat
  | scalar _ _ _ _ first second => first.todo + second.todo
  | vectorLoad _ _ length loaded => length - loaded.length
  | vectorStore _ data written => data.length - written
  | _ => 0

section

variable {σ : Type} [Storage σ] {memory after : σ}

theorem Served.one {access : Access} (hattempt : access.attempt memory .memory = (true, after)) :
    Served 1 memory after :=
  .succ access hattempt (.zero after)

namespace Action

-- What a try comes to: some accesses are done and behind it, and it waits for the next one or there
-- is none.
def Tries (action : Action) (memory : σ) (progress : Progress) (next : Action) (after : σ) : Prop :=
  match progress with
  | .waiting => ∃ n middle access, Served n memory middle ∧ (n = 0 → next = action) ∧
    next.todo + n ≤ action.todo ∧ next.access? = some access ∧
    access.attempt middle .memory = (false, after)
  | _ => ∃ n, Served n memory after ∧ (n = 0 → action.access? = none)

theorem Tries.of_wait {action : Action} {access : Access} (haccess : action.access? = some access)
    (hwait : access.attempt memory .memory = (false, after)) :
    action.Tries memory .waiting action after :=
  ⟨0, memory, access, .zero memory, fun _ => rfl, Nat.le_refl _, haccess, hwait⟩

theorem Moves.attempt {action next : Action} (h : action.Moves memory next after) :
    ∃ access, action.access? = some access ∧ access.attempt memory .memory = (true, after) := by
  cases h with
  | first hread => exact ⟨_, rfl, attempt_read hread⟩
  | second hread => exact ⟨_, rfl, attempt_read hread⟩
  | loaded hlt hread => exact ⟨_, if_pos hlt, attempt_read hread⟩
  | written hlt _ hwrite => exact ⟨_, if_pos hlt, attempt_writePartial hwrite⟩

theorem Moves.todo_lt {action next : Action} (h : action.Moves memory next after) :
    next.todo < action.todo := by
  cases h with
  | first =>
      simp only [todo, Source.todo]
      omega
  | second => exact Nat.lt_succ_self 0
  | loaded hlt =>
      simp only [todo, List.length_append, List.length_singleton]
      omega
  | written hlt hpos =>
      simp only [todo]
      omega

theorem Tries.of_move {action middle next : Action} {memory' : σ} {progress : Progress}
    (hmove : action.Moves memory middle memory') (h : middle.Tries memory' progress next after) :
    action.Tries memory progress next after := by
  obtain ⟨access, -, hattempt⟩ := hmove.attempt
  have hless := hmove.todo_lt
  have hdone (h : ∃ n, Served n memory' after ∧ (n = 0 → middle.access? = none)) :
      ∃ n, Served n memory after ∧ (n = 0 → action.access? = none) := by
    obtain ⟨n, hserved, -⟩ := h
    exact ⟨n + 1, .succ access hattempt hserved, fun hzero => by cases hzero⟩
  cases progress with
  | waiting =>
      obtain ⟨n, last, waited, hserved, -, hle, haccess, hwait⟩ := h
      refine ⟨n + 1, last, waited, .succ access hattempt hserved, ?_, by omega, haccess, hwait⟩
      intro hzero
      cases hzero
  | finished writes => exact hdone h
  | faulted fault => exact hdone h

theorem Ends.tries {action : Action} {progress : Progress} (h : action.Ends memory progress after) :
    action.Tries memory progress action after := by
  have hone {access : Access} (hattempt : access.attempt memory .memory = (true, after)) :
      ∃ n, Served n memory after ∧ (n = 0 → action.access? = none) :=
    ⟨1, .one hattempt, fun hzero => by cases hzero⟩
  cases h with
  | waits haccess hwait => exact .of_wait haccess hwait
  | calculated => exact ⟨0, .zero memory, fun _ => rfl⟩
  | failed => exact ⟨0, .zero memory, fun _ => rfl⟩
  | loaded hread => exact hone (attempt_read hread)
  | stored hstore => exact hone (attempt_store hstore)
  | allLoaded hall => exact ⟨0, .zero memory, fun _ => if_neg (Nat.not_lt.mpr hall)⟩
  | allWritten hall => exact ⟨0, .zero memory, fun _ => if_neg (Nat.not_lt.mpr hall)⟩
  | stuck _ hwrite => exact hone (attempt_writePartial hwrite)
  | branch => exact ⟨0, .zero memory, fun _ => rfl⟩

theorem Goes.tries {action next : Action} {progress : Progress}
    (h : action.Goes memory progress next after) :
    action.Tries memory progress next after := by
  induction h with
  | ends h => exact h.tries
  | moves hmove _ ih => exact ih.of_move hmove

theorem advance_tries {action next : Action} {progress : Progress} {context after : Context σ}
    (h : action.advance context = (progress, next, after)) :
    action.Tries context.memory progress next after.memory := by
  cases tried_of_advance h with
  | jumps | stays => exact ⟨0, .zero _, fun _ => rfl⟩
  | goes _ hgoes => exact hgoes.tries

end Action

end

open LiveStorage

-- Whom memory serves after the tries of one issuer: that issuer only for what it waits for, and
-- another only if memory served it before.
def Handover {σ : Type} [Storage σ] [LiveStorage σ] (issuer : Stage) (before after : σ)
    (waits : Option Access) : Prop :=
  ∀ stage, owner after = some stage →
    stage = issuer ∧ (∃ access, waits = some access ∧ Attends after issuer access) ∨
      stage ≠ issuer ∧ owner before = some stage ∧ ∀ access, Attends before stage access →
      Attends after stage access

section

variable {σ : Type} [Storage σ] [LiveStorage σ] {memory after : σ}

theorem Handover.trans {issuer : Stage} {middle : σ} {waits : Option Access}
    (h : Handover issuer memory middle none) (h' : Handover issuer middle after waits) :
    Handover issuer memory after waits := by
  intro stage hstage
  rcases h' stage hstage with hown | ⟨hne, howner, hkeeps⟩
  · exact .inl hown
  · rcases h stage howner with ⟨-, access, hnone, -⟩ | ⟨-, howner', hkeeps'⟩
    · cases hnone
    · exact .inr ⟨hne, howner', fun access hattends => hkeeps access (hkeeps' access hattends)⟩

theorem Handover.of_done {issuer : Stage} {access : Access} (waits : Option Access)
    (hattempt : access.attempt memory issuer = (true, after)) :
    Handover issuer memory after waits := by
  intro stage hstage
  exact .inr (LiveStorage.done hattempt hstage)

theorem Handover.of_wait {issuer : Stage} {access : Access}
    (hattends : owner memory = some issuer → Attends memory issuer access)
    (hattempt : access.attempt memory issuer = (false, after)) :
    Handover issuer memory after (some access) := by
  intro stage hstage
  cases howner : owner memory with
  | none =>
      obtain ⟨hown, hattends', -⟩ := wait_own (.inl howner) hattempt
      obtain rfl := Option.some.inj (hstage.symm.trans hown)
      exact .inl ⟨rfl, access, rfl, hattends'⟩
  | some other =>
      by_cases hsame : other = issuer
      · subst hsame
        obtain ⟨hown, hattends', -⟩ := wait_own (.inr ⟨howner, hattends howner⟩) hattempt
        obtain rfl := Option.some.inj (hstage.symm.trans hown)
        exact .inl ⟨rfl, access, rfl, hattends'⟩
      · obtain ⟨hown, hkeeps⟩ := wait_other howner hsame hattempt
        obtain rfl := Option.some.inj (hstage.symm.trans hown)
        exact .inr ⟨hsame, rfl, fun access hattends => (hkeeps access hattends).1⟩

theorem Handover.weaken {issuer : Stage} (h : Handover issuer memory after none)
    (waits : Option Access) :
    Handover issuer memory after waits := by
  intro stage hstage
  rcases h stage hstage with ⟨-, access, hnone, -⟩ | hother
  · cases hnone
  · exact .inr hother

theorem Served.handover {n : Nat} (h : Served n memory after) (hpos : 0 < n) :
    Handover .memory memory after none := by
  induction h with
  | zero memory => exact absurd hpos (Nat.lt_irrefl 0)
  | @succ n memory middle after access hattempt hmore ih =>
      have hfirst : Handover .memory memory middle none := .of_done none hattempt
      cases n with
      | zero =>
          cases hmore
          exact hfirst
      | succ n => exact hfirst.trans (ih (Nat.succ_pos n))

-- Nobody but who waits is served after a try.
theorem Action.Tries.handover {action next : Action} {progress : Progress}
    (h : action.Tries memory progress next after)
    (hattends : owner memory = some .memory → ∃ access, action.access? = some access ∧
      Attends memory .memory access) :
    Handover .memory memory after (if progress = .waiting then next.access? else none) := by
  have hfinished (h : ∃ n, Served n memory after ∧ (n = 0 → action.access? = none)) :
      Handover .memory memory after none := by
    obtain ⟨n, hserved, hnone⟩ := h
    by_cases hzero : n = 0
    · subst hzero
      cases hserved
      intro stage hstage
      refine .inr ⟨?_, hstage, fun _ => id⟩
      rintro rfl
      obtain ⟨access, haccess, -⟩ := hattends hstage
      rw [hnone rfl] at haccess
      cases haccess
    · exact hserved.handover (Nat.pos_of_ne_zero hzero)
  cases progress with
  | waiting =>
      obtain ⟨n, middle, access, hserved, hsame, -, haccess, hwait⟩ := h
      rw [if_pos rfl, haccess]
      by_cases hzero : n = 0
      · subst hzero
        obtain rfl := hsame rfl
        cases hserved
        refine .of_wait ?_ hwait
        intro howner
        obtain ⟨access', haccess', hattends'⟩ := hattends howner
        obtain rfl := Option.some.inj (haccess.symm.trans haccess')
        exact hattends'
      · have hserved' := hserved.handover (Nat.pos_of_ne_zero hzero)
        refine hserved'.trans (.of_wait ?_ hwait)
        intro howner
        rcases hserved' _ howner with ⟨-, access', hnone, -⟩ | ⟨hne, -⟩
        · cases hnone
        · exact absurd rfl hne
  | finished writes => exact hfinished h
  | faulted fault => exact hfinished h

end

end PipelinedProcessor
