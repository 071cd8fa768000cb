import PipelinedProcessor.Proofs.Flight.Tries

namespace PipelinedProcessor

open LiveStorage

namespace MainMemory

-- The waits that are over for the request that memory is busy with.
def waited (memory : MainMemory) : Int :=
  memory.pending.elim 0 fun pending => memory.delay - pending.remaining

theorem waited_of_idle {memory : MainMemory} (h : memory.pending = none) : memory.waited = 0 := by
  rw [waited, h]
  rfl

-- Those that are not are still due.
theorem waited_of_turn {memory : MainMemory} {request : Request}
    (hmine : ∀ pending, memory.pending = some pending → pending.request = request) :
    memory.waited = memory.delay - memory.due request := by
  cases hpending : memory.pending with
  | none =>
      rw [waited_of_idle hpending, due_of_idle hpending]
      omega
  | some pending =>
      obtain ⟨asked, remaining⟩ := pending
      obtain rfl : asked = request := hmine _ hpending
      rw [due_of_pending hpending, waited, hpending]
      rfl

section

variable {memory after : MainMemory} {access : Access} {issuer : Stage}

variable (access issuer) in
theorem attempt_of_busy {other : Stage} (howner : owner memory = some other)
    (hne : other ≠ issuer) :
    access.attempt memory issuer = (false, memory) := by
  obtain ⟨α, serve, -, hattempt⟩ := attempt_eq access memory issuer
  obtain ⟨pending, hpending, rfl⟩ := owner_eq_some.mp howner
  rw [hattempt, access_of_busy issuer access.address serve hpending]
  · rfl
  · rintro heq
    exact hne (congrArg Request.issuer heq)

-- An access that waits has one wait less before it.
theorem attempt_of_wait
    (hmine : ∀ pending, memory.pending = some pending → pending.request = ⟨issuer, access.address⟩)
    (hwait : access.attempt memory issuer = (false, after)) :
    after.waited = memory.waited + 1 ∧ after.delay = memory.delay := by
  obtain ⟨α, serve, -, hattempt⟩ := attempt_eq access memory issuer
  rw [hattempt] at hwait
  rcases access_of_turn issuer access.address serve hmine with ⟨-, hresult⟩ | ⟨r, hdue, hresult⟩
  · rw [hresult] at hwait
    cases (Prod.mk.inj hwait).1
  · rw [hresult] at hwait
    obtain ⟨-, rfl⟩ := Prod.mk.inj hwait
    rw [waited_of_turn hmine, hdue]
    refine ⟨?_, rfl⟩
    show (memory.delay : Int) - r = _
    omega

-- One that is done has waited as long as every access has to.
theorem attempt_of_done (hdone : access.attempt memory issuer = (true, after)) :
    memory.waited = memory.delay ∧ after.pending = none ∧ after.delay = memory.delay := by
  obtain ⟨α, serve, hserve, hattempt⟩ := attempt_eq access memory issuer
  rw [hattempt] at hdone
  by_cases hmine : ∀ pending, memory.pending = some pending →
    pending.request = ⟨issuer, access.address⟩
  · rcases access_of_turn issuer access.address serve hmine with ⟨hdue, hresult⟩ | ⟨r, -, hresult⟩
    · rw [hresult] at hdone
      obtain ⟨-, rfl⟩ := Prod.mk.inj hdone
      rw [waited_of_turn hmine, hdue]
      exact ⟨by omega, (hserve _).1, (hserve _).2⟩
    · rw [hresult] at hdone
      cases (Prod.mk.inj hdone).1
  · obtain ⟨pending, hpending, hne⟩ :
        ∃ pending, memory.pending = some pending ∧ pending.request ≠ ⟨issuer, access.address⟩ := by
      simpa using hmine
    rw [access_of_busy issuer access.address serve hpending hne] at hdone
    cases (Prod.mk.inj hdone).1

end

end MainMemory

-- Accesses that are done in one try find all their waits over.
theorem Served.waited {n : Nat} {memory after : MainMemory} (h : Served n memory after) :
    memory.waited = after.waited + n * memory.delay ∧ after.delay = memory.delay ∧
      (0 < n → after.pending = none) := by
  induction h with
  | zero memory =>
      refine ⟨?_, rfl, fun hpos => absurd hpos (Nat.lt_irrefl 0)⟩
      simp
  | @succ n memory middle after access hattempt hmore ih =>
      obtain ⟨hwaited, hidle, hdelay⟩ := MainMemory.attempt_of_done hattempt
      obtain ⟨hrest, hdelay', hidle'⟩ := ih
      rw [MainMemory.waited_of_idle hidle, hdelay] at hrest
      refine ⟨?_, hdelay'.trans hdelay, fun _ => ?_⟩
      · push_cast
        rw [Int.add_mul]
        omega
      · cases n with
        | zero =>
            cases hmore
            exact hidle
        | succ n => exact hidle' (Nat.succ_pos n)

-- None is done while memory serves another.
theorem Served.eq_of_busy {n : Nat} {memory after : MainMemory} (h : Served n memory after)
    {other : Stage} (howner : owner memory = some other) (hne : other ≠ .memory) :
    after = memory := by
  cases h with
  | zero => rfl
  | succ access hattempt hmore =>
      cases hattempt.symm.trans (MainMemory.attempt_of_busy access .memory howner hne)

-- How many lines it takes to write so many words, the first of them at a place.
def lineParts (place count : Nat) : Nat :=
  if count = 0 then 0 else (place % lineLength + count + (lineLength - 1)) / lineLength

-- The words that fit into the first line are the first part.
theorem lineParts_step (place count : Nat) (hcount : 0 < count) :
    lineParts (place + min count (lineLength - place % lineLength))
      (count - min count (lineLength - place % lineLength)) + 1 = lineParts place count := by
  have hpart (part left : Nat) (hleft : part + left = count)
      (hfits : left = 0 ∧ part ≤ lineLength - place % lineLength ∨
        part = lineLength - place % lineLength) :
      lineParts (place + part) left + 1 = lineParts place count := by
    unfold lineParts
    rw [if_neg (Nat.ne_of_gt hcount)]
    simp only [lineLength] at hfits ⊢
    split <;> omega
  rcases Nat.le_total count (lineLength - place % lineLength) with hle | hle
  · rw [Nat.min_eq_left hle]
    exact hpart count _ (by omega) (.inl ⟨Nat.sub_self count, hle⟩)
  · rw [Nat.min_eq_right hle]
    exact hpart _ _ (by omega) (.inr rfl)

namespace Action

-- How many accesses an action has still to make.
def requests : Action → Nat
  | scalar _ _ _ _ first second => first.todo + second.todo
  | load _ _ => 1
  | store _ _ => 1
  | vectorLoad _ _ length loaded => length - loaded.length
  | vectorStore base data written => lineParts (base + written) (data.length - written)
  | branch _ _ _ => 0

-- What a try comes to, counted exactly. One that faults is of no account.
def Counts (action : Action) (memory : MainMemory) (progress : Progress) (next : Action)
    (after : MainMemory) :
    Prop :=
  match progress with
  | .waiting => ∃ n middle access, Served n memory middle ∧ (n = 0 → next = action) ∧
    next.requests + n = action.requests ∧ next.access? = some access ∧
    access.attempt middle .memory = (false, after)
  | .finished _ => Served action.requests memory after
  | .faulted _ => True

section

variable {memory after : MainMemory}

theorem Counts.of_wait {action : Action} {access : Access} (haccess : action.access? = some access)
    (hwait : access.attempt memory .memory = (false, after)) :
    action.Counts memory .waiting action after :=
  ⟨0, memory, access, .zero memory, fun _ => rfl, rfl, haccess, hwait⟩

-- A part that is written ends where the line does, or with the data.
theorem count_of_writePartial {address count : Nat} {data : List Word}
    (h : Storage.writePartial memory .memory address data = (.done count, after)) :
    count = min data.length (lineLength - address % lineLength) := by
  obtain ⟨pending, hwait⟩ | hdone := memory.access_cases .memory address fun memory =>
    (fitting (memory.offset address) data,
      memory.putLine address (patch (memory.peekWords address) (memory.offset address) data))
  · have hresult := h.symm.trans hwait
    cases hresult
  · have hresult := h.symm.trans hdone
    obtain rfl := Poll.done.inj (Prod.mk.inj hresult).1
    rw [fitting, MainMemory.offset_val]

-- An access that is done is one less to make.
theorem Moves.requests_eq {action next : Action} (h : action.Moves memory next after) :
    next.requests + 1 = action.requests := by
  cases h with
  | first =>
      simp only [requests, Source.todo]
      omega
  | second => rfl
  | loaded hlt =>
      simp only [requests, List.length_append, List.length_singleton]
      omega
  | @written base written count data memory after hlt hpos hwrite =>
      have hcount := count_of_writePartial hwrite
      have hstep := lineParts_step (base + written) (data.length - written) (by omega)
      rw [List.length_drop] at hcount
      rw [← hcount] at hstep
      simp only [requests, ← Nat.add_assoc, ← Nat.sub_sub, hstep]

theorem Counts.of_move {action middle next : Action} {memory' : MainMemory} {progress : Progress}
    (hmove : action.Moves memory middle memory') (h : middle.Counts memory' progress next after) :
    action.Counts memory progress next after := by
  obtain ⟨access, -, hattempt⟩ := hmove.attempt
  have hone := hmove.requests_eq
  cases progress with
  | waiting =>
      obtain ⟨n, last, waited, hserved, -, hexact, haccess, hwait⟩ := h
      refine ⟨n + 1, last, waited, .succ access hattempt hserved, ?_, by omega, haccess, hwait⟩
      intro hzero
      cases hzero
  | finished writes =>
      show Served action.requests memory after
      rw [← hone]
      exact .succ access hattempt h
  | faulted fault => trivial

theorem Ends.counts {action : Action} {progress : Progress}
    (h : action.Ends memory progress after) :
    action.Counts memory progress action after := by
  have hnone (hnone : action.requests = 0) : Served action.requests memory memory := by
    rw [hnone]
    exact .zero memory
  cases h with
  | waits haccess hwait => exact .of_wait haccess hwait
  | calculated => exact .zero memory
  | failed => trivial
  | loaded hread => exact .one (attempt_read hread)
  | stored hstore => exact .one (attempt_store hstore)
  | allLoaded hall => exact hnone (Nat.sub_eq_zero_of_le hall)
  | allWritten hall => exact hnone (if_pos (Nat.sub_eq_zero_of_le hall))
  | stuck => trivial
  | branch => exact .zero memory

theorem Goes.counts {action next : Action} {progress : Progress}
    (h : action.Goes memory progress next after) :
    action.Counts memory progress next after := by
  induction h with
  | ends h => exact h.counts
  | moves hmove _ ih => exact ih.of_move hmove

theorem advance_counts {action next : Action} {progress : Progress}
    {context after : Context MainMemory} (h : action.advance context = (progress, next, after)) :
    action.Counts context.memory progress next after.memory := by
  cases tried_of_advance h with
  | jumps | stays => exact .zero _
  | goes _ hgoes => exact hgoes.counts

-- A try uses up one wait, and none only while memory serves another. Each access that it gets done
-- was waited for as long as every access.

theorem Counts.finished {action next : Action} {writes : List RegisterWrite}
    (h : action.Counts memory (.finished writes) next after) :
    memory.waited = after.waited + action.requests * memory.delay ∧ after.delay = memory.delay :=
  ⟨(Served.waited h).1, (Served.waited h).2.1⟩

theorem Counts.waiting {action next : Action} (h : action.Counts memory .waiting next after)
    (hattends : owner memory = some .memory → ∃ access, action.access? = some access ∧
      Attends memory .memory access) :
    after.delay = memory.delay ∧
      ((∃ other, owner memory = some other ∧ other ≠ .memory ∧ next = action ∧ after = memory) ∨
        next.requests * memory.delay + memory.waited + 1 = action.requests *
          memory.delay + after.waited) := by
  obtain ⟨n, middle, access, hserved, hsame, hcount, haccess, hwait⟩ := h
  obtain ⟨hwaited, hdelay, hidle⟩ := hserved.waited
  by_cases hbusy : ∃ other, n = 0 ∧ owner memory = some other ∧ other ≠ .memory
  · obtain ⟨other, rfl, howner, hne⟩ := hbusy
    cases hserved
    have hbusy := MainMemory.attempt_of_busy access .memory howner hne
    obtain ⟨-, rfl⟩ := Prod.mk.inj (hwait.symm.trans hbusy)
    exact ⟨rfl, .inl ⟨other, howner, hne, hsame rfl, rfl⟩⟩
  · have hmine : ∀ pending, middle.pending = some pending →
        pending.request = ⟨.memory, access.address⟩ := by
      intro pending hpending
      by_cases hzero : n = 0
      · subst hzero
        obtain rfl := hsame rfl
        cases hserved
        have howner : owner memory = some pending.request.issuer :=
          MainMemory.owner_eq_some.mpr ⟨pending, hpending, rfl⟩
        have hissuer : pending.request.issuer = .memory := by
          by_contra hne
          exact hbusy ⟨_, rfl, howner, hne⟩
        obtain ⟨asked, hasked, hattends'⟩ := hattends (howner.trans (congrArg some hissuer))
        obtain rfl := Option.some.inj (haccess.symm.trans hasked)
        have haddress := hattends' pending hpending hissuer
        obtain ⟨⟨stage, address⟩, remaining⟩ := pending
        obtain rfl : stage = .memory := hissuer
        obtain rfl : address = access.address := haddress
        rfl
      · rw [hidle (Nat.pos_of_ne_zero hzero)] at hpending
        cases hpending
    obtain ⟨hone, hdelay'⟩ := MainMemory.attempt_of_wait hmine hwait
    refine ⟨hdelay'.trans hdelay, .inr ?_⟩
    rw [hone, ← hcount, hwaited]
    push_cast
    rw [Int.add_mul]
    omega

-- Then nothing changes.
theorem Counts.eq_of_busy {action next : Action} {progress : Progress}
    (h : action.Counts memory progress next after) (hfault : ∀ fault, progress ≠ .faulted fault)
    {other : Stage} (howner : owner memory = some other) (hne : other ≠ .memory) :
    after = memory := by
  cases progress with
  | waiting =>
      obtain ⟨n, middle, access, hserved, -, -, -, hwait⟩ := h
      obtain rfl := hserved.eq_of_busy howner hne
      exact (Prod.mk.inj
        (hwait.symm.trans (MainMemory.attempt_of_busy access .memory howner hne))).2
  | finished writes => exact Served.eq_of_busy h howner hne
  | faulted fault => exact absurd rfl (hfault fault)

end

end Action

end PipelinedProcessor
