import PipelinedProcessor.Proofs.Architecture.Accesses
import PipelinedProcessor.Proofs.Cache.Placing
import PipelinedProcessor.Proofs.Pipeline.Liveness
import PipelinedProcessor.Proofs.Pipeline.Retirement
import PipelinedProcessor.Proofs.Pipeline.Underway

namespace PipelinedProcessor

open Flight LiveStorage

-- What the time of a run depends on: how long every access waits, and the instructions up to the
-- word that halts.
structure Schedule where
  delay : Nat
  course : Nat → ArchState
  last : Nat

namespace Schedule

variable (schedule : Schedule)

-- The waits of an instruction in Memory Access.
def waits (i : Nat) : Nat := (schedule.course i).accesses * schedule.delay

-- The cycles that an instruction takes alone, which are its waits and one for each stage. The word
-- that halts is only fetched.
def cost (i : Nat) : Nat :=
  if i < schedule.last then schedule.delay + 5 + schedule.waits i else schedule.delay + 1

-- What is left of them for a flight.
def debt (f : Flight) : Nat :=
  match f.stage with
  | .fetch => if f.state = .completed then 4 + schedule.waits f.id else schedule.cost f.id
  | .decode => (if f.state = .ready then 4 else 3) + schedule.waits f.id
  | .execute =>
    if f.state = .completed then 2 + f.requests * schedule.delay else 3 + schedule.waits f.id
  | .memory => if f.state = .completed then 1 else 2 + f.requests * schedule.delay
  | .writeBack => if f.state = .completed then 0 else 1
  | .system => 0

-- The course is that of the instruction set, and comes to the word that halts.
structure Covers (capacity : Nat) : Prop where
  next : ∀ n, schedule.course (n + 1) = (schedule.course n).next capacity
  halts : (schedule.course schedule.last).word = Word.halt
  runs : ∀ i < schedule.last, ∃ t, (schedule.course i).step capacity = .ok (some t)

-- What those cost that have not entered yet.
def ahead (next : Nat) : Nat :=
  ((List.range' next (schedule.last + 1 - next)).map schedule.cost).sum

theorem ahead_of_le {next : Nat} (h : next ≤ schedule.last) :
    schedule.ahead next = schedule.cost next + schedule.ahead (next + 1) := by
  obtain ⟨n, hn⟩ : ∃ n, schedule.last + 1 - next = n + 1 := ⟨schedule.last - next, by omega⟩
  rw [ahead, ahead, hn, List.range'_succ, List.map_cons, List.sum_cons,
    show schedule.last + 1 - (next + 1) = n by omega]

-- All that is left of a run, as many cycles as it would take if no two stages worked at a time. The
-- waits that are over belong to the flight that memory serves.
def left (p : Pipeline) (memory : MainMemory) : Int :=
  p.slots.total schedule.debt + schedule.ahead p.nextId - memory.waited

theorem left_put {p : Pipeline} (p' : Pipeline) {stage : Stage} {f f' : Flight}
    (hf : p.slots.slot stage = some f) (hslots : p'.slots = p.slots.put stage (some f'))
    (hnext : p'.nextId = p.nextId) (memory memory' : MainMemory) :
    schedule.left p' memory' + memory'.waited + schedule.debt f =
      schedule.left p memory + memory.waited + schedule.debt f' := by
  have htotal := Slots.total_put schedule.debt hf f'
  rw [left, left, hslots, hnext]
  omega

end Schedule

namespace Slots

-- Whether there is work in a stage.
def busy (slots : Slots) (stage : Stage) : Nat :=
  if (slots.slot stage).any (·.state = .ready) then 1 else 0

-- In how many stages there is.
def busyStages (slots : Slots) : Nat :=
  slots.busy .fetch + slots.busy .decode + slots.busy .execute + slots.busy .memory +
    slots.busy .writeBack

-- That somebody has work to do.
def Active (slots : Slots) : Prop := ∃ stage f, slots.slot stage = some f ∧ f.state = .ready

variable {slots slots' : Slots} {stage : Stage}

theorem busy_of_ready {f : Flight} (hf : slots.slot stage = some f) (hready : f.state = .ready) :
    slots.busy stage = 1 := by
  rw [busy, hf]
  exact if_pos (by simpa using hready)

theorem busy_of_idle (h : ∀ f, slots.slot stage = some f → f.state ≠ .ready) :
    slots.busy stage = 0 := by
  refine if_neg ?_
  cases hf : slots.slot stage with
  | none => exact Bool.false_ne_true
  | some f => simpa using h f hf

theorem busyStages_le (slots : Slots) : slots.busyStages ≤ slots.flights.length := by
  have hle (stage : Stage) : slots.busy stage ≤ (slots.slot stage).toList.length := by
    rw [busy]
    cases slots.slot stage with
    | none => exact Nat.le_refl 0
    | some f =>
        show (if _ then 1 else 0) ≤ 1
        split
        · exact Nat.le_refl 1
        · exact Nat.zero_le 1
  have hfetch := hle .fetch
  have hdecode := hle .decode
  have hexecute := hle .execute
  have hmemory := hle .memory
  have hwriteBack := hle .writeBack
  rw [flights_eq]
  simp only [slot] at hfetch hdecode hexecute hmemory hwriteBack
  simp only [List.length_append, busyStages]
  omega

theorem busy_of_same (h : slots'.slot stage = slots.slot stage) :
    slots'.busy stage = slots.busy stage := by
  rw [busy, busy, h]

end Slots

-- What has been paid of a debt: no more than a cycle for each that has work, and that much if it is
-- its turn.
structure Pays (busy : Nat) (turn : Prop) (before after : Int) : Prop where
  le : after ≤ before
  most : before ≤ after + busy
  all : turn → after + busy ≤ before

theorem pays_of_eq {busy : Nat} {turn : Prop} {before after : Int} (h : after + busy = before) :
    Pays busy turn before after := ⟨by omega, by omega, fun _ => by omega⟩

theorem pays_of_wait {busy : Nat} {turn : Prop} {before after : Int} (h : after = before)
    (hwait : ¬turn) :
    Pays busy turn before after := ⟨by omega, by omega, fun hturn => absurd hturn hwait⟩

namespace Pipeline

variable {schedule : Schedule} {p p' : Pipeline}

-- What the stages pay.

section

variable (schedule) {σ : Type} (h : WellFormed p)

include h

theorem commitStage_left {context after : Context MainMemory}
    (hresult : p.commitStage context = (p', after)) :
    schedule.left p' after.memory + p.slots.busy .writeBack = schedule.left p context.memory := by
  rcases in_state_or_not (p.slots.slot .writeBack) .ready with ⟨f, hf, hready⟩ | hidle
  · rw [commitStage_of_ready hf hready] at hresult
    obtain ⟨rfl, rfl⟩ := Prod.mk.inj hresult
    have hstage := h.inPlace .writeBack f hf
    have hbefore : schedule.debt f = 1 := by simp [Schedule.debt, hstage, hready]
    have hafter : schedule.debt (f.commit context).1 = 0 := by
      simp [Schedule.debt, commit, complete, hstage]
    have hput :=
      schedule.left_put
        { p with slots := p.slots.put .writeBack (some (f.commit context).1) } hf rfl rfl
      context.memory (f.commit context).2.memory
    rw [f.memory_commit] at hput ⊢
    rw [Slots.busy_of_ready hf hready]
    omega
  · rw [commitStage_of_idle hidle] at hresult
    obtain ⟨rfl, rfl⟩ := Prod.mk.inj hresult
    rw [Slots.busy_of_idle hidle]
    exact Int.add_zero _

theorem executeStage_left {context : Context σ} (memory : MainMemory)
    (hresult : p.executeStage context.registers context.vectors = .ok p')
    (hrequests : ∀ f f', p.slots.slot .execute = some f → f.state = .ready →
      f.execute context.registers context.vectors = .ok f' →
      f'.requests = (schedule.course f.id).accesses) :
    schedule.left p' memory + p.slots.busy .execute = schedule.left p memory := by
  rcases in_state_or_not (p.slots.slot .execute) .ready with ⟨f, hf, hready⟩ | hidle
  · rw [executeStage_of_ready hf hready] at hresult
    obtain ⟨f', hexecute, rfl⟩ := ok_of_map hresult
    have hstage := h.inPlace .execute f hf
    obtain ⟨-, -, -, hstage', hstate⟩ := (h.fits hf).execute hready hstage hexecute
    have hbefore : schedule.debt f = 3 + schedule.waits f.id := by
      simp [Schedule.debt, hstage, hready]
    have hafter : schedule.debt f' = 2 + schedule.waits f.id := by
      simp only [Schedule.debt, hstage', hstage, hstate, if_true,
        hrequests f f' hf hready hexecute, Schedule.waits]
    have hput := schedule.left_put { p with slots := p.slots.put .execute (some f') }
      hf rfl rfl memory memory
    rw [Slots.busy_of_ready hf hready]
    omega
  · rw [executeStage_of_idle hidle] at hresult
    obtain rfl := Except.ok.inj hresult
    rw [Slots.busy_of_idle hidle]
    exact Int.add_zero _

theorem decodeStage_left (memory : MainMemory) :
    schedule.left p.decodeStage memory + p.slots.busy .decode = schedule.left p memory := by
  rcases in_state_or_not (p.slots.slot .decode) .ready with ⟨f, hf, hready⟩ | hidle
  · have hstage := h.inPlace .decode f hf
    have hless := weight_decode hready p.slots.flights
    have hwell := h.decodeStage
    rw [decodeStage_of_ready hf hready] at hwell ⊢
    have hput :=
      schedule.left_put
        { p with slots := p.slots.put .decode (some (f.decode p.slots.flights)) } hf rfl rfl
      memory memory
    have hstage' := hwell.inPlace .decode (f.decode p.slots.flights) rfl
    have hstate' : (f.decode p.slots.flights).state ≠ .ready := by
      intro hready'
      rw [weight_of_ready hready', weight_of_ready hready, hstage', hstage] at hless
      exact Nat.lt_irrefl _ hless
    have hbefore : schedule.debt f = 4 + schedule.waits f.id := by
      simp [Schedule.debt, hstage, hready]
    have hafter : schedule.debt (f.decode p.slots.flights) = 3 + schedule.waits f.id := by
      simp only [Schedule.debt, hstage', hstate', if_false, (f.decode_same p.slots.flights).1]
    rw [Slots.busy_of_ready hf hready]
    omega
  · obtain ⟨hslots, hnext⟩ := decodeStage_of_idle hidle
    rw [Slots.busy_of_idle hidle, Schedule.left, Schedule.left, hslots, hnext]
    exact Int.add_zero _

end

section

variable (h : WellFormed p) {context after : Context MainMemory}
  (hattended : Attended p.slots.asks context.memory)
    (hdelay : context.memory.delay = schedule.delay)

include h hattended hdelay

-- Memory Access also pays where it asks for nothing, so that what it pays while memory serves Fetch
-- is not fixed. It leaves memory alone then.
theorem accessStage_left (hresult : p.accessStage context = (none, p', after)) :
    Pays (p.slots.busy .memory) (owner context.memory ≠ some .fetch)
      (schedule.left p context.memory) (schedule.left p' after.memory) := by
  rcases in_state_or_not (p.slots.slot .memory) .ready with ⟨f, hf, hready⟩ | hidle
  · have hstage := h.inPlace .memory f hf
    have hbefore : schedule.debt f = 2 + f.requests * schedule.delay := by
      simp [Schedule.debt, hstage, hready]
    rw [Slots.busy_of_ready hf hready]
    have hput {f' : Flight} {later : Context MainMemory}
        (haccess : f.access context = (none, f', later)) :
        schedule.left p' after.memory + after.memory.waited + schedule.debt f =
          schedule.left p context.memory + context.memory.waited + schedule.debt f' ∧
          after = later := by
      rw [accessStage_of_ready hf hready haccess] at hresult
      obtain ⟨-, rfl, rfl⟩ := hresult
      refine ⟨?_, rfl⟩
      exact schedule.left_put { p with
        slots := p.slots.put .memory (some f')
        openBranch := if f'.state = .completed ∧ p.openBranch = some f'.id then none
          else p.openBranch } hf rfl rfl
        context.memory after.memory
    cases haction : f.action with
    | none =>
        obtain ⟨hpaid, rfl⟩ := hput (access_of_none haction context)
        have hafter : schedule.debt f.complete = 1 := by simp [Schedule.debt, complete, hstage]
        have hnone : f.requests = 0 := by
          rw [requests, haction]
          rfl
        rw [hnone] at hbefore
        exact pays_of_eq (by omega)
    | some action =>
        have hasked : f.requests = action.requests := by
          rw [requests, haction]
          rfl
        rcases hadvance : action.advance context with ⟨progress, next, later⟩
        have hcounts := Action.advance_counts hadvance
        cases progress with
        | finished writes =>
            obtain ⟨hpaid, rfl⟩ := hput (access_of_finished haction hadvance)
            obtain ⟨hwaited, -⟩ := hcounts.finished
            set served : Flight :=
              { f with action := some next, results := f.results ++ writes }.complete with hserved
            have hafter : schedule.debt served = 1 := by
              simp [Schedule.debt, hserved, complete, hstage]
            rw [hdelay, ← hasked] at hwaited
            exact pays_of_eq (by push_cast; omega)
        | waiting =>
            obtain ⟨hpaid, rfl⟩ := hput (access_of_waiting haction hadvance)
            have hafter : schedule.debt { f with action := some next } = 2 +
                next.requests * schedule.delay := by
              simp [Schedule.debt, hstage, hready, requests]
            obtain ⟨-, ⟨other, howner, hne, rfl, hsame⟩ | hwaited⟩ :=
              hcounts.waiting fun howner => by
              obtain ⟨access, hasks, hattends⟩ := hattended _ howner
              refine ⟨access, ?_, hattends⟩
              rwa [Slots.asks, hf, Option.bind_some, asks, if_pos hready, haction] at hasks
            · rw [hsame] at hpaid ⊢
              rw [← hasked] at hafter
              refine pays_of_wait (by omega) fun hturn => ?_
              obtain ⟨rfl | rfl, -⟩ := ready_of_owner hattended howner
              · exact hturn howner
              · exact hne rfl
            · rw [hdelay, ← hasked] at hwaited
              exact pays_of_eq (by push_cast; omega)
        | faulted fault =>
            rw [accessStage_of_ready hf hready (access_of_faulted haction hadvance)] at hresult
            cases (Prod.mk.inj hresult).1
  · rw [accessStage_of_idle hidle] at hresult
    obtain ⟨-, rfl, rfl⟩ := hresult
    rw [Slots.busy_of_idle hidle]
    exact pays_of_eq (Int.add_zero _)

omit h hattended hdelay in
theorem accessStage_of_busy {other : Stage} (howner : owner context.memory = some other)
    (hne : other ≠ .memory) (hresult : p.accessStage context = (none, p', after)) :
    after.memory = context.memory := by
  rcases in_state_or_not (p.slots.slot .memory) .ready with ⟨f, hf, hready⟩ | hidle
  · cases haction : f.action with
    | none =>
        rw [accessStage_of_ready hf hready (access_of_none haction context)] at hresult
        obtain ⟨-, -, rfl⟩ := hresult
        rfl
    | some action =>
        rcases hadvance : action.advance context with ⟨progress, next, later⟩
        have hcounts := Action.advance_counts hadvance
        cases progress with
        | finished writes =>
            rw [accessStage_of_ready hf hready (access_of_finished haction hadvance)] at hresult
            obtain ⟨-, -, rfl⟩ := hresult
            exact hcounts.eq_of_busy nofun howner hne
        | waiting =>
            rw [accessStage_of_ready hf hready (access_of_waiting haction hadvance)] at hresult
            obtain ⟨-, -, rfl⟩ := hresult
            exact hcounts.eq_of_busy nofun howner hne
        | faulted fault =>
            rw [accessStage_of_ready hf hready (access_of_faulted haction hadvance)] at hresult
            cases (Prod.mk.inj hresult).1
  · rw [accessStage_of_idle hidle] at hresult
    obtain ⟨-, -, rfl⟩ := hresult
    rfl

-- Unless memory serves Memory Access it is free or has the word in hand that is to be fetched.
omit h hdelay in
theorem requested_of_fetching {f : Flight} (hf : p.slots.slot .fetch = some f)
    (hready : f.state = .ready) (hfree : owner context.memory ≠ some .memory) (pending : Pending)
    (hpending : context.memory.pending = some pending) :
    pending.request = ⟨.fetch, f.target context.registers⟩ := by
  obtain ⟨⟨stage, address⟩, remaining⟩ := pending
  have howner : owner context.memory = some stage := MainMemory.owner_eq_some.mpr ⟨_, hpending, rfl⟩
  obtain ⟨rfl | rfl, -⟩ := ready_of_owner hattended howner
  · obtain ⟨access, hasks, hattends⟩ := hattended _ howner
    obtain rfl : access = .read (f.target context.registers) :=
      Slots.target_of_asks hf hready hasks context.registers
    obtain rfl : address = f.target context.registers := hattends _ hpending rfl
    rfl
  · exact absurd howner hfree

-- Fetch waits while memory serves it, or in vain while it serves Memory Access.
omit h hdelay in
theorem waits_of_fetching {f : Flight} (hf : p.slots.slot .fetch = some f)
    (hready : f.state = .ready) {memory : MainMemory}
    (hread : Storage.read context.memory .fetch (f.target context.registers) = (.wait, memory)) :
    memory.waited = context.memory.waited + 1 ∨ owner context.memory = some .memory ∧
    memory = context.memory := by
  have hattempt := attempt_read hread
  by_cases hbusy : owner context.memory = some .memory
  · have hsame := MainMemory.attempt_of_busy (.read (f.target context.registers)) .fetch hbusy nofun
    exact .inr ⟨hbusy, congrArg Prod.snd (hattempt.symm.trans hsame)⟩
  · have hmine := requested_of_fetching hattended hf hready hbusy
    exact .inl (MainMemory.attempt_of_wait hmine hattempt).1

theorem fetchStage_left (hresult : p.fetchStage context = (p', after))
    (hword : ∀ f w memory, p.slots.slot .fetch = some f → f.state = .ready →
      Storage.read context.memory .fetch (f.target context.registers) = (.done w, memory) →
      (w = Word.halt ↔ schedule.last ≤ f.id)) :
    Pays (p.slots.busy .fetch) (owner context.memory ≠ some .memory)
      (schedule.left p context.memory) (schedule.left p' after.memory) := by
  rcases in_state_or_not (p.slots.slot .fetch) .ready with ⟨f, hf, hready⟩ | hidle
  · have hstage := h.inPlace .fetch f hf
    have hbefore : schedule.debt f = schedule.cost f.id := by simp [Schedule.debt, hstage, hready]
    rw [Slots.busy_of_ready hf hready]
    rcases hread :
      Storage.read context.memory .fetch (f.target context.registers) with ⟨answer, memory⟩
    cases answer with
    | wait =>
        rw [fetchStage_of_wait hf hready ((h.fits hf).blank (h.progress_of_ready hf hready))
          hread] at hresult
        obtain ⟨rfl, rfl⟩ := Prod.mk.inj hresult
        set f' : Flight := { f with address := some (f.target context.registers) } with hf'
        have hafter : schedule.debt f' = schedule.cost f.id := by
          simp [Schedule.debt, hf', hstage, hready]
        have hput := schedule.left_put { p with slots := p.slots.put .fetch (some f') } hf rfl
          rfl context.memory memory
        rcases waits_of_fetching hattended hf hready hread with hone | ⟨hbusy, rfl⟩
        · exact pays_of_eq (by push_cast; omega)
        · refine pays_of_wait ?_ fun hturn => hturn hbusy
          dsimp only
          omega
    | done w =>
        obtain ⟨hwaited, hidle, -⟩ := MainMemory.attempt_of_done (attempt_read hread)
        have hover := MainMemory.waited_of_idle hidle
        rw [hdelay] at hwaited
        by_cases hhalt : w = Word.halt
        · have hlast := (hword f w memory hf hready hread).mp hhalt
          subst hhalt
          rw [fetchStage_of_halt hf hready hread] at hresult
          obtain ⟨rfl, rfl⟩ := Prod.mk.inj hresult
          have hcost : schedule.cost f.id = schedule.delay + 1 := if_neg (by omega)
          have htotal := Slots.total_put_none schedule.debt hf
          refine pays_of_eq ?_
          rw [Schedule.left, Schedule.left]
          push_cast
          omega
        · have hlast : f.id < schedule.last :=
            Nat.lt_of_not_le fun hle => hhalt ((hword f w memory hf hready hread).mpr hle)
          rw [fetchStage_of_word hf hready hhalt hread] at hresult
          obtain ⟨rfl, rfl⟩ := Prod.mk.inj hresult
          set f' : Flight := { f with
            address := some (f.target context.registers)
            raw := some w }.complete with hf'
          have hcost : schedule.cost f.id = schedule.delay + 5 + schedule.waits f.id := if_pos hlast
          have hafter : schedule.debt f' = 4 + schedule.waits f.id := by
            simp [Schedule.debt, hf', complete, hstage]
          have hput := schedule.left_put { p with
            slots := p.slots.put .fetch (some f')
            openBranch := if w.kind = Word.branchKind then some f.id else p.openBranch } hf rfl rfl
            context.memory memory
          exact pays_of_eq (by push_cast; omega)
  · rw [fetchStage_of_idle hidle] at hresult
    obtain ⟨rfl, rfl⟩ := Prod.mk.inj hresult
    rw [Slots.busy_of_idle hidle]
    exact pays_of_eq (Int.add_zero _)

end

-- What happens between the work of two cycles costs nothing.

section

variable (h : WellFormed p)

include h

theorem retire_left (memory : MainMemory) :
    schedule.left p.retire memory = schedule.left p memory := by
  rcases in_state_or_not (p.slots.slot .writeBack) .completed with ⟨f, hf, hstate⟩ | hunfinished
  · have hpaid : schedule.debt f = 0 := by simp [Schedule.debt, h.inPlace .writeBack f hf, hstate]
    have hput := Slots.total_put_none schedule.debt hf
    have hwake : ((p.slots.put .writeBack none).map (wakeIf f.id)).total schedule.debt =
        (p.slots.put .writeBack none).total schedule.debt := by
      refine Slots.total_map schedule.debt fun g hg => ?_
      obtain ⟨stage, hslot⟩ := Slots.mem_flights.mp hg
      rw [Slots.slot_put _ .writeBack nofun] at hslot
      split at hslot
      · cases hslot
      · by_cases hstalled : g.state = .stalled f.id
        · have hdecode := ((h.fits hslot).stalled f.id hstalled).1
          rw [wakeIf_of_stalled hstalled]
          simp [Schedule.debt, complete, hdecode, hstalled]
        · rw [wakeIf_of_not_stalled hstalled]
    rw [retire_of_completed hf hstate, Schedule.left, Schedule.left]
    dsimp only
    omega
  · rw [retire_of_unfinished hunfinished]

theorem pass_left (first second : Stage) (horder : second.order.val = first.order.val + 1)
    (hplace : second ≠ .system) (memory : MainMemory) :
    schedule.left { p with slots := p.slots.pass first second } memory =
      schedule.left p memory := by
  rcases p.slots.pass_cases first second with hsame | ⟨f, hf, hfree, hstate, hpass⟩
  · rw [hsame]
  · have hfirst : first ≠ .system := by
      rintro rfl
      cases hf
    have hne : second ≠ first := by
      rintro rfl
      omega
    have hfree' : (p.slots.put first none).slot second = none := by
      rw [Slots.slot_put _ first hfirst, if_neg hne, hfree]
    have hleft := Slots.total_put_none schedule.debt hf
    have hentered := Slots.total_put_of_free schedule.debt hplace hfree' (f.enter second)
    have hdebt : schedule.debt (f.enter second) = schedule.debt f := by
      have hstage := h.inPlace first f hf
      cases first <;> cases second <;> first
        | exact absurd rfl hplace
        | exact absurd horder (by decide)
        | simp [Schedule.debt, enter, hstage, hstate, Flight.requests]
    rw [hpass, Schedule.left, Schedule.left]
    dsimp only
    omega

theorem advance_left (memory : MainMemory) :
    schedule.left p.advance memory = schedule.left p memory := by
  rw [← retire_left h memory]
  have hretired := h.retire
  have hfirst := hretired.move .memory .writeBack rfl nofun
  have hsecond := hfirst.move .execute .memory rfl nofun
  have hthird := hsecond.move .decode .execute rfl nofun
  calc schedule.left p.advance memory
    _ = _ := pass_left hthird .fetch .decode rfl nofun memory
    _ = _ := pass_left hsecond .decode .execute rfl nofun memory
    _ = _ := pass_left hfirst .execute .memory rfl nofun memory
    _ = _ := pass_left hretired .memory .writeBack rfl nofun memory

omit h in
theorem takeIn_left (hnext : p.haltId = none → p.slots.slot .fetch = none →
    p.nextId ≤ schedule.last) (memory : MainMemory) : schedule.left p.takeIn memory =
    schedule.left p memory := by
  rcases p.takeIn_cases with hsame | ⟨hhalts, hfree, -, htaken⟩
  · rw [hsame]
  · have hahead := schedule.ahead_of_le (hnext hhalts hfree)
    have hnew := Slots.total_put_of_free schedule.debt (by decide) hfree { id := p.nextId }
    have hdebt : schedule.debt { id := p.nextId } = schedule.cost p.nextId := rfl
    rw [htaken, Schedule.left, Schedule.left]
    dsimp only
    omega

end

-- A whole cycle.

namespace Tracks

variable {σ : Type} [Storage σ] [LawfulStorage σ] {capacity : Nat} {course : Nat → ArchState}
  {last : Nat} {context : Context σ} (h : Tracks capacity course last p context)
    (hhalt : (course last).word = Word.halt)

include h hhalt

theorem certain_of_started {stage : Stage} {f : Flight} (hf : p.slots.slot stage = some f)
    (hstarted : 0 < f.progress) : p.Certain course last f.id := by
  have hle := h.passed_fetch_le hhalt
  have hlt := (h.wellFormed.lt_fetched_iff hf).mpr hstarted
  exact fun _ => .inl (by omega)

theorem nextId_le (hhalts : p.haltId = none) (hfree : p.slots.slot .fetch = none) :
    p.nextId ≤ last := by
  have hle := h.passed_fetch_le hhalt
  have hall : p.slots.passed .fetch = p.slots.flights.length := by
    refine List.countP_eq_length.mpr fun f hf => ?_
    obtain ⟨stage, hslot⟩ := Slots.mem_flights.mp hf
    have hbounds := h.wellFormed.progress_bounds hslot
    have hne : stage.order.val ≠ 0 := by
      intro hzero
      obtain rfl : stage = .fetch := Stage.order_injective (Fin.ext hzero)
      rw [hfree] at hslot
      cases hslot
    exact decide_eq_true (by simp only [Stage.order]; omega)
  rw [passed, hall] at hle
  rw [h.wellFormed.nextId_eq, hhalts]
  exact hle

variable (hcourse : ∀ n, course (n + 1) = (course n).next capacity)

include hcourse

-- What is decided on in Execute asks as often as the instruction does.
theorem requests_eq {f f' : Flight} (hf : p.slots.slot .execute = some f)
    (hready : f.state = .ready) (hexecute : f.execute context.registers context.vectors = .ok f') :
    f'.requests = (course f.id).accesses := by
  have hp : f.progress = 4 := h.wellFormed.progress_of_ready hf hready
  have hcertain := h.certain_of_started hhalt hf (by omega)
  obtain ⟨-, hinstr, -⟩ := h.executing hf hready hcertain.onCourse
  have hagrees := h.agrees hcourse hf hcertain (by omega) (by omega)
  exact requests_of_execute hagrees hinstr ((h.wellFormed.fits hf).idle (by omega)).1 hexecute

-- The last word that is fetched is the one that halts.
theorem halt_iff (hruns : ∀ i < last, ∃ t, (course i).step capacity = .ok (some t)) {f : Flight}
    {w : Word} {memory : σ} (hf : p.slots.slot .fetch = some f) (hready : f.state = .ready)
    (hread : Storage.read context.memory .fetch (f.target context.registers) = (.done w, memory)) :
    w = Word.halt ↔ last ≤ f.id := by
  have hle := h.passed_fetch_le hhalt
  rw [h.fetched_eq hf hready] at hle
  have hon : p.OnCourse last f.id := fun _ => hle
  obtain ⟨-, -, -, hanswer⟩ := LawfulStorage.read_sound h.sound hread
  rw [h.target_of_fetching hcourse hf hready hon,
    h.word_of_fetching hcourse hf hready hon] at hanswer
  obtain rfl := hanswer w rfl
  constructor
  · intro hword
    by_contra hlt
    obtain ⟨t, ht⟩ := hruns f.id (by omega)
    rw [ArchState.step_of_halt hword] at ht
    cases ht
  · intro hge
    rw [Nat.le_antisymm hle hge]
    exact hhalt

end Tracks

end Pipeline

end PipelinedProcessor
