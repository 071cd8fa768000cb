import PipelinedProcessor.Proofs.Pipeline.Attempts
import PipelinedProcessor.Proofs.Pipeline.Debt

namespace PipelinedProcessor

open Flight LiveStorage

namespace Slots

-- That nobody can move from one stage to the next.
def BlockedAt (slots : Slots) (first second : Stage) : Prop :=
  ∀ f, slots.slot first = some f → f.state = .completed → slots.slot second ≠ none

variable {slots : Slots} {first second : Stage}

-- Where a move has been tried, who could have moved is gone.
theorem blockedAt_pass (hfirst : first ≠ .system) (hsecond : second ≠ .system)
    (hne : first ≠ second) :
    (slots.pass first second).BlockedAt first second := by
  intro f hf hstate
  rcases slots.pass_cases first second with hsame | ⟨g, -, -, -, hpass⟩
  · rw [hsame] at hf ⊢
    intro hfree
    have hmoved :
        slots.pass first second = (slots.put first none).put second (some (f.enter second)) := by
      simp only [pass, hf, hfree, Pipeline.passOn, hstate, if_true]
    rw [← hsame, hmoved, slot_put _ second hsecond, if_pos rfl] at hfree
    cases hfree
  · rw [hpass, slot_put _ second hsecond, if_neg hne, slot_put _ first hfirst, if_pos rfl] at hf
    cases hf

-- A later move may fill the first stage again, but who has just come has not finished there.
theorem BlockedAt.pass (h : slots.BlockedAt first second) {before into : Stage}
    (hbefore : before ≠ .system) (hinto : into ≠ .system) (hfirst : first ≠ before)
    (hsecond : second ≠ before ∧ second ≠ into) :
    (slots.pass before into).BlockedAt first second := by
  intro f hf hstate
  rw [slots.slot_pass hsecond.1 hsecond.2]
  rcases slots.pass_cases before into with hsame | ⟨g, -, -, -, hpass⟩
  · rw [hsame] at hf
    exact h f hf hstate
  · rw [hpass, slot_put _ into hinto, slot_put _ before hbefore, if_neg hfirst] at hf
    split at hf
    · obtain rfl := Option.some.inj hf
      cases hstate
    · exact h f hf hstate

theorem blocked_moveOn (slots : Slots) : Pipeline.Blocked (Pipeline.moveOn slots) := by
  rw [moveOn_eq]
  have h₁ : (slots.pass .memory .writeBack).BlockedAt .memory .writeBack :=
    blockedAt_pass nofun nofun nofun
  generalize slots.pass .memory .writeBack = slots₁ at *
  have h₂ : (slots₁.pass .execute .memory).BlockedAt .execute .memory :=
    blockedAt_pass nofun nofun nofun
  replace h₁ : (slots₁.pass .execute .memory).BlockedAt .memory .writeBack :=
    h₁.pass nofun nofun nofun (by decide)
  generalize slots₁.pass .execute .memory = slots₂ at *
  have h₃ : (slots₂.pass .decode .execute).BlockedAt .decode .execute :=
    blockedAt_pass nofun nofun nofun
  replace h₁ : (slots₂.pass .decode .execute).BlockedAt .memory .writeBack :=
    h₁.pass nofun nofun nofun (by decide)
  replace h₂ : (slots₂.pass .decode .execute).BlockedAt .execute .memory :=
    h₂.pass nofun nofun nofun (by decide)
  generalize slots₂.pass .decode .execute = slots₃ at *
  have h₄ : (slots₃.pass .fetch .decode).BlockedAt .fetch .decode :=
    blockedAt_pass nofun nofun nofun
  replace h₁ : (slots₃.pass .fetch .decode).BlockedAt .memory .writeBack :=
    h₁.pass nofun nofun nofun (by decide)
  replace h₂ : (slots₃.pass .fetch .decode).BlockedAt .execute .memory :=
    h₂.pass nofun nofun nofun (by decide)
  replace h₃ : (slots₃.pass .fetch .decode).BlockedAt .decode .execute :=
    h₃.pass nofun nofun nofun (by decide)
  intro first second f horder hplace hf
  cases second with
  | fetch => cases first <;> cases horder
  | system => exact absurd rfl hplace
  | decode =>
      obtain rfl : first = .fetch := Stage.order_injective (Fin.ext (Nat.succ.inj horder).symm)
      exact h₄ f hf
  | execute =>
      obtain rfl : first = .decode := Stage.order_injective (Fin.ext (Nat.succ.inj horder).symm)
      exact h₃ f hf
  | memory =>
      obtain rfl : first = .execute := Stage.order_injective (Fin.ext (Nat.succ.inj horder).symm)
      exact h₂ f hf
  | writeBack =>
      obtain rfl : first = .memory := Stage.order_injective (Fin.ext (Nat.succ.inj horder).symm)
      exact h₁ f hf

end Slots

namespace Pipeline

theorem active_start (pipelined : Bool) : (start pipelined).slots.Active :=
  ⟨.fetch, { id := 0 }, by cases pipelined <;> rfl, rfl⟩

-- A run that goes on has work to do in every cycle.
theorem WellFormed.active_takeIn {p : Pipeline} (h : WellFormed p)
    (hmore : ¬(p.advance.haltId.isSome ∧ p.advance.slots.flights = [])) :
    p.advance.takeIn.slots.Active := by
  by_contra hidle
  rcases p.advance.takeIn_cases with hsame | ⟨-, -, -, htaken⟩
  · rw [hsame] at hidle
    have hready (stage : Stage) (f : Flight) (hf : p.advance.slots.slot stage = some f) :
        f.state ≠ .ready :=
      fun hready => hidle ⟨stage, f, hf, hready⟩
    have hempty := h.advance.flights_eq_nil hready p.unfinished_advance (Slots.blocked_moveOn _)
    have hhalts : p.advance.haltId = none :=
      Option.not_isSome_iff_eq_none.mp fun hsome => hmore ⟨hsome, hempty⟩
    have hless := h.advance.effort_takeIn_lt hhalts hempty
    rw [hsame] at hless
    exact Nat.lt_irrefl _ hless
  · rw [htaken] at hidle
    exact hidle ⟨.fetch, { id := p.advance.nextId }, rfl, rfl⟩

-- Who is served has work to do.
theorem busy_of_owner {slots : Slots} {memory : MainMemory} (h : Attended slots.asks memory)
    {stage : Stage} (howner : owner memory = some stage) : slots.busy stage = 1 := by
  obtain ⟨-, f, hf, hready⟩ := ready_of_owner h howner
  exact Slots.busy_of_ready hf hready

section

variable {schedule : Schedule} {capacity : Nat} {p p' worked : Pipeline}
  {context after : Context MainMemory} (hcovers : schedule.Covers capacity)
    (h : Tracks capacity schedule.course schedule.last p context)
  (hattended : Attended p.slots.asks context.memory)
    (hdelay : context.memory.delay = schedule.delay)

include hcovers h hattended hdelay

-- What the stages pay one after the other. Fetch finds memory as Memory Access leaves it, which
-- changes nothing where Fetch is served or there is no work in Memory Access.
theorem work_pays (hwork : p.work context = (none, worked, after)) :
    ∃ (middle : MainMemory) (left₁ left₂ left₃ : Int),
    left₁ + p.slots.busy .writeBack = schedule.left p context.memory ∧
      Pays (p.slots.busy .memory) (owner context.memory ≠ some .fetch) left₁ left₂ ∧
      left₃ + p.slots.busy .decode + p.slots.busy .execute = left₂ ∧
      Pays (p.slots.busy .fetch) (owner middle ≠ some .memory) left₃
        (schedule.left worked after.memory) ∧
      (owner context.memory = some .fetch ∨ p.slots.busy .memory ≠ 1 →
        middle = context.memory) := by
  obtain ⟨committed, context', accessed, context'', executed, hcommit, haccess,
      hexecute, hfetch, -, -⟩ :=
    work_stages h.wellFormed hwork
  have hmemory := p.memory_commitStage context
  have hslots₁ := (p.commitStage_works context).slot_eq
  rw [hcommit] at hmemory hslots₁
  have hslots₂ := (committed.accessStage_works context').slot_eq
  rw [haccess] at hslots₂
  have hslots₃ := (executeStage_works _ hexecute).slot_eq
  have hslots₄ := executed.decodeStage_works.slot_eq
  -- every stage finds what is to be paid there as it was before the cycle
  have hbusy₂ : committed.slots.busy .memory = p.slots.busy .memory :=
    Slots.busy_of_same (hslots₁ .memory (by decide))
  have hbusy₃ : accessed.slots.busy .execute = p.slots.busy .execute :=
    Slots.busy_of_same ((hslots₂ .execute (by decide)).trans (hslots₁ .execute (by decide)))
  have hbusy₄ : executed.slots.busy .decode = p.slots.busy .decode :=
    Slots.busy_of_same ((hslots₃ .decode (by decide)).trans ((hslots₂ .decode (by decide)).trans
      (hslots₁ .decode (by decide))))
  have hbusy₅ : executed.decodeStage.slots.busy .fetch = p.slots.busy .fetch :=
    Slots.busy_of_same ((hslots₄ .fetch (by decide)).trans ((hslots₃ .fetch (by decide)).trans
      ((hslots₂ .fetch (by decide)).trans (hslots₁ .fetch (by decide)))))
  -- and a pipeline that follows the course
  have hcommitted : Tracks capacity schedule.course schedule.last committed context' := by
    have htracks := h.commitStage hcovers.next
    rwa [hcommit] at htracks
  have haccessed := (hcommitted.accessStage hcovers.next
    (fun f hf hready => hcommitted.certain_of_started hcovers.halts hf
      (by rw [hcommitted.wellFormed.progress_of_ready hf hready]; decide)) haccess).2 rfl
  have hexecuted := haccessed.executeStage hcovers.next hexecute
  have hattended₁ := commitStage_attended hattended hcommit
  have hattended₂ := accessStage_attended hattended₁ haccess
  have hattended₄ := decodeStage_attended (executeStage_attended hattended₂ hexecute)
  have hdelay₂ : context''.memory.delay = schedule.delay := by
    have hkept := kept_of_tries (MainMemory.tries_shape context.memory.shape)
    have hshape : (committed.accessStage context').2.2.memory.shape = context.memory.shape :=
      hkept.accessStage (congrArg MainMemory.shape hmemory)
    rw [haccess] at hshape
    exact (congrArg Prod.snd hshape).trans hdelay
  have hpaid₁ := commitStage_left schedule h.wellFormed hcommit
  have hpaid₂ := accessStage_left hcommitted.wellFormed hattended₁ (by rw [hmemory, hdelay]) haccess
  have hpaid₃ := executeStage_left schedule haccessed.wellFormed context''.memory hexecute
    fun f f' hf hready hresult => haccessed.requests_eq hcovers.halts hcovers.next hf hready hresult
  have hpaid₄ := decodeStage_left schedule hexecuted.wellFormed context''.memory
  have hpaid₅ := fetchStage_left hexecuted.decodeStage.wellFormed hattended₄ hdelay₂ hfetch
    fun f w memory hf hready hread =>
      hexecuted.decodeStage.halt_iff hcovers.halts hcovers.next hcovers.runs hf hready hread
  rw [hbusy₂, hmemory] at hpaid₂
  rw [hbusy₃] at hpaid₃
  rw [hbusy₄] at hpaid₄
  rw [hbusy₅] at hpaid₅
  rw [hmemory] at hpaid₁
  refine ⟨context''.memory, _, _, _, hpaid₁, hpaid₂, by rw [hpaid₄, hpaid₃], hpaid₅, ?_⟩
  rintro (hfetching | hnobody)
  · rw [← hmemory] at hfetching ⊢
    exact accessStage_of_busy hfetching (by decide) haccess
  · have hidle : ∀ f, committed.slots.slot .memory = some f → f.state ≠ .ready := fun f hf hready =>
      hnobody (hbusy₂.symm.trans (Slots.busy_of_ready hf hready))
    rw [← hmemory]
    exact congrArg (·.2.2.memory) (haccess.symm.trans (accessStage_of_idle hidle))

-- In a cycle no more is paid than one for every stage that has work, and one at least if any has.
theorem work_left (hwork : p.work context = (none, worked, after)) :
    schedule.left p context.memory ≤ schedule.left worked after.memory + p.slots.busyStages ∧
      (p.slots.Active → schedule.left worked after.memory + 1 ≤
        schedule.left p context.memory) := by
  obtain ⟨middle, left₁, left₂, left₃, hcommit, haccess, hbetween, hfetch, hmiddle⟩ :=
    work_pays hcovers h hattended hdelay hwork
  obtain ⟨hle, hmost, hall⟩ := haccess
  obtain ⟨hle', hmost', hall'⟩ := hfetch
  refine ⟨by rw [Slots.busyStages]; omega, ?_⟩
  rintro ⟨stage, f, hf, hready⟩
  have hone := Slots.busy_of_ready hf hready
  -- memory serves Memory Access, or Fetch, or nobody
  have hserved : p.slots.busy .memory = 1 ∨ p.slots.busy .fetch = 1 →
      schedule.left worked after.memory + 1 ≤ schedule.left p context.memory := by
    intro hbusy
    by_cases hfetching : owner context.memory = some .fetch
    · have hone' := busy_of_owner hattended hfetching
      have hturn := hall' (by rw [hmiddle (.inl hfetching), hfetching]; decide)
      omega
    · have hturn := hall hfetching
      by_cases hmine : p.slots.busy .memory = 1
      · omega
      · have hturn' :=
          hall' fun howner => hmine (busy_of_owner hattended (hmiddle (.inr hmine) ▸ howner))
        omega
  cases stage with
  | fetch => exact hserved (.inr hone)
  | memory => exact hserved (.inl hone)
  | decode => omega
  | execute => omega
  | writeBack => omega
  | system => cases hf

omit hdelay in
-- Where all that were fetched have retired and the word that halts is among them, nothing is left.
theorem left_of_empty (hhalts : p.haltId.isSome) (hempty : p.slots.flights = []) :
    schedule.left p context.memory = 0 := by
  have hhalt := h.wellFormed.haltId_eq hhalts hempty
  have hnext := (h.wellFormed.halting _ hhalt).2
  have hretired : schedule.last ≤ p.retired := by
    have hle := h.passed_fetch_le hcovers.halts
    have hretired := p.retired_le_passed .fetch
    have hword := h.halting _ hhalt fun _ => by omega
    by_contra hlt
    obtain ⟨t, ht⟩ := hcovers.runs p.retired (by omega)
    rw [ArchState.step_of_halt hword] at ht
    cases ht
  have hahead : schedule.ahead p.nextId = 0 := by
    rw [Schedule.ahead, show schedule.last + 1 - p.nextId = 0 by omega]
    rfl
  have hidle : context.memory.pending = none := by
    rcases owner_cases hattended with hnone | ⟨stage, f, -, -, hf, -⟩
    · exact MainMemory.owner_eq_none.mp hnone
    · have hmem := Slots.mem_flights.mpr ⟨stage, hf⟩
      rw [hempty] at hmem
      cases hmem
  rw [Schedule.left, Slots.total, hempty, hahead, MainMemory.waited_of_idle hidle]
  rfl

-- What a cycle comes to: a debt that is smaller, by one at least and without overlap by one
-- exactly, and at the end none.
theorem step_left (hrunning : p.running = true) (hactive : p.slots.Active) {message : Message}
    (hresult : p.step context = (.ok message, p', after)) :
    schedule.left p' after.memory + 1 ≤ schedule.left p context.memory ∧
      (p.pipelined = false → schedule.left p context.memory ≤ schedule.left p' after.memory + 1) ∧
      (message = .running → p'.slots.Active) ∧
      (message = .halted → schedule.left p' after.memory = 0) := by
  rcases hwork : p.tick.work context with ⟨fault, worked, context'⟩
  cases fault with
  | some fault =>
      rw [step_of_fault hrunning hwork] at hresult
      cases (Prod.mk.inj hresult).1
  | none =>
      have hticked := h.tick
      have hbefore : schedule.left p.tick context.memory = schedule.left p context.memory := rfl
      have hcertain : ∀ f, p.tick.slots.slot .memory = some f → f.state = .ready →
          p.tick.Certain schedule.course schedule.last f.id := fun f hf hready =>
        hticked.certain_of_started hcovers.halts hf
          (by rw [hticked.wellFormed.progress_of_ready hf hready]; decide)
      obtain ⟨hmost, hleast⟩ := work_left hcovers hticked hattended hdelay hwork
      have hless := hleast hactive
      have hserial (hmode : p.pipelined = false) : p.tick.slots.busyStages ≤ 1 :=
        Nat.le_trans p.tick.slots.busyStages_le (hticked.wellFormed.single hmode)
      have hworked := hticked.work hcovers.next hcertain hwork
      have hadvanced := hworked.advance
      have hleft : schedule.left worked.advance context'.memory =
          schedule.left worked context'.memory :=
        advance_left hworked.wellFormed context'.memory
      by_cases hend : worked.advance.haltId.isSome ∧ worked.advance.slots.flights = []
      · rw [step_of_end hrunning hwork hend] at hresult
        obtain ⟨rfl, rfl, rfl⟩ := hresult
        have hnothing : schedule.left worked.advance after.memory = 0 :=
          left_of_empty hcovers hadvanced
            (advance_attended (work_attended hticked.wellFormed hattended hwork)) hend.1 hend.2
        have hstopped : schedule.left { worked.advance with running := false } after.memory =
            schedule.left worked.advance after.memory := rfl
        refine ⟨by omega, ?_, nofun, fun _ => hstopped.trans hnothing⟩
        intro hmode
        have hone := hserial hmode
        omega
      · rw [step_of_running hrunning hwork hend] at hresult
        obtain ⟨rfl, rfl, rfl⟩ := hresult
        have htaken := takeIn_left (hadvanced.nextId_le hcovers.halts) after.memory
        refine ⟨by omega, ?_, fun _ => hworked.wellFormed.active_takeIn hend, nofun⟩
        intro hmode
        have hone := hserial hmode
        omega

end

-- Without overlap there is nobody to wait for, so that no cycle is counted as a stall.
theorem unstalled_kept {σ : Type} [Storage σ] :
    Kept fun p (_ : Context σ) => WellFormed p ∧ (p.pipelined = false → p.stalls = 0) where
  counts _ clock running h := ⟨h.1.of_counts clock _ running, h.2⟩
  commitStage {p context} h := by
    refine ⟨h.1.commitStage context, ?_⟩
    unfold commitStage
    split
    · exact h.2
    · split <;> exact h.2
  accessStage {p context} h := by
    refine ⟨h.1.accessStage context, ?_⟩
    unfold accessStage
    split
    · exact h.2
    · split <;> exact h.2
  executeStage {p p' context} h hresult := by
    refine ⟨h.1.executeStage hresult, ?_⟩
    unfold executeStage at hresult
    split at hresult
    · obtain rfl := Except.ok.inj hresult
      exact h.2
    · split at hresult
      · obtain ⟨f, -, rfl⟩ := ok_of_map hresult
        exact h.2
      · obtain rfl := Except.ok.inj hresult
        exact h.2
  decodeStage {p} _ h := by
    refine ⟨h.1.decodeStage, ?_⟩
    cases hslot : p.slots.slot .decode with
    | none =>
        rw [decodeStage_of_empty hslot]
        exact h.2
    | some f =>
        cases hstate : f.state with
        | ready =>
            rw [decodeStage_of_ready hslot hstate]
            exact h.2
        | completed =>
            rw [decodeStage_of_completed hslot hstate]
            exact h.2
        | stalled j =>
            rw [decodeStage_of_stalled hslot hstate]
            intro hserial
            obtain ⟨-, -, ⟨g, hg, -⟩, -⟩ := (h.1.fits hslot).stalled j hstate
            have hone := h.1.single hserial
            rw [Slots.flights_of_slot hslot, List.length_append, List.length_cons] at hone
            have holder := List.length_pos_of_mem hg
            omega
  fetchStage {p context} h := by
    refine ⟨h.1.fetchStage context, ?_⟩
    unfold fetchStage
    split
    · exact h.2
    · split
      · dsimp only
        split <;> exact h.2
      · exact h.2
  advance {p} _ h := by
    refine ⟨h.1.advance, ?_⟩
    show p.retire.pipelined = false → p.retire.stalls = 0
    unfold retire
    split
    · exact h.2
    · split <;> exact h.2
  takeIn {p} _ h := by
    refine ⟨h.1.takeIn, ?_⟩
    rcases p.takeIn_cases with hsame | ⟨-, -, -, htaken⟩
    · rw [hsame]
      exact h.2
    · rw [htaken]
      exact h.2

end Pipeline

end PipelinedProcessor
