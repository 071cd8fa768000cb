import PipelinedProcessor.Proofs.Flight.Tries
import PipelinedProcessor.Proofs.Pipeline.Effort

namespace PipelinedProcessor

open Flight LiveStorage

-- What a flight asks memory for when it is next tried in a stage.
def Flight.asks (f : Flight) : Stage → Option Access
  | .fetch => if f.state = .ready then f.address.map .read else none
  | .memory => if f.state = .ready then f.action.bind Action.access? else none
  | _ => none

theorem Flight.asks_of_not_ready {f : Flight} (h : f.state ≠ .ready) (stage : Stage) :
    f.asks stage = none := by
  cases stage <;> simp [asks, h]

def Slots.asks (slots : Slots) (stage : Stage) : Option Access :=
  (slots.slot stage).bind (·.asks stage)

theorem Slots.asks_put (slots : Slots) (stage : Stage) (hplace : stage ≠ .system)
    (flight : Option Flight) (other : Stage) :
    (slots.put stage flight).asks other =
      if other = stage then flight.bind (·.asks other) else slots.asks other := by
  rw [asks, slots.slot_put stage hplace]
  split <;> rfl

-- Only Fetch and Memory Access ask for anything.
theorem Slots.asks_of_silent (slots : Slots) {stage : Stage} (hfetch : stage ≠ .fetch)
    (hmemory : stage ≠ .memory) :
    slots.asks stage = none := by
  rw [asks, Option.bind_eq_none_iff]
  intro f _
  cases stage <;> first | rfl | contradiction

theorem Slots.asks_put_silent (slots : Slots) (stage : Stage) (hfetch : stage ≠ .fetch)
    (hmemory : stage ≠ .memory) (flight : Option Flight) :
    (slots.put stage flight).asks = slots.asks := by
  funext other
  by_cases hplace : stage = .system
  · rw [hplace]
    rfl
  · rw [slots.asks_put stage hplace]
    split
    · rename_i heq
      subst heq
      rw [slots.asks_of_silent hfetch hmemory, Option.bind_eq_none_iff]
      intro f _
      cases other <;> first | rfl | contradiction
    · rfl

-- Fetch asks for the same word again.
theorem Slots.target_of_asks {slots : Slots} {f : Flight} {access : Access}
    (hf : slots.slot .fetch = some f) (hready : f.state = .ready)
    (hasks : slots.asks .fetch = some access) (registers : Registers) :
    access = .read (f.target registers) := by
  rw [asks, hf, Option.bind_some, Flight.asks, if_pos hready] at hasks
  obtain ⟨address, haddress, rfl⟩ := Option.map_eq_some_iff.mp hasks
  rw [target, haddress, Option.getD_some]

-- Who is served by memory still waits for what he is served with.

section

variable {σ : Type} [Storage σ] [LiveStorage σ] {memory after : σ}
  {asks asks' : Stage → Option Access}

def Attended (asks : Stage → Option Access) (memory : σ) : Prop :=
  ∀ stage, owner memory = some stage → ∃ access,
  asks stage = some access ∧ Attends memory stage access

theorem Attended.of_asks (h : Attended asks memory)
    (hasks : ∀ stage access, asks stage = some access → asks' stage = some access) :
    Attended asks' memory := by
  intro stage hstage
  obtain ⟨access, haccess, hattends⟩ := h stage hstage
  exact ⟨access, hasks stage access haccess, hattends⟩

theorem Attended.of_handover (h : Attended asks memory) {issuer : Stage}
    (hhandover : Handover issuer memory after (asks' issuer))
    (hasks : ∀ stage, stage ≠ issuer → asks' stage = asks stage) : Attended asks' after := by
  intro stage hstage
  rcases hhandover stage hstage with ⟨rfl, hown⟩ | ⟨hne, howner, hkeeps⟩
  · exact hown
  · obtain ⟨access, haccess, hattends⟩ := h stage howner
    exact ⟨access, (hasks stage hne).trans haccess, hkeeps access hattends⟩

-- How long the one that memory serves has to wait, or the next one at most.
def waitLeft (asks : Stage → Option Access) (memory : σ) : Nat :=
  match owner memory with
  | none => idle memory
  | some stage => (asks stage).elim 0 (patience memory stage)

-- A try that waits brings nearer what memory serves, if that is nothing or the one who tries.
structure Waited (asks : Stage → Option Access) (memory : σ) (asks' : Stage → Option Access)
    (after : σ) (issuer : Stage) : Prop where
  attended : Attended asks' after
  le : waitLeft asks' after ≤ waitLeft asks memory
  lt : owner memory = none ∨ owner memory = some issuer →
    waitLeft asks' after < waitLeft asks memory
  stays : ∀ stage, owner memory = some stage → owner after = some stage

theorem Attended.of_wait (h : Attended asks memory) {issuer : Stage} {access : Access}
    (hwait : access.attempt memory issuer = (false, after)) (hissuer : asks' issuer = some access)
    (hsame : owner memory = some issuer → asks issuer = some access)
    (hasks : ∀ stage, stage ≠ issuer → asks' stage = asks stage) :
    Waited asks memory asks' after issuer := by
  have hattends (howner : owner memory = some issuer) : Attends memory issuer access := by
    obtain ⟨other, hother, hattends⟩ := h issuer howner
    obtain rfl := Option.some.inj ((hsame howner).symm.trans hother)
    exact hattends
  have hattended : Attended asks' after := h.of_handover (hissuer ▸ .of_wait hattends hwait) hasks
  by_cases hfree : owner memory = none ∨ owner memory = some issuer
  · obtain ⟨howner, -, hlt⟩ := wait_own (hfree.imp_right fun heq => ⟨heq, hattends heq⟩) hwait
    have hless : waitLeft asks' after < waitLeft asks memory := by
      rcases hfree with hnone | hown
      · simpa [waitLeft, hnone, howner, hissuer] using hlt
      · simpa [waitLeft, hown, howner, hissuer, hsame hown] using hlt
    refine ⟨hattended, Nat.le_of_lt hless, fun _ => hless, ?_⟩
    intro stage hstage
    rcases hfree with hnone | hown
    · rw [hnone] at hstage
      cases hstage
    · rw [howner, ← hown, hstage]
  · obtain ⟨other, hother⟩ : ∃ other, owner memory = some other :=
      Option.ne_none_iff_exists'.mp fun hnone => hfree (.inl hnone)
    have hne : other ≠ issuer := by
      rintro rfl
      exact hfree (.inr hother)
    obtain ⟨howner, hkeeps⟩ := wait_other hother hne hwait
    obtain ⟨waiting, hwaiting, hwaits⟩ := h other hother
    have hle := (hkeeps waiting hwaits).2
    refine ⟨hattended, ?_, fun heq => absurd heq hfree, ?_⟩
    · simpa [waitLeft, hother, howner, hasks other hne, hwaiting] using hle
    · intro stage hstage
      rw [howner, ← hother, hstage]

theorem waited_of_fetch {slots : Slots} {f : Flight} (h : Attended slots.asks memory)
    (hf : slots.slot .fetch = some f) (hready : f.state = .ready) {registers : Registers}
    (hread : Storage.read memory .fetch (f.target registers) = (.wait, after)) :
    Waited slots.asks memory
      (slots.put .fetch (some { f with address := some (f.target registers) })).asks
      after .fetch := by
  refine h.of_wait (attempt_read hread) ?_ ?_ ?_
  · rw [slots.asks_put .fetch nofun, if_pos rfl, Option.bind_some, asks, if_pos hready]
    rfl
  · intro howner
    obtain ⟨access, hasks, -⟩ := h _ howner
    rw [hasks, Slots.target_of_asks hf hready hasks registers]
  · intro stage hne
    rw [slots.asks_put .fetch nofun, if_neg hne]

end

namespace Pipeline

-- What the parts of a cycle do to those who wait.

section

variable {σ : Type} [Storage σ] [LiveStorage σ] {p p' : Pipeline} {context after : Context σ}

theorem commitStage_attended (h : Attended p.slots.asks context.memory)
    (hresult : p.commitStage context = (p', after)) : Attended p'.slots.asks after.memory := by
  rcases in_state_or_not (p.slots.slot .writeBack) .ready with ⟨f, hf, hready⟩ | hidle
  · rw [commitStage_of_ready hf hready] at hresult
    obtain ⟨rfl, rfl⟩ := Prod.mk.inj hresult
    rw [p.slots.asks_put_silent .writeBack nofun nofun, f.memory_commit]
    exact h
  · rw [commitStage_of_idle hidle] at hresult
    obtain ⟨rfl, rfl⟩ := Prod.mk.inj hresult
    exact h

theorem executeStage_attended {memory : σ} {registers : Registers} {vectors : VectorRegisters}
    (h : Attended p.slots.asks memory) (hresult : p.executeStage registers vectors = .ok p') :
    Attended p'.slots.asks memory := by
  rcases in_state_or_not (p.slots.slot .execute) .ready with ⟨f, hf, hready⟩ | hidle
  · rw [executeStage_of_ready hf hready] at hresult
    obtain ⟨f', -, rfl⟩ := ok_of_map hresult
    rw [p.slots.asks_put_silent .execute nofun nofun]
    exact h
  · rw [executeStage_of_idle hidle] at hresult
    obtain rfl := Except.ok.inj hresult
    exact h

theorem decodeStage_attended {memory : σ} (h : Attended p.slots.asks memory) :
    Attended p.decodeStage.slots.asks memory := by
  cases hf : p.slots.slot .decode with
  | none =>
      rw [decodeStage_of_empty hf]
      exact h
  | some f =>
      cases hstate : f.state with
      | ready =>
          rw [decodeStage_of_ready hf hstate, p.slots.asks_put_silent .decode nofun nofun]
          exact h
      | stalled j =>
          rw [decodeStage_of_stalled hf hstate]
          exact h
      | completed =>
          rw [decodeStage_of_completed hf hstate]
          exact h

theorem accessStage_attended {fault : Option Fault} (h : Attended p.slots.asks context.memory)
    (hresult : p.accessStage context = (fault, p', after)) :
    Attended p'.slots.asks after.memory := by
  rcases in_state_or_not (p.slots.slot .memory) .ready with ⟨f, hf, hready⟩ | hidle
  · rcases haccess : f.access context with ⟨fault', f', after'⟩
    rw [accessStage_of_ready hf hready haccess] at hresult
    obtain ⟨-, rfl, rfl⟩ := hresult
    have hslot (stage : Stage) : (p.slots.put .memory (some f')).asks stage =
        if stage = .memory then f'.asks .memory else p.slots.asks stage := by
      rw [p.slots.asks_put .memory nofun]
      split
      · rename_i heq
        rw [heq]
        rfl
      · rfl
    have hbefore : p.slots.asks .memory = f.action.bind Action.access? := by
      rw [Slots.asks, hf, Option.bind_some, asks, if_pos hready]
    have hother (stage : Stage) (hne : stage ≠ .memory) :
        (p.slots.put .memory (some f')).asks stage = p.slots.asks stage :=
          (hslot stage).trans (if_neg hne)
    refine h.of_handover ?_ hother
    rw [hslot, if_pos rfl]
    cases haction : f.action with
    | none =>
        rw [access_of_none haction] at haccess
        obtain ⟨-, -, rfl⟩ := haccess
        intro stage hstage
        refine .inr ⟨?_, hstage, fun _ => id⟩
        rintro rfl
        obtain ⟨access, hasks, -⟩ := h _ hstage
        rw [hbefore, haction] at hasks
        cases hasks
    | some action =>
        rcases hadvance : action.advance context with ⟨progress, next, after''⟩
        have hhandover := (Action.advance_tries hadvance).handover (by
          intro howner
          obtain ⟨access, hasks, hattends⟩ := h _ howner
          rw [hbefore, haction] at hasks
          exact ⟨access, hasks, hattends⟩)
        cases progress with
        | waiting =>
            rw [access_of_waiting haction hadvance] at haccess
            obtain ⟨-, rfl, rfl⟩ := haccess
            rw [if_pos rfl] at hhandover
            simpa [asks, hready] using hhandover
        | finished writes =>
            rw [access_of_finished haction hadvance] at haccess
            obtain ⟨-, rfl, rfl⟩ := haccess
            exact Handover.weaken hhandover _
        | faulted cause =>
            rw [access_of_faulted haction hadvance] at haccess
            obtain ⟨-, rfl, rfl⟩ := haccess
            exact Handover.weaken hhandover _
  · rw [accessStage_of_idle hidle] at hresult
    obtain ⟨-, rfl, rfl⟩ := hresult
    exact h

theorem fetchStage_attended (hwell : WellFormed p) (h : Attended p.slots.asks context.memory)
    (hresult : p.fetchStage context = (p', after)) : Attended p'.slots.asks after.memory := by
  rcases in_state_or_not (p.slots.slot .fetch) .ready with ⟨f, hf, hready⟩ | hidle
  · have hother (flight : Option Flight) (stage : Stage) (hne : stage ≠ .fetch) :
        (p.slots.put .fetch flight).asks stage = p.slots.asks stage := by
      rw [p.slots.asks_put .fetch nofun, if_neg hne]
    rcases hread :
      Storage.read context.memory .fetch (f.target context.registers) with ⟨answer, memory⟩
    have hattempt := attempt_read hread
    cases answer with
    | wait =>
        rw [fetchStage_of_wait hf hready ((hwell.fits hf).blank (hwell.progress_of_ready hf hready))
          hread] at hresult
        obtain ⟨rfl, rfl⟩ := Prod.mk.inj hresult
        exact (waited_of_fetch h hf hready hread).attended
    | done w =>
        have hhandover : Handover .fetch context.memory memory none := .of_done none hattempt
        by_cases hhalt : w = Word.halt
        · subst hhalt
          rw [fetchStage_of_halt hf hready hread] at hresult
          obtain ⟨rfl, rfl⟩ := Prod.mk.inj hresult
          exact h.of_handover (hhandover.weaken _) (hother _)
        · rw [fetchStage_of_word hf hready hhalt hread] at hresult
          obtain ⟨rfl, rfl⟩ := Prod.mk.inj hresult
          exact h.of_handover (hhandover.weaken _) (hother _)
  · rw [fetchStage_of_idle hidle] at hresult
    obtain ⟨rfl, rfl⟩ := Prod.mk.inj hresult
    exact h

end

-- What happens between the work of two cycles keeps those who wait.

section

variable {σ : Type} [Storage σ] [LiveStorage σ] {p : Pipeline} {memory : σ}

theorem retire_attended (h : Attended p.slots.asks memory) :
    Attended p.retire.slots.asks memory := by
  rcases in_state_or_not (p.slots.slot .writeBack) .completed with ⟨f, hf, hstate⟩ | hunfinished
  · rw [retire_of_completed hf hstate]
    refine h.of_asks ?_
    intro stage access hasks
    rw [← p.slots.asks_put_silent .writeBack nofun nofun none] at hasks
    show ((p.slots.put .writeBack none).map (wakeIf f.id)).asks stage = some access
    rw [Slots.asks, Option.bind_eq_some_iff] at hasks
    obtain ⟨g, hg, hgasks⟩ := hasks
    have hready : g.state = .ready := by
      by_contra hnot
      rw [asks_of_not_ready hnot] at hgasks
      cases hgasks
    rw [Slots.asks, Slots.slot_map, hg, Option.map_some, wakeIf_of_not_stalled (by simp [hready])]
    exact hgasks
  · rw [retire_of_unfinished hunfinished]
    exact h

theorem pass_attended {slots : Slots} (h : Attended slots.asks memory) (first second : Stage)
    (hne : second ≠ .system) : Attended (slots.pass first second).asks memory := by
  rcases slots.pass_cases first second with hsame | ⟨f, hf, hfree, hstate, hpass⟩
  · rw [hsame]
    exact h
  · rw [hpass]
    have hfirst : first ≠ .system := by
      rintro rfl
      cases hf
    refine h.of_asks ?_
    intro stage access hasks
    rw [Slots.asks_put _ second hne, slots.asks_put first hfirst, if_neg, if_neg]
    · exact hasks
    · rintro rfl
      rw [Slots.asks, hf, Option.bind_some, asks_of_not_ready (by simp [hstate])] at hasks
      cases hasks
    · rintro rfl
      rw [Slots.asks, hfree] at hasks
      cases hasks

theorem takeIn_attended (h : Attended p.slots.asks memory) :
    Attended p.takeIn.slots.asks memory := by
  rcases p.takeIn_cases with hsame | ⟨-, hfree, -, htaken⟩
  · rw [hsame]
    exact h
  · rw [htaken]
    refine h.of_asks ?_
    intro stage access hasks
    show (p.slots.put .fetch (some { id := p.nextId })).asks stage = some access
    rw [p.slots.asks_put .fetch nofun, if_neg]
    · exact hasks
    · rintro rfl
      rw [Slots.asks, hfree] at hasks
      cases hasks

theorem advance_attended (h : Attended p.slots.asks memory) :
    Attended p.advance.slots.asks memory := by
  show Attended (moveOn p.retire.slots).asks memory
  rw [Slots.moveOn_eq]
  have hmemory := pass_attended (retire_attended h) .memory .writeBack nofun
  have hexecute := pass_attended hmemory .execute .memory nofun
  have hdecode := pass_attended hexecute .decode .execute nofun
  exact pass_attended hdecode .fetch .decode nofun

end

end Pipeline

end PipelinedProcessor
