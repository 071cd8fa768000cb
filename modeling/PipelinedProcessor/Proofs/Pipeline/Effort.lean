import Mathlib.Algebra.GroupWithZero.Nat
import PipelinedProcessor.Proofs.Pipeline.Steps

namespace PipelinedProcessor

open Flight

-- How far a flight has come, where a wait in Decode counts as well.
def Flight.weight (f : Flight) : Nat :=
  3 * f.stage.order + match f.state with
    | .ready => 1
    | .stalled _ => 2
    | .completed => 3

theorem Flight.weight_le (f : Flight) : f.weight ≤ 18 := by
  have hlt := f.stage.order.isLt
  unfold weight
  split <;> omega

theorem Flight.weight_of_ready {f : Flight} (h : f.state = .ready) :
    f.weight = 3 * f.stage.order + 1 := by
  simp only [weight, h]

theorem Flight.weight_of_completed {f : Flight} (h : f.state = .completed) :
    f.weight = 3 * f.stage.order + 3 := by
  simp only [weight, h]

theorem Flight.weight_lt_of_completed {f f' : Flight} (hstage : f'.stage = f.stage)
    (hstate : f.state ≠ .completed) (hstate' : f'.state = .completed) : f.weight < f'.weight := by
  rw [weight_of_completed hstate', hstage, weight]
  split
  · omega
  · omega
  · rename_i heq
    exact absurd heq hstate

theorem Flight.weight_decode {f : Flight} (hready : f.state = .ready) (others : List Flight) :
    f.weight < (f.decode others).weight := by
  have hsettle (g : Flight) (hstage : g.stage = f.stage) (hstate : g.state = .ready) :
      f.weight < (g.settle others).weight := by
    unfold settle
    split
    · rw [weight_of_ready hready, ← hstage]
      exact Nat.lt_succ_self _
    · exact weight_lt_of_completed hstage (by simp [hready]) rfl
  unfold decode
  split
  · exact hsettle f rfl hready
  · exact weight_lt_of_completed rfl (by simp [hready]) rfl
  · exact hsettle _ rfl hready

namespace Slots

-- A measure of the flights, added up. One slot counts for its flight alone.

section

variable (measure : Flight → Nat) {slots : Slots} {stage : Stage} {f : Flight}

def total (slots : Slots) : Nat := (slots.flights.map measure).sum

theorem total_replace (slots : Slots) (hplace : stage ≠ .system) (slot : Option Flight) :
    (slots.put stage slot).total measure + ((slots.slot stage).toList.map measure).sum =
      slots.total measure + (slot.toList.map measure).sum := by
  have hbefore := slots.flights_put stage hplace (slots.slot stage)
  rw [put_slot] at hbefore
  rw [total, total, slots.flights_put stage hplace, hbefore]
  simp only [List.map_append, List.sum_append]
  omega

theorem total_put (h : slots.slot stage = some f) (f' : Flight) :
    (slots.put stage (some f')).total measure + measure f = slots.total measure + measure f' := by
  have hplace : stage ≠ .system := by
    rintro rfl
    cases h
  simpa [h] using slots.total_replace measure hplace (some f')

theorem total_put_of_free (hplace : stage ≠ .system) (h : slots.slot stage = none) (f : Flight) :
    (slots.put stage (some f)).total measure = slots.total measure + measure f := by
  simpa [h] using slots.total_replace measure hplace (some f)

theorem total_put_none (h : slots.slot stage = some f) :
    (slots.put stage none).total measure + measure f = slots.total measure := by
  have hplace : stage ≠ .system := by
    rintro rfl
    cases h
  simpa [h] using slots.total_replace measure hplace none

theorem total_map {wake : Flight → Flight} (h : ∀ f ∈ slots.flights, measure (wake f) = measure f) :
    (slots.map wake).total measure = slots.total measure := by
  rw [total, total, flights_map, List.map_map]
  exact congrArg List.sum (List.map_congr_left h)

end

def weight (slots : Slots) : Nat := (slots.flights.map Flight.weight).sum

theorem weight_le (slots : Slots) : slots.weight ≤ 90 := by
  have hslot (slot : Option Flight) : (slot.toList.map Flight.weight).sum ≤ 18 := by
    cases slot with
    | none => exact Nat.zero_le _
    | some f =>
        have hle := f.weight_le
        simpa using hle
  have hfetch := hslot slots.fetch
  have hdecode := hslot slots.decode
  have hexecute := hslot slots.execute
  have hmemory := hslot slots.memory
  have hwriteBack := hslot slots.writeBack
  rw [weight, flights_eq]
  simp only [List.map_append, List.sum_append]
  omega

theorem weight_put {slots : Slots} {stage : Stage} {f : Flight} (h : slots.slot stage = some f)
    (f' : Flight) :
    (slots.put stage (some f')).weight + f.weight = slots.weight + f'.weight :=
  total_put Flight.weight h f'

theorem weight_put_of_free {slots : Slots} (stage : Stage) (hplace : stage ≠ .system)
    (h : slots.slot stage = none) (f : Flight) :
    (slots.put stage (some f)).weight = slots.weight + f.weight :=
  total_put_of_free Flight.weight hplace h f

theorem weight_put_none {slots : Slots} {stage : Stage} {f : Flight}
    (h : slots.slot stage = some f) :
    (slots.put stage none).weight + f.weight = slots.weight := total_put_none Flight.weight h

-- A move is progress, and what does not make progress stays where it is.
theorem weight_pass (slots : Slots) (first second : Stage)
    (horder : second.order.val = first.order.val + 1) (hplace : second ≠ .system)
    (hstage : ∀ f, slots.slot first = some f → f.stage = first) :
    slots.weight ≤ (slots.pass first second).weight ∧
      ((slots.pass first second).weight = slots.weight → slots.pass first second = slots ∧
        ∀ f, slots.slot first = some f → f.state = .completed → slots.slot second ≠ none) := by
  have hmoved {f : Flight} (hf : slots.slot first = some f) (hfree : slots.slot second = none)
      (hstate : f.state = .completed) :
      ((slots.put first none).put second (some (f.enter second))).weight = slots.weight + 1 := by
    have hfirst : first ≠ .system := by
      rintro rfl
      cases hf
    have hne : second ≠ first := by
      rintro rfl
      omega
    have hfree' : (slots.put first none).slot second = none := by
      rw [slot_put _ first hfirst, if_neg hne, hfree]
    have hleft := weight_put_none hf
    rw [weight_put_of_free second hplace hfree', weight_of_ready (f := f.enter second) rfl]
    rw [weight_of_completed hstate, hstage f hf] at hleft
    show (slots.put first none).weight + (3 * second.order.val + 1) = _
    omega
  rcases slots.pass_cases first second with hsame | ⟨f, hf, hfree, hstate, hpass⟩
  · rw [hsame]
    refine ⟨Nat.le_refl _, fun _ => ⟨rfl, ?_⟩⟩
    intro f hf hstate hfree
    have hpass :
        slots.pass first second = (slots.put first none).put second (some (f.enter second)) := by
      simp only [pass, hf, hfree, Pipeline.passOn, hstate, if_true]
    have hmore := hmoved hf hfree hstate
    rw [← hpass, hsame] at hmore
    omega
  · rw [hpass, hmoved hf hfree hstate]
    exact ⟨Nat.le_succ _, fun hn => absurd hn (Nat.succ_ne_self _)⟩

end Slots

namespace Pipeline

-- What is left to do before an instruction retires, as far as it does not depend on memory.
def effort (p : Pipeline) : Nat := (p.haltId.elim 91 fun _ => 0) + (90 - p.slots.weight)

theorem effort_lt {p p' : Pipeline} (hhalt : p'.haltId = p.haltId)
    (hweight : p.slots.weight < p'.slots.weight) :
    p'.effort < p.effort := by
  have hle := p'.slots.weight_le
  rw [effort, effort, hhalt]
  omega

theorem effort_le {p p' : Pipeline} (hhalt : p'.haltId = p.haltId)
    (hweight : p.slots.weight ≤ p'.slots.weight) :
    p'.effort ≤ p.effort := by
  rw [effort, effort, hhalt]
  omega

theorem effort_put {p p' : Pipeline} {stage : Stage} {f f' : Flight}
    (hf : p.slots.slot stage = some f) (hslots : p'.slots = p.slots.put stage (some f'))
    (hhalt : p'.haltId = p.haltId) (hweight : f.weight < f'.weight) : p'.effort < p.effort := by
  refine effort_lt hhalt ?_
  have hput := Slots.weight_put hf f'
  rw [hslots]
  omega

theorem effort_put_same {p p' : Pipeline} {stage : Stage} {f f' : Flight}
    (hf : p.slots.slot stage = some f) (hslots : p'.slots = p.slots.put stage (some f'))
    (hhalt : p'.haltId = p.haltId) (hweight : f'.weight = f.weight) : p'.effort = p.effort := by
  have hput := Slots.weight_put hf f'
  rw [effort, effort, hhalt, hslots, show (p.slots.put stage (some f')).weight =
    p.slots.weight by omega]

-- The effort falls, or what stands there has happened.
def Falls (before after : Nat) (otherwise : Prop) : Prop :=
  after ≤ before ∧ (after = before → otherwise)

theorem falls_of_lt {before after : Nat} {otherwise : Prop} (h : after < before) :
    Falls before after otherwise :=
  ⟨Nat.le_of_lt h, fun heq => absurd heq (Nat.ne_of_lt h)⟩

theorem falls_of_eq {before after : Nat} {otherwise : Prop} (h : after = before)
    (hotherwise : otherwise) :
    Falls before after otherwise :=
  ⟨Nat.le_of_eq h, fun _ => hotherwise⟩

-- What the stages do to the effort: it falls, or no more has happened than that a try had to wait.

section

variable {σ : Type} {p p' : Pipeline} {context after : Context σ}

theorem commitStage_effort (hresult : p.commitStage context = (p', after)) :
    Falls p.effort p'.effort
      (p' = p ∧ after = context ∧ ∀ f, p.slots.slot .writeBack = some f → f.state ≠ .ready) := by
  rcases in_state_or_not (p.slots.slot .writeBack) .ready with ⟨f, hf, hready⟩ | hidle
  · rw [commitStage_of_ready hf hready] at hresult
    obtain ⟨rfl, -⟩ := Prod.mk.inj hresult
    exact falls_of_lt (effort_put hf rfl rfl (weight_lt_of_completed rfl (by simp [hready]) rfl))
  · rw [commitStage_of_idle hidle] at hresult
    obtain ⟨rfl, rfl⟩ := Prod.mk.inj hresult
    exact falls_of_eq rfl ⟨rfl, rfl, hidle⟩

theorem executeStage_effort (h : WellFormed p) {registers : Registers} {vectors : VectorRegisters}
    (hresult : p.executeStage registers vectors = .ok p') :
    Falls p.effort p'.effort (p' = p ∧ ∀ f, p.slots.slot .execute = some f → f.state ≠ .ready) := by
  rcases in_state_or_not (p.slots.slot .execute) .ready with ⟨f, hf, hready⟩ | hidle
  · rw [executeStage_of_ready hf hready] at hresult
    obtain ⟨f', hexecute, rfl⟩ := ok_of_map hresult
    obtain ⟨-, -, -, hstage, hstate⟩ := (h.fits hf).execute hready (h.inPlace _ f hf) hexecute
    exact falls_of_lt
      (effort_put hf rfl rfl (weight_lt_of_completed hstage (by simp [hready]) hstate))
  · rw [executeStage_of_idle hidle] at hresult
    obtain rfl := Except.ok.inj hresult
    exact falls_of_eq rfl ⟨rfl, hidle⟩

theorem decodeStage_effort (p : Pipeline) :
    Falls p.effort p.decodeStage.effort
      (p.decodeStage.slots = p.slots ∧ ∀ f, p.slots.slot .decode = some f → f.state ≠ .ready) := by
  cases hf : p.slots.slot .decode with
  | none =>
      rw [decodeStage_of_empty hf]
      exact falls_of_eq rfl ⟨rfl, fun _ hg => (nomatch hg)⟩
  | some f =>
      cases hstate : f.state with
      | ready =>
          rw [decodeStage_of_ready hf hstate]
          exact falls_of_lt (effort_put hf rfl rfl (weight_decode hstate _))
      | stalled j =>
          rw [decodeStage_of_stalled hf hstate]
          refine falls_of_eq rfl ⟨rfl, ?_⟩
          rintro g hg
          obtain rfl := Option.some.inj hg
          simp [hstate]
      | completed =>
          rw [decodeStage_of_completed hf hstate]
          refine falls_of_eq rfl ⟨rfl, ?_⟩
          rintro g hg
          obtain rfl := Option.some.inj hg
          simp [hstate]

variable [Storage σ]

theorem accessStage_effort (hresult : p.accessStage context = (none, p', after)) :
    Falls p.effort p'.effort
      ((p' = p ∧ after = context ∧ ∀ f, p.slots.slot .memory = some f → f.state ≠ .ready) ∨
        ∃ f action next, p.slots.slot .memory = some f ∧ f.state = .ready ∧ f.action = some action ∧
          action.advance context = (.waiting, next, after) ∧
          p'.slots = p.slots.put .memory (some { f with action := some next })) := by
  rcases in_state_or_not (p.slots.slot .memory) .ready with ⟨f, hf, hready⟩ | hidle
  · have hdone {f' : Flight} {after' : Context σ} (haccess : f.access context = (none, f', after'))
        (hstage : f'.stage = f.stage) (hstate : f'.state = .completed) : p'.effort < p.effort := by
      rw [accessStage_of_ready hf hready haccess] at hresult
      obtain ⟨-, rfl, -⟩ := hresult
      exact effort_put hf rfl rfl (weight_lt_of_completed hstage (by simp [hready]) hstate)
    cases haction : f.action with
    | none => exact falls_of_lt (hdone (access_of_none haction context) rfl rfl)
    | some action =>
        rcases hadvance : action.advance context with ⟨progress, next, after'⟩
        cases progress with
        | waiting =>
            rw [accessStage_of_ready hf hready (access_of_waiting haction hadvance)] at hresult
            obtain ⟨-, rfl, rfl⟩ := hresult
            refine falls_of_eq (effort_put_same hf rfl rfl rfl) (.inr ?_)
            exact ⟨f, action, next, hf, hready, haction, hadvance, rfl⟩
        | finished writes => exact falls_of_lt (hdone (access_of_finished haction hadvance) rfl rfl)
        | faulted fault =>
            rw [accessStage_of_ready hf hready (access_of_faulted haction hadvance)] at hresult
            cases (Prod.mk.inj hresult).1
  · rw [accessStage_of_idle hidle] at hresult
    obtain ⟨-, rfl, rfl⟩ := hresult
    exact falls_of_eq rfl (.inl ⟨rfl, rfl, hidle⟩)

theorem fetchStage_effort (h : WellFormed p) (hresult : p.fetchStage context = (p', after)) :
    Falls p.effort p'.effort
      ((p' = p ∧ after = context ∧ ∀ f, p.slots.slot .fetch = some f → f.state ≠ .ready) ∨
        ∃ f, p.slots.slot .fetch = some f ∧ f.state = .ready ∧
          Storage.read context.memory .fetch (f.target context.registers) = (.wait, after.memory) ∧
          p'.slots = p.slots.put .fetch
            (some { f with address := some (f.target context.registers) })) := by
  rcases in_state_or_not (p.slots.slot .fetch) .ready with ⟨f, hf, hready⟩ | hidle
  · rcases hread :
      Storage.read context.memory .fetch (f.target context.registers) with ⟨answer, memory⟩
    cases answer with
    | wait =>
        rw [fetchStage_of_wait hf hready ((h.fits hf).blank (h.progress_of_ready hf hready))
          hread] at hresult
        obtain ⟨rfl, rfl⟩ := Prod.mk.inj hresult
        exact falls_of_eq (effort_put_same hf rfl rfl rfl) (.inr ⟨f, hf, hready, hread, rfl⟩)
    | done w =>
        refine falls_of_lt ?_
        by_cases hhalt : w = Word.halt
        · subst hhalt
          rw [fetchStage_of_halt hf hready hread] at hresult
          obtain ⟨rfl, -⟩ := Prod.mk.inj hresult
          have hnone : p.haltId = none := by
            cases hhalts : p.haltId with
            | none => rfl
            | some i =>
                rw [show p.slots.slot .fetch = none from (h.halting i hhalts).1] at hf
                cases hf
          rw [effort, effort, hnone]
          simp only [Option.elim_some, Option.elim_none]
          omega
        · rw [fetchStage_of_word hf hready hhalt hread] at hresult
          obtain ⟨rfl, -⟩ := Prod.mk.inj hresult
          exact effort_put hf rfl rfl (weight_lt_of_completed rfl (by simp [hready]) rfl)
  · rw [fetchStage_of_idle hidle] at hresult
    obtain ⟨rfl, rfl⟩ := Prod.mk.inj hresult
    exact falls_of_eq rfl (.inl ⟨rfl, rfl, hidle⟩)

end

-- What happens between the work of two cycles.

theorem retire_cases (p : Pipeline) : p.retire.retired = p.retired + 1 ∨
    p.retire = p ∧ ∀ f, p.slots.slot .writeBack = some f → f.state ≠ .completed := by
  rcases in_state_or_not (p.slots.slot .writeBack) .completed with ⟨f, hf, hstate⟩ | hunfinished
  · rw [retire_of_completed hf hstate]
    exact .inl rfl
  · exact .inr ⟨retire_of_unfinished hunfinished, hunfinished⟩

-- A row in which nothing moves: who has finished a stage finds the next one taken.
def Blocked (slots : Slots) : Prop :=
  ∀ first second f, second.order.val = first.order.val + 1 → second ≠ .system →
    slots.slot first = some f → f.state = .completed → slots.slot second ≠ none

theorem moveOn_effort (h : WellFormed p) :
    Falls p.effort { p with slots := moveOn p.slots }.effort (moveOn p.slots = p.slots ∧
      Blocked p.slots) := by
  rw [Slots.moveOn_eq]
  have hwell₁ := h.move .memory .writeBack rfl nofun
  obtain ⟨hle₁, hsame₁⟩ := p.slots.weight_pass .memory .writeBack rfl nofun (h.inPlace .memory)
  generalize p.slots.pass .memory .writeBack = slots₁ at *
  have hwell₂ := hwell₁.move .execute .memory rfl nofun
  obtain ⟨hle₂, hsame₂⟩ := slots₁.weight_pass .execute .memory rfl nofun (hwell₁.inPlace .execute)
  dsimp only at hwell₂
  generalize slots₁.pass .execute .memory = slots₂ at *
  have hwell₃ := hwell₂.move .decode .execute rfl nofun
  obtain ⟨hle₃, hsame₃⟩ := slots₂.weight_pass .decode .execute rfl nofun (hwell₂.inPlace .decode)
  dsimp only at hwell₃
  generalize slots₂.pass .decode .execute = slots₃ at *
  obtain ⟨hle₄, hsame₄⟩ := slots₃.weight_pass .fetch .decode rfl nofun (hwell₃.inPlace .fetch)
  generalize slots₃.pass .fetch .decode = slots₄ at *
  refine ⟨effort_le rfl (by show p.slots.weight ≤ slots₄.weight; omega), ?_⟩
  intro heffort
  have hweight : slots₄.weight ≤ p.slots.weight := by
    by_contra hmore
    have hlt : ({ p with slots := slots₄ } : Pipeline).effort < p.effort :=
      effort_lt rfl (Nat.lt_of_not_le hmore)
    exact Nat.ne_of_lt hlt heffort
  obtain ⟨rfl, hblocked₁⟩ := hsame₁ (by omega)
  obtain ⟨rfl, hblocked₂⟩ := hsame₂ (by omega)
  obtain ⟨rfl, hblocked₃⟩ := hsame₃ (by omega)
  obtain ⟨rfl, hblocked₄⟩ := hsame₄ (by omega)
  refine ⟨rfl, ?_⟩
  intro first second f horder hplace
  cases second with
  | fetch => cases first <;> cases horder
  | system => exact absurd rfl hplace
  | decode =>
      obtain rfl : first = .fetch := Stage.order_injective (Fin.ext (Nat.succ.inj horder).symm)
      exact hblocked₄ f
  | execute =>
      obtain rfl : first = .decode := Stage.order_injective (Fin.ext (Nat.succ.inj horder).symm)
      exact hblocked₃ f
  | memory =>
      obtain rfl : first = .execute := Stage.order_injective (Fin.ext (Nat.succ.inj horder).symm)
      exact hblocked₂ f
  | writeBack =>
      obtain rfl : first = .memory := Stage.order_injective (Fin.ext (Nat.succ.inj horder).symm)
      exact hblocked₁ f

theorem takeIn_effort (p : Pipeline) :
    Falls p.effort p.takeIn.effort (p.takeIn = p ∧ (p.haltId = none → p.slots.slot .fetch = none →
      if p.pipelined then p.openBranch ≠ none else p.slots.flights ≠ [])) := by
  rcases p.takeIn_cases with hsame | ⟨-, hfetch, -, htaken⟩
  · refine falls_of_eq (congrArg effort hsame) ⟨hsame, ?_⟩
    intro hhalts hfetch
    have hfetch' : p.slots.fetch = none := hfetch
    have hnext : p.takeIn.nextId = p.nextId := by rw [hsame]
    unfold takeIn at hnext
    rw [hhalts, hfetch'] at hnext
    cases hmode : p.pipelined with
    | true =>
        intro hopen
        simp [hmode, hopen] at hnext
    | false =>
        intro hempty
        simp [hmode, Slots.isEmpty, hempty] at hnext
  · rw [htaken]
    refine falls_of_lt (effort_lt rfl ?_)
    have hnew := Slots.weight_put_of_free .fetch (by decide) hfetch { id := p.nextId }
    rw [weight_of_ready rfl] at hnew
    show p.slots.weight < (p.slots.put .fetch (some { id := p.nextId })).weight
    omega

end Pipeline

end PipelinedProcessor
