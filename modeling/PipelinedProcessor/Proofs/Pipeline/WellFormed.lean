import PipelinedProcessor.Proofs.Pipeline.Row

namespace PipelinedProcessor

open Flight

namespace Slots

-- The slots by the names of their stages.

def slot (slots : Slots) : Stage → Option Flight
  | .fetch => slots.fetch
  | .decode => slots.decode
  | .execute => slots.execute
  | .memory => slots.memory
  | .writeBack => slots.writeBack
  | .system => none

def put (slots : Slots) (stage : Stage) (flight : Option Flight) : Slots :=
  match stage with
  | .fetch => { slots with fetch := flight }
  | .decode => { slots with decode := flight }
  | .execute => { slots with execute := flight }
  | .memory => { slots with memory := flight }
  | .writeBack => { slots with writeBack := flight }
  | .system => slots

-- The flights in the stages before and after one.

def younger (slots : Slots) : Stage → List Flight
  | .fetch => []
  | .decode => slots.fetch.toList
  | .execute => slots.fetch.toList ++ slots.decode.toList
  | .memory => slots.fetch.toList ++ slots.decode.toList ++ slots.execute.toList
  | _ => slots.fetch.toList ++ slots.decode.toList ++ slots.execute.toList ++ slots.memory.toList

def older (slots : Slots) : Stage → List Flight
  | .fetch =>
    slots.decode.toList ++ slots.execute.toList ++ slots.memory.toList ++ slots.writeBack.toList
  | .decode => slots.execute.toList ++ slots.memory.toList ++ slots.writeBack.toList
  | .execute => slots.memory.toList ++ slots.writeBack.toList
  | .memory => slots.writeBack.toList
  | _ => []

theorem flights_eq (slots : Slots) :
    slots.flights = slots.fetch.toList ++ slots.decode.toList ++ slots.execute.toList ++
      slots.memory.toList ++ slots.writeBack.toList := by
  obtain ⟨a, b, c, d, e⟩ := slots
  cases a <;> cases b <;> cases c <;> cases d <;> cases e <;> rfl

theorem slot_put (slots : Slots) (stage : Stage) (h : stage ≠ .system) (flight : Option Flight)
    (other : Stage) : (slots.put stage flight).slot other = if other = stage then flight
      else slots.slot other := by
  cases stage <;> cases other <;> first | rfl | contradiction

theorem flights_put (slots : Slots) (stage : Stage) (h : stage ≠ .system) (flight : Option Flight) :
    (slots.put stage flight).flights = slots.younger stage ++
      (flight.toList ++ slots.older stage) := by
  rw [flights_eq]
  cases stage <;> first | contradiction | simp [put, younger, older]

theorem put_slot (slots : Slots) (stage : Stage) : slots.put stage (slots.slot stage) = slots := by
  cases stage <;> rfl

theorem flights_of_slot {slots : Slots} {stage : Stage} {f : Flight}
    (h : slots.slot stage = some f) :
    slots.flights = slots.younger stage ++ f :: slots.older stage := by
  have hplace : stage ≠ .system := by
    rintro rfl
    cases h
  have hput := slots.flights_put stage hplace (slots.slot stage)
  rw [put_slot] at hput
  rw [hput, h]
  rfl

theorem mem_flights {slots : Slots} {f : Flight} :
    f ∈ slots.flights ↔ ∃ stage, slots.slot stage = some f := by
  rw [flights_eq]
  constructor
  · simp only [List.mem_append, Option.mem_toList]
    rintro ((((h | h) | h) | h) | h)
    · exact ⟨.fetch, h⟩
    · exact ⟨.decode, h⟩
    · exact ⟨.execute, h⟩
    · exact ⟨.memory, h⟩
    · exact ⟨.writeBack, h⟩
  · rintro ⟨stage, h⟩
    cases stage <;> simp_all [slot]

theorem flights_map (slots : Slots) (f : Flight → Flight) :
    (slots.map f).flights = slots.flights.map f := by
  have htoList (o : Option Flight) : (o.map f).toList = o.toList.map f := by
    cases o <;> rfl
  simp only [flights_eq, map, htoList, List.map_append]

theorem slot_map (slots : Slots) (f : Flight → Flight) (stage : Stage) :
    (slots.map f).slot stage = (slots.slot stage).map f := by
  cases stage <;> rfl

-- Where the oldest has left, the others are found as they were or woken.
theorem slot_woken {slots : Slots} {wake : Flight → Flight} {stage : Stage} {f : Flight}
    (h : ((slots.put .writeBack none).map wake).slot stage = some f) :
    ∃ g, slots.slot stage = some g ∧ f = wake g := by
  rw [slot_map] at h
  obtain ⟨g, hg, rfl⟩ := Option.map_eq_some_iff.mp h
  rw [slots.slot_put .writeBack nofun] at hg
  split at hg
  · cases hg
  · exact ⟨g, hg, rfl⟩

-- A move from one stage to the next, where the first has finished and the second is free.
def pass (slots : Slots) (first second : Stage) : Slots :=
  let (left, entered) := Pipeline.passOn second (slots.slot first) (slots.slot second)
  (slots.put first left).put second entered

theorem moveOn_eq (slots : Slots) :
    Pipeline.moveOn slots = (((slots.pass .memory .writeBack).pass .execute .memory).pass .decode
      .execute).pass .fetch .decode := rfl

-- A move happens or it changes nothing.
theorem pass_cases (slots : Slots) (first second : Stage) :
    slots.pass first second = slots ∨ ∃ f, slots.slot first = some f ∧ slots.slot second = none ∧
      f.state = .completed ∧
      slots.pass first second = (slots.put first none).put second (some (f.enter second)) := by
  unfold pass
  cases hfirst : slots.slot first with
  | none =>
      left
      simp only [Pipeline.passOn]
      rw [← hfirst, put_slot, put_slot]
  | some f =>
      cases hsecond : slots.slot second with
      | some g =>
          left
          simp only [Pipeline.passOn]
          rw [← hfirst, put_slot, ← hsecond, put_slot]
      | none =>
          by_cases hstate : f.state = .completed
          · right
            exact ⟨f, rfl, rfl, hstate, by simp only [Pipeline.passOn, if_pos hstate]⟩
          · left
            simp only [Pipeline.passOn, if_neg hstate]
            rw [← hfirst, put_slot, ← hsecond, put_slot]

-- The other stages do not take part in it.
theorem slot_pass (slots : Slots) {first second other : Stage} (hfirst : other ≠ first)
    (hsecond : other ≠ second) :
    (slots.pass first second).slot other = slots.slot other := by
  have hput (slots : Slots) (stage : Stage) (flight : Option Flight) (hne : other ≠ stage) :
      (slots.put stage flight).slot other = slots.slot other := by
    cases stage <;> cases other <;> first | rfl | contradiction
  unfold pass
  rw [hput _ _ _ hsecond, hput _ _ _ hfirst]

theorem flights_move {slots : Slots} {first second : Stage} {f : Flight} (f' : Flight)
    (horder : second.order.val = first.order + 1) (hplace : second ≠ .system)
    (hfirst : slots.slot first = some f) (hsecond : slots.slot second = none) :
    ((slots.put first none).put second (some f')).flights = slots.younger first ++ f' ::
      slots.older first := by
  obtain ⟨a, b, c, d, e⟩ := slots
  rw [flights_eq]
  cases first <;> cases second <;> first
    | contradiction
    | (simp only [slot] at hfirst hsecond; subst hfirst hsecond; simp [put, younger, older])

theorem mem_older_of_slot {slots : Slots} {stage other : Stage} {g : Flight}
    (hg : slots.slot other = some g) (horder : stage.order < other.order) :
    g ∈ slots.older stage := by
  cases stage <;> cases other <;> first
    | exact absurd horder (by decide)
    | cases hg
    | (simp only [slot] at hg; simp [older, hg])

end Slots

namespace Pipeline

-- What every cycle keeps. Numbers are given in program order and without gaps, a flight stands in
-- the slot of its stage, nothing follows the word that halts, and nothing is fetched while a branch
-- is open.
structure WellFormed (p : Pipeline) : Prop where
  row : Row p.retired p.slots.flights
  inPlace : ∀ stage f, p.slots.slot stage = some f → f.stage = stage
  nextId_eq : p.nextId = p.retired + p.slots.flights.length + p.haltId.elim 0 fun _ => 1
  halting : ∀ h, p.haltId = some h → p.slots.fetch = none ∧ h + 1 = p.nextId
  single : p.pipelined = false → p.slots.flights.length ≤ 1
  branch : OpenBranch p.openBranch p.slots.flights
  fetching : ∀ f, p.slots.fetch = some f → f.state = .ready → p.openBranch = none

namespace WellFormed

variable {p : Pipeline} (h : WellFormed p)

include h

theorem fits {stage : Stage} {f : Flight} (hf : p.slots.slot stage = some f) :
    f.Fits p.retired (p.slots.older stage) := by
  have hrow := h.row
  rw [Slots.flights_of_slot hf] at hrow
  exact hrow.fits

-- The word that halts comes after all that are retired.
theorem haltId_eq (hhalts : p.haltId.isSome) (hempty : p.slots.flights = []) :
    p.haltId = some p.retired := by
  obtain ⟨i, hi⟩ := Option.isSome_iff_exists.mp hhalts
  have hnext := (h.halting i hi).2
  have hcount := h.nextId_eq
  rw [hi, hempty] at hcount
  simp only [List.length_nil, Option.elim_some] at hcount
  rw [hi, show i = p.retired by omega]

-- One flight does something in its stage.
theorem replace {stage : Stage} {f f' : Flight} {openBranch : Option Nat}
    (hf : p.slots.slot stage = some f) (hfits : f'.Fits p.retired (p.slots.older stage))
    (hkeep : SameFace f f' ∨ (f'.id = f.id ∧ stage = .decode)) (hstage : f'.stage = f.stage)
    (hbranch : OpenBranch openBranch (p.slots.younger stage ++ f' :: p.slots.older stage))
    (hfetching : ∀ g, (p.slots.put stage (some f')).slot .fetch = some g → g.state = .ready →
      openBranch = none) :
    WellFormed { p with slots := p.slots.put stage (some f'), openBranch := openBranch } := by
  have hplace : stage ≠ .system := by
    rintro rfl
    cases hf
  have hbefore := Slots.flights_of_slot hf
  have hafter : (p.slots.put stage (some f')).flights = p.slots.younger stage ++
      f' :: p.slots.older stage :=
    p.slots.flights_put stage hplace (some f')
  have hlength : (p.slots.put stage (some f')).flights.length = p.slots.flights.length := by
    simp [hbefore, hafter]
  refine ⟨?_, ?_, ?_, ?_, ?_, ?_, hfetching⟩
  · show Row p.retired (p.slots.put stage (some f')).flights
    rw [hafter]
    have hrow := h.row
    rw [hbefore] at hrow
    refine hrow.update hfits (hkeep.imp_right fun hdecode => ⟨hdecode.1, ?_⟩)
    rintro y hy
    obtain rfl := hdecode.2
    have hfetch : p.slots.fetch = some y := by simpa [Slots.younger] using hy
    exact h.inPlace .fetch y hfetch
  · intro other g hg
    have hslot := p.slots.slot_put stage hplace (some f') other
    rw [show (p.slots.put stage (some f')).slot other = some g from hg] at hslot
    split at hslot
    · rename_i heq
      obtain rfl := Option.some.inj hslot
      rw [hstage, h.inPlace stage f hf, heq]
    · exact h.inPlace other g hslot.symm
  · show p.nextId = _ + (p.slots.put stage (some f')).flights.length + _
    rw [hlength]
    exact h.nextId_eq
  · intro i hi
    obtain ⟨hnone, hnext⟩ := h.halting i hi
    refine ⟨?_, hnext⟩
    have hslot := p.slots.slot_put stage hplace (some f') .fetch
    split at hslot
    · rename_i heq
      subst heq
      rw [show p.slots.slot .fetch = p.slots.fetch from rfl, hnone] at hf
      cases hf
    · exact hslot.trans hnone
  · intro hserial
    show (p.slots.put stage (some f')).flights.length ≤ 1
    rw [hlength]
    exact h.single hserial
  · show OpenBranch openBranch (p.slots.put stage (some f')).flights
    rw [hafter]
    exact hbranch

-- The same for what leaves the branches as they are.
theorem replace_same {stage : Stage} {f f' : Flight} (hf : p.slots.slot stage = some f)
    (hfits : f'.Fits p.retired (p.slots.older stage))
    (hkeep : SameFace f f' ∨ (f'.id = f.id ∧ stage = .decode)) (hstage : f'.stage = f.stage)
    (hraw : f'.raw = f.raw) (hstarted : 1 ≤ f.progress → 1 ≤ f'.progress)
    (hpassed : f'.progress < 7 ↔ f.progress < 7) (hstate : f'.state = .ready → f.state = .ready) :
    WellFormed { p with slots := p.slots.put stage (some f') } := by
  have hplace : stage ≠ .system := by
    rintro rfl
    cases hf
  have hid : f'.id = f.id := by
    rcases hkeep with hface | ⟨hid, -⟩
    · exact hface.id_eq
    · exact hid
  refine h.replace hf hfits hkeep hstage ?_ ?_
  · have hbranch := h.branch
    rw [Slots.flights_of_slot hf] at hbranch
    exact hbranch.update hid hraw hstarted hpassed
  · intro g hg hready
    rw [p.slots.slot_put stage hplace] at hg
    split at hg
    · rename_i heq
      subst heq
      obtain rfl := Option.some.inj hg
      exact h.fetching f hf (hstate hready)
    · exact h.fetching g hg hready

theorem move (first second : Stage) (horder : second.order.val = first.order + 1)
    (hplace : second ≠ .system) :
    WellFormed { p with slots := p.slots.pass first second } := by
  rcases p.slots.pass_cases first second with hsame | ⟨f, hf, hfree, hstate, hpass⟩
  · rw [hsame]
    exact h
  rw [hpass]
  have hbefore := Slots.flights_of_slot hf
  have hafter := Slots.flights_move (f.enter second) horder hplace hf hfree
  have hstage := h.inPlace first f hf
  have hfirst : first ≠ .system := by
    rintro rfl
    cases hf
  have hslot (other : Stage) :
      ((p.slots.put first none).put second (some (f.enter second))).slot other =
      if other = second then some (f.enter second) else if other = first then none
      else p.slots.slot other := by
    rw [Slots.slot_put _ second hplace, Slots.slot_put _ first hfirst]
  have hnotFetch : second ≠ .fetch := by
    rintro rfl
    simp [Stage.order] at horder
  have hlength : ((p.slots.put first none).put second (some (f.enter second))).flights.length =
      p.slots.flights.length := by
    simp [hbefore, hafter]
  refine ⟨?_, ?_, ?_, ?_, ?_, ?_, ?_⟩
  · show Row p.retired ((p.slots.put first none).put second (some (f.enter second))).flights
    rw [hafter]
    have hrow := h.row
    rw [hbefore] at hrow
    exact hrow.update (hrow.fits.enter (by rw [hstage]; exact horder) hplace hstate)
      (.inl (sameFace_enter f second))
  · intro other g hg
    have hother := (hslot other).symm.trans hg
    split at hother
    · rename_i heq
      obtain rfl := Option.some.inj hother
      exact heq.symm
    · split at hother
      · cases hother
      · exact h.inPlace other g hother
  · show p.nextId = _ +
      ((p.slots.put first none).put second (some (f.enter second))).flights.length + _
    rw [hlength]
    exact h.nextId_eq
  · intro i hi
    obtain ⟨hnone, hnext⟩ := h.halting i hi
    refine ⟨(hslot .fetch).trans ?_, hnext⟩
    rw [if_neg (Ne.symm hnotFetch)]
    split
    · rfl
    · exact hnone
  · intro hserial
    show ((p.slots.put first none).put second (some (f.enter second))).flights.length ≤ 1
    rw [hlength]
    exact h.single hserial
  · show OpenBranch p.openBranch
      ((p.slots.put first none).put second (some (f.enter second))).flights
    have hbranch := h.branch
    rw [hbefore] at hbranch
    rw [hafter]
    have hp := progress_of_completed hstate
    rw [hstage] at hp
    have hp' := progress_enter f second
    exact hbranch.update rfl rfl (by omega) (by omega)
  · intro g hg hready
    have hother := (hslot .fetch).symm.trans hg
    rw [if_neg (Ne.symm hnotFetch)] at hother
    split at hother
    · cases hother
    · exact h.fetching g hother hready

-- Numbers grow from Write Back to Fetch.
theorem id_lt {stage other : Stage} {f g : Flight} (hf : p.slots.slot stage = some f)
    (hg : p.slots.slot other = some g) (horder : stage.order < other.order) : g.id < f.id := by
  have hrow := h.row
  rw [Slots.flights_of_slot hf] at hrow
  exact ((hrow.mem_older_iff g).mpr (Slots.mem_older_of_slot hg horder)).2

theorem stage_of_id {stage other : Stage} {f g : Flight} (hf : p.slots.slot stage = some f)
    (hg : p.slots.slot other = some g) (hid : g.id = f.id) : other = stage := by
  rcases Nat.lt_trichotomy stage.order other.order with hlt | heq | hgt
  · exact absurd (h.id_lt hf hg hlt) (by omega)
  · exact (Stage.order_injective (Fin.ext heq)).symm
  · exact absurd (h.id_lt hg hf hgt) (by omega)

-- Who is in Fetch came in last.
theorem nextId_of_fetch {f : Flight} (hf : p.slots.slot .fetch = some f) : p.nextId = f.id + 1 := by
  have hnext := h.nextId_eq
  have hid := (h.fits hf).id_eq
  cases hhalts : p.haltId with
  | none =>
      rw [hhalts, Slots.flights_of_slot hf] at hnext
      simp only [Slots.younger, List.nil_append, List.length_cons, Option.elim_none] at hnext
      omega
  | some i =>
      rw [show p.slots.slot .fetch = none from (h.halting i hhalts).1] at hf
      cases hf

-- The word that halts was read, and its flight goes no further.
theorem haltAt {f : Flight} (hf : p.slots.slot .fetch = some f) (hp : f.progress = 0) :
    WellFormed { p with slots := p.slots.put .fetch none, haltId := some f.id } := by
  have hbefore := Slots.flights_of_slot hf
  have hafter : (p.slots.put .fetch none).flights = p.slots.older .fetch :=
    p.slots.flights_put .fetch nofun none
  have hslot := p.slots.slot_put .fetch nofun none
  have hrow := h.row
  have hbranch := h.branch
  rw [hbefore] at hrow hbranch
  have hid := (h.fits hf).id_eq
  have hnext := h.nextId_of_fetch hf
  refine ⟨?_, ?_, ?_, ?_, ?_, ?_, ?_⟩
  · show Row p.retired (p.slots.put .fetch none).flights
    rw [hafter]
    exact hrow.2
  · intro other g hg
    have hother := (hslot other).symm.trans hg
    split at hother
    · cases hother
    · exact h.inPlace other g hother
  · show p.nextId = p.retired + (p.slots.put .fetch none).flights.length + 1
    rw [hafter]
    omega
  · intro i hi
    obtain rfl := Option.some.inj hi
    refine ⟨hslot .fetch, ?_⟩
    show f.id + 1 = p.nextId
    omega
  · intro hserial
    show (p.slots.put .fetch none).flights.length ≤ 1
    have hle := h.single hserial
    rw [hbefore] at hle
    rw [hafter]
    exact Nat.le_trans (Nat.le_succ _) hle
  · show OpenBranch p.openBranch (p.slots.put .fetch none).flights
    rw [hafter]
    exact hbranch.of_fresh hp
  · intro g hg
    have hnone := (hslot .fetch).symm.trans hg
    cases hnone

-- The oldest leaves, and those that waited for it wait no longer.
theorem dropOldest {f : Flight} (hf : p.slots.slot .writeBack = some f)
    (hstate : f.state = .completed) :
    WellFormed { p with
      slots := (p.slots.put .writeBack none).map (wakeIf f.id)
      retired := p.retired + 1 } := by
  have hp : f.progress = 9 := by
    rw [progress_of_completed hstate, h.inPlace .writeBack f hf]
    rfl
  have hid : f.id = p.retired := (h.fits hf).id_eq
  have hbefore : p.slots.flights = p.slots.younger .writeBack ++ [f] := Slots.flights_of_slot hf
  have hafter : ((p.slots.put .writeBack none).map (wakeIf f.id)).flights =
      (p.slots.younger .writeBack).map (wakeIf p.retired) := by
    have hput := p.slots.flights_put .writeBack nofun none
    rw [Slots.flights_map, hid, hput]
    simp [Slots.older]
  have hlength : ((p.slots.put .writeBack none).map (wakeIf f.id)).flights.length + 1 =
      p.slots.flights.length := by
    rw [hafter, hbefore]
    simp
  have hrow := h.row
  rw [hbefore] at hrow
  refine ⟨?_, ?_, ?_, ?_, ?_, ?_, ?_⟩
  · show Row (p.retired + 1) ((p.slots.put .writeBack none).map (wakeIf f.id)).flights
    rw [hafter]
    exact hrow.retire
  · intro other g' hg'
    obtain ⟨g, hg, rfl⟩ := Slots.slot_woken hg'
    rw [stage_wakeIf]
    exact h.inPlace other g hg
  · show p.nextId = p.retired + 1 +
      ((p.slots.put .writeBack none).map (wakeIf f.id)).flights.length +
      p.haltId.elim 0 fun _ => 1
    have hnext := h.nextId_eq
    omega
  · intro i hi
    obtain ⟨hnone, hnext⟩ := h.halting i hi
    refine ⟨?_, hnext⟩
    show Option.map _ p.slots.fetch = none
    rw [hnone]
    rfl
  · intro hserial
    show ((p.slots.put .writeBack none).map (wakeIf f.id)).flights.length ≤ 1
    have hle := h.single hserial
    omega
  · show OpenBranch p.openBranch ((p.slots.put .writeBack none).map (wakeIf f.id)).flights
    rw [hafter]
    have hbranch := h.branch
    rw [hbefore] at hbranch
    refine (hbranch.of_passed (by omega)).map (fun g => (sameFace_wakeIf _ g).id_eq) (raw_wakeIf _)
      (fun g hg => ?_) (fun g hg => (hrow.progress_wakeIf _ hg).2)
    have hprogress := (hrow.progress_wakeIf p.retired hg).1
    omega
  · intro g' hg' hready
    replace hg' : ((p.slots.put .writeBack none).map (wakeIf f.id)).slot .fetch = some g' := hg'
    obtain ⟨g, hg, rfl⟩ := Slots.slot_woken hg'
    exact h.fetching g hg (ready_of_wakeIf hready)

-- A new one comes in.
theorem enterNew (hhalts : p.haltId = none) (hfree : p.slots.slot .fetch = none)
    (hopen : p.openBranch = none) (hserial : p.pipelined = false → p.slots.flights = []) :
    WellFormed { p with
      slots := p.slots.put .fetch (some { id := p.nextId })
      nextId := p.nextId + 1 } := by
  have hbefore : p.slots.flights = p.slots.older .fetch := by
    have hput := p.slots.flights_put .fetch nofun (p.slots.slot .fetch)
    rw [Slots.put_slot, hfree] at hput
    exact hput
  have hafter : (p.slots.put .fetch (some { id := p.nextId })).flights =
      { id := p.nextId } :: p.slots.flights := by
    rw [hbefore]
    exact p.slots.flights_put .fetch nofun _
  have hnext := h.nextId_eq
  rw [hhalts] at hnext
  refine ⟨?_, ?_, ?_, ?_, ?_, ?_, fun _ _ _ => hopen⟩
  · show Row p.retired (p.slots.put .fetch (some { id := p.nextId })).flights
    rw [hafter]
    exact ⟨fits_new hnext, h.row⟩
  · intro other g hg
    have hother := (p.slots.slot_put .fetch nofun _ other).symm.trans hg
    split at hother
    · rename_i heq
      obtain rfl := Option.some.inj hother
      exact heq.symm
    · exact h.inPlace other g hother
  · show p.nextId + 1 = p.retired + (p.slots.put .fetch (some { id := p.nextId })).flights.length +
      p.haltId.elim 0 fun _ => 1
    rw [hafter, hhalts, List.length_cons, hnext]
    rfl
  · intro i hi
    rw [show p.haltId = some i from hi] at hhalts
    cases hhalts
  · intro hmode
    show (p.slots.put .fetch (some { id := p.nextId })).flights.length ≤ 1
    rw [hafter, hserial hmode]
    exact Nat.le_refl 1
  · show OpenBranch p.openBranch (p.slots.put .fetch (some { id := p.nextId })).flights
    rw [hafter]
    exact h.branch.of_new rfl

end WellFormed

end Pipeline

end PipelinedProcessor
