import PipelinedProcessor.Proofs.Flight.Progress
import PipelinedProcessor.Proofs.Result

namespace PipelinedProcessor.Flight

-- What one try in each stage makes of a flight that was ready there.

section

variable {σ : Type} [Storage σ]

-- The address that Fetch asks for: the one it has asked for before, or where the counter is now.
def target (f : Flight) (registers : Registers) : Nat := f.address.getD registers.counter

theorem fetch_of_wait {f : Flight} {context : Context σ} {memory : σ}
    (h : Storage.read context.memory .fetch (f.target context.registers) = (.wait, memory)) :
    f.fetch context = ({ f with address := some (f.target context.registers) },
      { context with memory := memory }) := by
  unfold target at h
  simp only [fetch, h]
  rfl

theorem fetch_of_done {f : Flight} {context : Context σ} {memory : σ} {w : Word}
    (h : Storage.read context.memory .fetch (f.target context.registers) = (.done w, memory)) :
    f.fetch context =
      ({ f with address := some (f.target context.registers), raw := some w }.complete,
        ⟨if w = Word.halt then context.registers
          else context.registers.stepCounter, context.vectors,
          memory⟩) := by
  unfold target at h
  simp only [fetch, h]
  rfl

theorem access_of_none {f : Flight} (h : f.action = none) (context : Context σ) :
    f.access context = (none, f.complete, context) := by
  simp only [access, h]

theorem access_of_waiting {f : Flight} {action next : Action} {context after : Context σ}
    (h : f.action = some action) (hadvance : action.advance context = (.waiting, next, after)) :
    f.access context = (none, { f with action := some next }, after) := by
  simp only [access, h, hadvance]

theorem access_of_finished {f : Flight} {action next : Action} {context after : Context σ}
    {writes : List RegisterWrite} (h : f.action = some action)
    (hadvance : action.advance context = (.finished writes, next, after)) :
    f.access context =
      (none, { f with action := some next, results := f.results ++ writes }.complete, after) := by
  simp only [access, h, hadvance]

theorem access_of_faulted {f : Flight} {action next : Action} {context after : Context σ}
    {fault : Fault} (h : f.action = some action)
    (hadvance : action.advance context = (.faulted fault, next, after)) :
    f.access context = (some fault, { f with action := none }, after) := by
  simp only [access, h, hadvance]

-- Whatever a try comes to, the context is as the action leaves it.
theorem context_access (f : Flight) (context : Context σ) :
    (f.access context).2.2 = f.action.elim context fun action => (action.advance context).2.2 := by
  cases haction : f.action with
  | none => rw [access_of_none haction, Option.elim_none]
  | some action =>
      rcases hadvance : action.advance context with ⟨progress, next, after⟩
      rw [Option.elim_some, hadvance]
      cases progress with
      | waiting => rw [access_of_waiting haction hadvance]
      | finished writes => rw [access_of_finished haction hadvance]
      | faulted fault => rw [access_of_faulted haction hadvance]

end

-- Registers are written without memory.
theorem memory_commit {σ : Type} (f : Flight) (context : Context σ) :
    (f.commit context).2.memory = context.memory := by
  show (f.results.foldl _ context).memory = _
  induction f.results generalizing context with
  | nil => rfl
  | cons write rest ih =>
      have hone : (write.commit context).memory = context.memory := by
        cases write <;> rfl
      rw [List.foldl_cons, ih, hone]

theorem raw_access {σ : Type} [Storage σ] (f : Flight) (context : Context σ) :
    (f.access context).2.1.raw = f.raw := by
  unfold access
  split
  · rfl
  · split <;> rfl

theorem execute_of_known {f : Flight} {instr : Instruction} (h : f.instr = some instr)
    (registers : Registers) (vectors : VectorRegisters) :
    f.execute registers vectors = (instr.work (f.address.getD 0) registers vectors).map fun work =>
      (f.take work).complete := by
  simp only [execute, h]

theorem producer?_eq_none {f : Flight} {others : List Flight} (h : f.producer? others = none)
    {g : Flight} (hg : g ∈ others) (hid : g.id < f.id) : f.dependsOn g = false := by
  simp only [producer?, List.max?_eq_none_iff, List.map_eq_nil_iff, List.filter_eq_nil_iff,
    Bool.and_eq_true, decide_eq_true_eq, not_and, Bool.not_eq_true] at h
  exact h g hg hid

theorem producer?_eq_some {f : Flight} {others : List Flight} {j : Nat}
    (h : f.producer? others = some j) :
    (∃ g ∈ others, g.id < f.id ∧ g.id = j) ∧
      ∀ g ∈ others, g.id < f.id → j < g.id → f.dependsOn g = false := by
  obtain ⟨hmem, hmax⟩ := List.max?_eq_some_iff.mp h
  constructor
  · obtain ⟨g, hg, rfl⟩ := List.mem_map.mp hmem
    obtain ⟨hothers, hp⟩ := List.mem_filter.mp hg
    simp only [Bool.and_eq_true, decide_eq_true_eq] at hp
    exact ⟨g, hothers, hp.1, rfl⟩
  · intro g hg hid hlt
    by_contra hdepends
    have hle := hmax g.id (List.mem_map.mpr ⟨g, List.mem_filter.mpr ⟨hg, by simp_all⟩, rfl⟩)
    omega

theorem decode_same (f : Flight) (others : List Flight) : (f.decode others).id = f.id ∧
    (f.decode others).address = f.address ∧ (f.decode others).raw = f.raw := by
  have hsettle (g : Flight) : (g.settle others).id = g.id ∧ (g.settle others).address = g.address ∧
      (g.settle others).raw = g.raw := by
    unfold settle
    split <;> exact ⟨rfl, rfl, rfl⟩
  unfold decode
  split
  · exact hsettle f
  · exact ⟨rfl, rfl, rfl⟩
  · exact hsettle _

theorem decode_idle (f : Flight) (others : List Flight) :
    (f.decode others).action = f.action ∧ (f.decode others).results = f.results := by
  have hsettle (g : Flight) : (g.settle others).action = g.action ∧
      (g.settle others).results = g.results := by
    unfold settle
    split <;> exact ⟨rfl, rfl⟩
  unfold decode
  split
  · exact hsettle f
  · exact ⟨rfl, rfl⟩
  · exact hsettle _

theorem take_face (f : Flight) (work : Work) :
    SameFace f (f.take work) ∧ (f.take work).raw = f.raw ∧ (f.take work).stage = f.stage ∧
      (f.take work).stagesDone = f.stagesDone := by
  cases work <;> exact ⟨⟨rfl, rfl, rfl, rfl⟩, rfl, rfl, rfl⟩

section

variable {σ : Type} [Storage σ] {retired : Nat} {older : List Flight} {f : Flight}
  (h : Fits retired older f) (hready : f.state = .ready)

include h hready

-- The word that halts does not go on, so that nothing is claimed of it.
theorem Fits.fetch (hstage : f.stage = .fetch) (context : Context σ)
    (hraw : (f.fetch context).1.raw ≠ some Word.halt) : Fits retired older (f.fetch context).1 := by
  have hp : f.progress = 0 := progress_of_ready hready hstage
  have hinstr := h.undecoded (by omega) (by simp [hready])
  have hidle := h.idle (by omega)
  rcases hread :
    Storage.read context.memory .fetch (f.target context.registers) with ⟨answer, memory⟩
  cases answer with
  | wait =>
      rw [fetch_of_wait hread]
      refine ⟨h.id_eq, h.place, h.done_eq, ?_, ?_, h.blank, h.fetched,
        fun _ _ => hinstr, fun _ => hidle⟩
      · intro j hj
        rw [show f.state = .stalled j from hj] at hready
        cases hready
      · intro hlate
        have hlate' : 3 ≤ f.progress := hlate
        omega
  | done w =>
      rw [fetch_of_done hread] at hraw ⊢
      dsimp only at hraw ⊢
      have hp' :
          ({ f with address := some (f.target context.registers), raw := some w }.complete).progress
            = 1 := by
        rw [progress_complete, hstage]
        rfl
      refine ⟨h.id_eq, h.place, ?_, nofun, by omega, by omega, fun _ => ⟨w, rfl, ?_⟩,
        fun _ _ => hinstr, fun _ => hidle⟩
      · rw [hp']
        show f.stagesDone ++ [f.stage] = _
        rw [h.done_eq, hp, hstage]
        rfl
      · rintro rfl
        exact hraw rfl

theorem Fits.decode (hstage : f.stage = .decode) (others : List Flight)
    (hothers : ∀ g, g ∈ others → g.id < f.id → g ∈ older)
    (holder : ∀ g ∈ older, g ∈ others ∧ g.id < f.id) :
    Fits retired older (f.decode others) ∧ (f.decode others).id = f.id ∧
      (f.decode others).stage = f.stage ∧ (f.decode others).raw = f.raw := by
  have hp : f.progress = 2 := progress_of_ready hready hstage
  obtain ⟨w, hw, hhalt⟩ := h.fetched (by omega)
  have hinstr := h.undecoded (by omega) (by simp [hready])
  have hidle := h.idle (by omega)
  set read : Flight := { f with
    instr := some (Instruction.ofWord w)
    reads := (Instruction.ofWord w).reads
    writes := (Instruction.ofWord w).writes } with hread
  have hdecode : f.decode others = read.settle others := by
    simp only [Flight.decode, hinstr, hw, hread]
  have hknown : read.Known := ⟨w, hw, rfl, rfl, rfl⟩
  rw [hdecode, settle]
  split
  · rename_i j hproducer
    obtain ⟨⟨g, hg, hid, hj⟩, hlate⟩ := producer?_eq_some hproducer
    have hp' : ({ read with state := .stalled j } : Flight).progress = 2 := by
      rw [progress_of_not_completed (by simp)]
      show 2 * f.stage.order.val = 2
      rw [hstage]
      rfl
    refine ⟨⟨h.id_eq, h.place, ?_, ?_, by omega, by omega, fun _ => ⟨w, hw, hhalt⟩,
      ?_, fun _ => hidle⟩, rfl, rfl, rfl⟩
    · rw [hp']
      exact h.done_eq.trans (by rw [hp])
    · intro i hi
      obtain rfl := FlightState.stalled.inj hi
      refine ⟨hstage, hknown, ⟨g, hothers g hg hid, hj⟩, ?_⟩
      intro g' hg' hlt
      exact hlate g' (holder g' hg').1 (holder g' hg').2 hlt
    · intro _ hn
      exact absurd rfl (hn j)
  · rename_i hproducer
    have hp' : read.complete.progress = 3 := by
      rw [progress_complete]
      show 2 * f.stage.order.val + 1 = 3
      rw [hstage]
      rfl
    refine ⟨⟨h.id_eq, h.place, ?_, nofun, ?_, by omega, fun _ => ⟨w, hw, hhalt⟩, by omega,
      fun _ => hidle⟩, rfl, rfl, rfl⟩
    · have hdone := done_of_complete h.place (by simp [hready]) h.done_eq
      rw [progress_complete]
      exact hdone
    · intro _
      refine ⟨hknown, ?_⟩
      intro g hg
      exact producer?_eq_none hproducer (holder g hg).1 (holder g hg).2

theorem Fits.execute (hstage : f.stage = .execute) {registers : Registers}
    {vectors : VectorRegisters} {f' : Flight} (hresult : f.execute registers vectors = .ok f') :
    Fits retired older f' ∧ SameFace f f' ∧ f'.raw = f.raw ∧ f'.stage = f.stage ∧
      f'.state = .completed := by
  have hp : f.progress = 4 := progress_of_ready hready hstage
  obtain ⟨⟨w, -, hinstr, -⟩, -⟩ := h.settled (by omega)
  rw [execute_of_known hinstr] at hresult
  obtain ⟨work, -, rfl⟩ := ok_of_map hresult
  obtain ⟨hface, hraw, hsame, hdone⟩ := f.take_face work
  refine ⟨?_, ⟨hface.id_eq, hface.instr_eq, hface.reads_eq, hface.writes_eq⟩, hraw, hsame, rfl⟩
  refine h.of_work ⟨hface.id_eq, hface.instr_eq, hface.reads_eq, hface.writes_eq⟩
    hraw hsame (by omega) (by simp [hready]) (.inr ⟨rfl, ?_⟩) ?_
  · show (f.take work).stagesDone ++ [(f.take work).stage] = _
    rw [hdone, hsame]
  · intro hearly
    rw [progress_complete, hsame, hstage] at hearly
    simp [Stage.order] at hearly

theorem Fits.access (hstage : f.stage = .memory) (context : Context σ) :
    Fits retired older (f.access context).2.1 ∧ SameFace f (f.access context).2.1 ∧
      (f.access context).2.1.stage = f.stage := by
  have hp : f.progress = 6 := progress_of_ready hready hstage
  have hlate (f' : Flight) (hsame : f'.stage = f.stage) : ¬f'.progress ≤ 4 := by
    simp [progress, hsame, hstage, Stage.order]
    omega
  cases haction : f.action with
  | none =>
      rw [access_of_none haction]
      exact ⟨h.of_work (sameFace_complete f) rfl rfl (by omega) (by simp [hready]) (.inr ⟨rfl, rfl⟩)
        (fun hearly => absurd hearly (hlate _ rfl)), sameFace_complete f, rfl⟩
  | some action =>
      rcases hadvance : action.advance context with ⟨progress, next, after⟩
      cases progress with
      | waiting =>
          rw [access_of_waiting haction hadvance]
          exact ⟨h.of_work ⟨rfl, rfl, rfl, rfl⟩ rfl rfl (by omega) (by simp [hready])
            (.inl ⟨rfl, rfl⟩)
            (fun hearly => absurd hearly (hlate _ rfl)), ⟨rfl, rfl, rfl, rfl⟩, rfl⟩
      | finished writes =>
          rw [access_of_finished haction hadvance]
          exact ⟨h.of_work ⟨rfl, rfl, rfl, rfl⟩ rfl rfl (by omega) (by simp [hready])
            (.inr ⟨rfl, rfl⟩)
            (fun hearly => absurd hearly (hlate _ rfl)), ⟨rfl, rfl, rfl, rfl⟩, rfl⟩
      | faulted fault =>
          rw [access_of_faulted haction hadvance]
          exact ⟨h.of_work ⟨rfl, rfl, rfl, rfl⟩ rfl rfl (by omega) (by simp [hready])
            (.inl ⟨rfl, rfl⟩)
            (fun hearly => absurd hearly (hlate _ rfl)), ⟨rfl, rfl, rfl, rfl⟩, rfl⟩

omit [Storage σ] in
theorem Fits.commit (hstage : f.stage = .writeBack) (context : Context σ) :
    Fits retired older (f.commit context).1 := by
  refine h.of_work ⟨rfl, rfl, rfl, rfl⟩ rfl rfl ?_ (by simp [hready]) (.inr ⟨rfl, rfl⟩) ?_
  · rw [progress_of_ready hready hstage]
    decide
  · intro hearly
    have hp : (f.commit context).1.progress = 2 * f.stage.order + 1 := rfl
    rw [hp, hstage] at hearly
    exact absurd hearly (by decide)

end

-- What no action takes from a flight.
structure Grows (f f' : Flight) : Prop where
  id_eq : f'.id = f.id
  address : ∀ a, f.address = some a → f'.address = some a
  done : ∀ stage ∈ f.stagesDone, stage ∈ f'.stagesDone

theorem grows_complete (f : Flight) : f.Grows f.complete :=
  ⟨rfl, fun _ ha => ha, fun _ hstage => List.mem_append_left _ hstage⟩

theorem grows_enter (f : Flight) (stage : Stage) : f.Grows (f.enter stage) :=
  ⟨rfl, fun _ ha => ha, fun _ hstage => hstage⟩

theorem grows_decode (f : Flight) (others : List Flight) : f.Grows (f.decode others) := by
  obtain ⟨hid, haddress, -⟩ := f.decode_same others
  refine ⟨hid, fun a ha => haddress.trans ha, ?_⟩
  have hsettle (g : Flight) : ∀ stage ∈ g.stagesDone, stage ∈ (g.settle others).stagesDone := by
    intro stage hstage
    unfold settle
    split
    · exact hstage
    · exact List.mem_append_left _ hstage
  unfold decode
  split
  · exact hsettle f
  · exact f.grows_complete.done
  · rename_i raw _ _
    set instr := Instruction.ofWord raw
    exact hsettle { f with instr := some instr, reads := instr.reads, writes := instr.writes }

theorem grows_execute {f f' : Flight} {registers : Registers} {vectors : VectorRegisters}
    (hresult : f.execute registers vectors = .ok f') : f.Grows f' := by
  have htake (work : Work) : f.Grows (f.take work).complete := by
    cases work <;> exact ⟨rfl, fun _ ha => ha, fun _ hstage => List.mem_append_left _ hstage⟩
  unfold execute at hresult
  split at hresult
  · obtain rfl := Except.ok.inj hresult
    exact f.grows_complete
  · obtain ⟨work, -, rfl⟩ := ok_of_map hresult
    exact htake work

theorem grows_commit {σ : Type} (f : Flight) (context : Context σ) : f.Grows (f.commit context).1 :=
  ⟨rfl, fun _ ha => ha, fun _ hstage => List.mem_append_left _ hstage⟩

section

variable {σ : Type} [Storage σ] (f : Flight) (context : Context σ)

theorem address_fetch : (f.fetch context).1.address = some (f.target context.registers) := by
  rcases hread :
    Storage.read context.memory .fetch (f.target context.registers) with ⟨answer, memory⟩
  cases answer with
  | wait => rw [fetch_of_wait hread]
  | done w =>
      rw [fetch_of_done hread]
      rfl

theorem grows_fetch : f.Grows (f.fetch context).1 := by
  have haddress : ∀ a, f.address = some a → (f.fetch context).1.address = some a := by
    intro a ha
    rw [address_fetch, target, ha]
    rfl
  rcases hread :
    Storage.read context.memory .fetch (f.target context.registers) with ⟨answer, memory⟩
  cases answer with
  | wait =>
      rw [fetch_of_wait hread] at haddress ⊢
      exact ⟨rfl, haddress, fun _ hstage => hstage⟩
  | done w =>
      rw [fetch_of_done hread] at haddress ⊢
      exact ⟨rfl, haddress, fun _ hstage => List.mem_append_left _ hstage⟩

theorem grows_access : f.Grows (f.access context).2.1 := by
  unfold access
  split
  · exact f.grows_complete
  · split
    · exact ⟨rfl, fun _ ha => ha, fun _ hstage => hstage⟩
    · exact ⟨rfl, fun _ ha => ha, fun _ hstage => List.mem_append_left _ hstage⟩
    · exact ⟨rfl, fun _ ha => ha, fun _ hstage => hstage⟩

end

end PipelinedProcessor.Flight
