import PipelinedProcessor.Proofs.Pipeline.ServedRequests

namespace PipelinedProcessor

open Flight LiveStorage

-- How many words the action in Memory Access has still to read or to write after this one.
def Slots.todo (slots : Slots) : Nat :=
  ((slots.slot .memory).bind Flight.action).elim 0 Action.todo

theorem Slots.todo_put_fetch (slots : Slots) (flight : Option Flight) :
    (slots.put .fetch flight).todo = slots.todo := rfl

theorem Slots.todo_of_action {slots : Slots} {f : Flight} {action : Action}
    (hf : slots.slot .memory = some f) (haction : f.action = some action) :
    slots.todo = action.todo := by
  rw [todo, hf, Option.bind_some, haction]
  rfl

namespace Pipeline

section

variable {σ : Type} [Storage σ] [LiveStorage σ]

variable {slots : Slots} {f : Flight} {memory after : σ}

-- Memory Access has done some of its accesses, or waits as it did before.
theorem nearer_of_memory (h : Attended slots.asks memory) (hf : slots.slot .memory = some f)
    (hready : f.state = .ready) {action next : Action} (haction : f.action = some action)
    (htries : action.Tries memory .waiting next after) :
    (slots.put .memory (some { f with action := some next })).todo < slots.todo ∨
      (slots.put .memory (some { f with action := some next })).todo = slots.todo ∧
        Waited slots.asks memory (slots.put .memory (some { f with action := some next })).asks
          after .memory := by
  have hslot : (slots.put .memory (some { f with action := some next })).slot .memory =
      some { f with action := some next } := rfl
  obtain ⟨n, middle, access, hserved, hsame, htodo, haccess, hwait⟩ := htries
  rw [Slots.todo_of_action hslot rfl, Slots.todo_of_action hf haction]
  by_cases hzero : n = 0
  · right
    subst hzero
    obtain rfl := hsame rfl
    cases hserved
    refine ⟨rfl, h.of_wait hwait ?_ ?_ ?_⟩
    · rw [slots.asks_put .memory nofun, if_pos rfl, Option.bind_some, asks, if_pos hready]
      exact haccess
    · intro _
      rw [Slots.asks, hf, Option.bind_some, asks, if_pos hready, haction]
      exact haccess
    · intro stage hne
      rw [slots.asks_put .memory nofun, if_neg hne]
  · left
    omega

-- Who is served by memory waits in Fetch or in Memory Access.
theorem ready_of_owner (h : Attended slots.asks memory) {stage : Stage}
    (howner : owner memory = some stage) :
    (stage = .fetch ∨ stage = .memory) ∧ ∃ f, slots.slot stage = some f ∧ f.state = .ready := by
  obtain ⟨access, hasks, -⟩ := h stage howner
  have hspeaks : stage = .fetch ∨ stage = .memory := by
    by_contra hsilent
    rw [slots.asks_of_silent (fun heq => hsilent (.inl heq))
      (fun heq => hsilent (.inr heq))] at hasks
    cases hasks
  rw [Slots.asks, Option.bind_eq_some_iff] at hasks
  obtain ⟨f, hf, hfasks⟩ := hasks
  refine ⟨hspeaks, f, hf, ?_⟩
  by_contra hnot
  rw [asks_of_not_ready hnot] at hfasks
  cases hfasks

theorem owner_cases (h : Attended slots.asks memory) :
    owner memory = none ∨ ∃ stage f, owner memory = some stage ∧
    (stage = .fetch ∨ stage = .memory) ∧
      slots.slot stage = some f ∧ f.state = .ready := by
  cases howner : owner memory with
  | none => exact .inl rfl
  | some stage =>
      obtain ⟨hspeaks, f, hf, hready⟩ := ready_of_owner h howner
      exact .inr ⟨stage, f, rfl, hspeaks, hf, hready⟩

-- Memory Access and Fetch have tried one after the other, and each waits or has nothing to do.
theorem nearer_of_waits {slots₁ slots₂ : Slots} {middle : σ} (h : Attended slots.asks memory)
    (hmemory : (slots₁ = slots ∧ middle = memory ∧ ∀ f, slots.slot .memory = some f →
      f.state ≠ .ready) ∨
      ∃ f action next, slots.slot .memory = some f ∧ f.state = .ready ∧ f.action = some action ∧
        action.Tries memory .waiting next middle ∧
        slots₁ = slots.put .memory (some { f with action := some next }))
    (hfetch : (slots₂ = slots₁ ∧ after = middle ∧ ∀ f, slots₁.slot .fetch = some f →
      f.state ≠ .ready) ∨
      ∃ f registers, slots₁.slot .fetch = some f ∧ f.state = .ready ∧
        Storage.read middle .fetch (f.target registers) = (.wait, after) ∧
        slots₂ = slots₁.put .fetch (some { f with address := some (f.target registers) })) :
    (slots₂ = slots ∧ ∀ stage f, stage = .fetch ∨ stage = .memory → slots.slot stage = some f →
      f.state ≠ .ready) ∨
      slots₂.todo < slots.todo ∨ slots₂.todo = slots.todo ∧
        waitLeft slots₂.asks after < waitLeft slots.asks memory := by
  have howner := owner_cases h
  rcases hmemory with ⟨rfl, rfl, hidle⟩ | ⟨f, action, next, hf, hready, haction, htries, rfl⟩
  · rcases hfetch with ⟨rfl, rfl, hidle'⟩ | ⟨g, registers, hg, hgready, hread, rfl⟩
    · left
      refine ⟨rfl, ?_⟩
      rintro stage f (rfl | rfl)
      · exact hidle' f
      · exact hidle f
    · right
      right
      refine ⟨Slots.todo_put_fetch _ _, (waited_of_fetch h hg hgready hread).lt ?_⟩
      rcases howner with hnone | ⟨stage, f, howner, rfl | rfl, hf, hready⟩
      · exact .inl hnone
      · exact .inr howner
      · exact absurd hready (hidle f hf)
  · right
    rcases hfetch with ⟨rfl, rfl, hidle'⟩ | ⟨g, registers, hg, hgready, hread, rfl⟩
    · rcases nearer_of_memory h hf hready haction htries with hlt | ⟨heq, hwaited⟩
      · exact .inl hlt
      · refine .inr ⟨heq, hwaited.lt ?_⟩
        rcases howner with hnone | ⟨stage, g, howner, rfl | rfl, hg, hgready⟩
        · exact .inl hnone
        · exact absurd hgready (hidle' g hg)
        · exact .inr howner
    · rw [Slots.todo_put_fetch]
      rcases nearer_of_memory h hf hready haction htries with hlt | ⟨heq, hwaited⟩
      · exact .inl hlt
      · have hwaited' := waited_of_fetch hwaited.attended hg hgready hread
        refine .inr ⟨heq, ?_⟩
        rcases howner with hnone | ⟨stage, f', howner, rfl | rfl, -⟩
        · exact Nat.lt_of_le_of_lt hwaited'.le (hwaited.lt (.inl hnone))
        · exact Nat.lt_of_lt_of_le (hwaited'.lt (.inr (hwaited.stays _ howner))) hwaited.le
        · exact Nat.lt_of_le_of_lt hwaited'.le (hwaited.lt (.inr howner))

end

section

variable {σ : Type} [Storage σ] {p worked : Pipeline} {context after : Context σ}

-- The stages one after the other.
theorem work_stages (hwell : WellFormed p) (hwork : p.work context = (none, worked, after)) :
    ∃ committed context' accessed context'' executed,
    p.commitStage context = (committed, context') ∧
      committed.accessStage context' = (none, accessed, context'') ∧
      accessed.executeStage context''.registers context''.vectors = .ok executed ∧
      executed.decodeStage.fetchStage context'' = (worked, after) ∧
      WellFormed accessed ∧ WellFormed executed.decodeStage := by
  have hwell₁ := hwell.commitStage context
  rcases hcommit : p.commitStage context with ⟨committed, context'⟩
  rw [hcommit] at hwell₁
  have hwell₂ := hwell₁.accessStage context'
  rcases haccess : committed.accessStage context' with ⟨fault, accessed, context''⟩
  rw [haccess] at hwell₂
  cases fault with
  | some fault =>
      simp only [Pipeline.work, hcommit, haccess] at hwork
      cases (Prod.mk.inj hwork).1
  | none =>
      cases hexecute : accessed.executeStage context''.registers context''.vectors with
      | error fault =>
          simp only [Pipeline.work, hcommit, haccess, hexecute] at hwork
          cases (Prod.mk.inj hwork).1
      | ok executed =>
          simp only [Pipeline.work, hcommit, haccess, hexecute] at hwork
          exact ⟨committed, context', accessed, context'', executed, rfl, haccess, hexecute,
            (Prod.mk.inj hwork).2, hwell₂, (hwell₂.executeStage hexecute).decodeStage⟩

variable [LiveStorage σ]

theorem work_attended (hwell : WellFormed p) (h : Attended p.slots.asks context.memory)
    (hwork : p.work context = (none, worked, after)) : Attended worked.slots.asks after.memory := by
  obtain ⟨committed, context', accessed, context'', executed, hcommit, haccess,
      hexecute, hfetch, -, hwell'⟩ :=
    work_stages hwell hwork
  have h₁ := commitStage_attended h hcommit
  have h₂ := accessStage_attended h₁ haccess
  have h₃ := decodeStage_attended (executeStage_attended h₂ hexecute)
  exact fetchStage_attended hwell' h₃ hfetch

-- Where the effort does not fall, only Fetch and Memory Access have something to do, and they wait.
theorem work_falls (hwell : WellFormed p) (h : Attended p.slots.asks context.memory)
    (hwork : p.work context = (none, worked, after)) :
    Falls p.effort worked.effort
      ((∀ stage f, worked.slots.slot stage = some f → f.state = .ready →
        stage = .fetch ∨ stage = .memory) ∧
        ((∀ stage f, worked.slots.slot stage = some f → f.state ≠ .ready) ∨
          worked.slots.todo < p.slots.todo ∨ worked.slots.todo = p.slots.todo ∧
            waitLeft worked.slots.asks after.memory < waitLeft p.slots.asks context.memory)) := by
  obtain ⟨committed, context', accessed, context'', executed, hcommit, haccess, hexecute,
      hfetch, hwell₂, hwell₄⟩ :=
    work_stages hwell hwork
  obtain ⟨hle₁, hsame₁⟩ := commitStage_effort hcommit
  obtain ⟨hle₂, hsame₂⟩ := accessStage_effort haccess
  obtain ⟨hle₃, hsame₃⟩ := executeStage_effort hwell₂ hexecute
  obtain ⟨hle₄, hsame₄⟩ := executed.decodeStage_effort
  obtain ⟨hle₅, hsame₅⟩ := fetchStage_effort hwell₄ hfetch
  refine ⟨by omega, fun heffort => ?_⟩
  obtain ⟨rfl, rfl, hidle₁⟩ := hsame₁ (by omega)
  obtain ⟨rfl, hidle₃⟩ := hsame₃ (by omega)
  obtain ⟨hslots₄, hidle₄⟩ := hsame₄ (by omega)
  have hmemory : (executed.slots = committed.slots ∧ context''.memory = context'.memory ∧
        ∀ f, committed.slots.slot .memory = some f → f.state ≠ .ready) ∨
      ∃ f action next, committed.slots.slot .memory = some f ∧ f.state = .ready ∧
      f.action = some action ∧
        action.Tries context'.memory .waiting next context''.memory ∧
        executed.slots = committed.slots.put .memory (some { f with action := some next }) := by
    rcases hsame₂ (by omega) with
      ⟨rfl, rfl, hidle⟩ | ⟨f, action, next, hf, hready, haction, hadvance, hslots⟩
    · exact .inl ⟨rfl, rfl, hidle⟩
    · exact .inr ⟨f, action, next, hf, hready, haction, Action.advance_tries hadvance, hslots⟩
  have hfetched : (worked.slots = executed.slots ∧ after.memory = context''.memory ∧
        ∀ f, executed.slots.slot .fetch = some f → f.state ≠ .ready) ∨
      ∃ f registers, executed.slots.slot .fetch = some f ∧ f.state = .ready ∧
        Storage.read context''.memory .fetch (f.target registers) = (.wait, after.memory) ∧
        worked.slots =
          executed.slots.put .fetch (some { f with address := some (f.target registers) }) := by
    rw [hslots₄] at hsame₅
    rcases hsame₅ (by omega) with ⟨rfl, rfl, hidle⟩ | ⟨f, hf, hready, hread, hslots⟩
    · exact .inl ⟨hslots₄, rfl, hidle⟩
    · exact .inr ⟨f, _, hf, hready, hread, hslots⟩
  have hkept (stage : Stage) (hne : stage ≠ .memory) :
      executed.slots.slot stage = committed.slots.slot stage := by
    rcases hmemory with ⟨hsame, -⟩ | ⟨f, action, next, -, -, -, -, hslots⟩
    · rw [hsame]
    · rw [hslots, Slots.slot_put _ .memory nofun, if_neg hne]
  have hkept' (stage : Stage) (hne : stage ≠ .fetch) :
      worked.slots.slot stage = executed.slots.slot stage := by
    rcases hfetched with ⟨hsame, -⟩ | ⟨f, registers, -, -, -, hslots⟩
    · rw [hsame]
    · rw [hslots, Slots.slot_put _ .fetch nofun, if_neg hne]
  have hothers (stage : Stage) (f : Flight) (hf : worked.slots.slot stage = some f)
      (hready : f.state = .ready) :
      stage = .fetch ∨ stage = .memory := by
    cases stage with
    | fetch => exact .inl rfl
    | memory => exact .inr rfl
    | decode => exact absurd hready (hidle₄ f ((hkept' .decode nofun).symm.trans hf))
    | execute => exact absurd hready (hidle₃ f ((hkept' .execute nofun).symm.trans hf))
    | writeBack =>
        rw [hkept' .writeBack nofun, hkept .writeBack nofun] at hf
        exact absurd hready (hidle₁ f hf)
    | system => cases hf
  refine ⟨hothers, ?_⟩
  rcases nearer_of_waits h hmemory hfetched with ⟨hsame, hidle⟩ | hnearer
  · refine .inl fun stage f hf hready => ?_
    exact hidle stage f (hothers stage f hf hready) (hsame ▸ hf) hready
  · exact .inr hnearer

-- Where nothing is ready and nothing moves, the oldest has nobody to wait for, so that there is
-- none.
omit [Storage σ] [LiveStorage σ] in
theorem WellFormed.flights_eq_nil (h : WellFormed p)
    (hready : ∀ stage f, p.slots.slot stage = some f → f.state ≠ .ready)
    (hunfinished : ∀ f, p.slots.slot .writeBack = some f → f.state ≠ .completed)
    (hblocked : Blocked p.slots) :
    p.slots.flights = [] := by
  have hstalled {stage : Stage} {f : Flight} (hf : p.slots.slot stage = some f)
      (hstate : f.state ≠ .completed) :
      stage = .decode ∧ ∃ g, g ∈ p.slots.older .decode := by
    cases hcase : f.state with
    | ready => exact absurd hcase (hready stage f hf)
    | completed => exact absurd hcase hstate
    | stalled j =>
        obtain ⟨hdecode, -, ⟨g, hg, -⟩, -⟩ := (h.fits hf).stalled j hcase
        obtain rfl : stage = .decode := (h.inPlace stage f hf).symm.trans hdecode
        exact ⟨rfl, g, hg⟩
  have hwriteBack : p.slots.slot .writeBack = none := by
    refine Option.eq_none_iff_forall_ne_some.mpr fun f hf => ?_
    cases (hstalled hf (hunfinished f hf)).1
  have hnext (first second : Stage) (horder : second.order.val = first.order.val + 1)
      (hplace : second ≠ .system)
      (hfree : p.slots.slot second = none) (hdecode : first = .decode →
        p.slots.older .decode = []) :
      p.slots.slot first = none := by
    refine Option.eq_none_iff_forall_ne_some.mpr fun f hf => ?_
    by_cases hstate : f.state = .completed
    · exact hblocked first second f horder hplace hf hstate hfree
    · obtain ⟨hfirst, g, hg⟩ := hstalled hf hstate
      rw [hdecode hfirst] at hg
      cases hg
  have hmemory := hnext .memory .writeBack rfl (by decide) hwriteBack fun heq => by cases heq
  have hexecute := hnext .execute .memory rfl (by decide) hmemory fun heq => by cases heq
  have holder : p.slots.older .decode = [] := by
    rw [Slots.older, show p.slots.execute = none from hexecute,
      show p.slots.memory = none from hmemory, show p.slots.writeBack = none from hwriteBack]
    rfl
  have hdecode := hnext .decode .execute rfl (by decide) hexecute fun _ => holder
  have hfetch := hnext .fetch .decode rfl (by decide) hdecode fun heq => by cases heq
  refine List.eq_nil_iff_forall_not_mem.mpr fun f hf => ?_
  obtain ⟨stage, hslot⟩ := Slots.mem_flights.mp hf
  cases stage <;> simp_all [Slots.slot]

-- Where there is none, the next one comes in.
omit [Storage σ] [LiveStorage σ] in
theorem WellFormed.effort_takeIn_lt (h : WellFormed p) (hhalts : p.haltId = none)
    (hempty : p.slots.flights = []) :
    p.takeIn.effort < p.effort := by
  obtain ⟨hle, hsame⟩ := p.takeIn_effort
  refine Nat.lt_of_le_of_ne hle fun heq => ?_
  have hfree : p.slots.slot .fetch = none := by
    refine Option.eq_none_iff_forall_ne_some.mpr fun f hf => ?_
    have hmem := Slots.mem_flights.mpr ⟨.fetch, hf⟩
    rw [hempty] at hmem
    cases hmem
  have hopen := (hsame heq).2 hhalts hfree
  split at hopen
  · obtain ⟨b, hb⟩ := Option.ne_none_iff_exists'.mp hopen
    obtain ⟨g, hg, -⟩ := h.branch.flying b hb
    rw [hempty] at hg
    cases hg
  · exact hopen hempty

-- What is left of the way to the next retirement.
def distance (p : Pipeline) (memory : σ) : Nat × Nat × Nat :=
  (p.effort, p.slots.todo, waitLeft p.slots.asks memory)

-- A cycle that retires nothing brings the next retirement nearer.
theorem step_nearer (hwell : WellFormed p) (h : Attended p.slots.asks context.memory)
    (hrunning : p.running = true) {p' : Pipeline}
    (hresult : p.step context = (.ok .running, p', after)) :
    Attended p'.slots.asks after.memory ∧ (p'.retired = p.retired →
      WellFoundedRelation.rel (p'.distance after.memory) (p.distance context.memory)) := by
  rcases hwork : p.tick.work context with ⟨fault, worked, context'⟩
  cases fault with
  | some fault =>
      rw [step_of_fault hrunning hwork] at hresult
      cases (Prod.mk.inj hresult).1
  | none =>
      by_cases hend : worked.advance.haltId.isSome ∧ worked.advance.slots.flights = []
      · rw [step_of_end hrunning hwork hend] at hresult
        cases (Prod.mk.inj hresult).1
      · rw [step_of_running hrunning hwork hend] at hresult
        obtain ⟨-, rfl, rfl⟩ := hresult
        have hticked : WellFormed p.tick := hwell.of_counts (p.clock + 1) p.stalls p.running
        have hworked : WellFormed worked := by
          have hwell' := hticked.work context
          rwa [hwork] at hwell'
        have hattended := work_attended hticked h hwork
        refine ⟨takeIn_attended (advance_attended hattended), fun hretired => ?_⟩
        have hkept := (p.tick.work_same context).retired_eq
        rw [hwork] at hkept
        have hretire : worked.retire = worked ∧ ∀ f, worked.slots.slot .writeBack = some f →
            f.state ≠ .completed := by
          rcases worked.retire_cases with hmore | hsame
          · have hafter : worked.advance.takeIn.retired = worked.retire.retired :=
              worked.advance.takeIn_same.retired_eq
            rw [hafter, hmore, show worked.retired = p.retired from hkept] at hretired
            omega
          · exact hsame
        have hadvance : worked.advance = { worked with slots := moveOn worked.slots } := by
          unfold advance
          rw [hretire.1]
        obtain ⟨hle, hsame⟩ := work_falls hticked h hwork
        obtain ⟨hle', hsame'⟩ := moveOn_effort hworked
        obtain ⟨hle'', hsame''⟩ := worked.advance.takeIn_effort
        rw [← hadvance] at hle' hsame'
        have hstart : p.tick.effort = p.effort := rfl
        by_cases hless : worked.advance.takeIn.effort < p.effort
        · exact .left _ _ hless
        · have heffort : worked.advance.takeIn.effort = p.effort := by omega
          obtain ⟨hmoved, hblocked⟩ := hsame' (by omega)
          obtain ⟨htaken, -⟩ := hsame'' (by omega)
          have hslots : worked.advance.slots = worked.slots := by
            rw [hadvance]
            exact hmoved
          rcases (hsame (by omega)).2 with hidle | hnearer
          · exfalso
            have hempty := hworked.flights_eq_nil hidle hretire.2 hblocked
            rw [← hslots] at hempty
            have hhalts : worked.advance.haltId = none :=
              Option.not_isSome_iff_eq_none.mp fun hsome => hend ⟨hsome, hempty⟩
            have hfalls := hworked.advance.effort_takeIn_lt hhalts hempty
            omega
          · rw [distance, distance, heffort, htaken, hslots]
            refine .right _ ?_
            rcases hnearer with hlt | ⟨heq, hlt⟩
            · exact .left _ _ hlt
            · rw [heq]
              exact .right _ hlt

end

end Pipeline

end PipelinedProcessor
