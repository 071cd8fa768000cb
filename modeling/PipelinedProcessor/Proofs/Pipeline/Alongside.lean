import PipelinedProcessor.Proofs.Pipeline.Represents

namespace PipelinedProcessor

namespace Represents

open Pipeline Flight

variable {p p' : Pipeline} {l l' : Ledger} {f f' : Flight} {stage : Stage}

section Work

variable {σ : Type} [Storage σ]

-- What comes of the same work.
structure Agrees (outcome : Option Fault × Pipeline × Context σ)
    (entry : Option Fault × Ledger × Context σ) :
    Prop where
  fault_eq : entry.1 = outcome.1
  context_eq : entry.2.2 = outcome.2.2
  represents : Represents outcome.2.1 entry.2.1

omit [Storage σ] in
theorem Agrees.eq {outcome : Option Fault × Pipeline × Context σ}
    {entry : Option Fault × Ledger × Context σ} (h : Agrees outcome entry) :
    ∃ l, entry = (outcome.1, l, outcome.2.2) ∧ Represents outcome.2.1 l :=
  ⟨entry.2.1, Prod.ext h.fault_eq (Prod.ext rfl h.context_eq), h.represents⟩

variable {context : Context σ}

theorem workAt_of_empty (h : Represents p l) (hf : p.slots.slot stage = none) :
    l.workAt stage context = (none, l, context) := by
  have hnumber := h.slots_eq stage
  rw [hf, Option.map_none] at hnumber
  simp only [Ledger.workAt, hnumber]

theorem workAt_of_slot (h : Represents p l) (hf : p.slots.slot stage = some f) :
    l.workAt stage context =
      Ledger.putBack stage f.id
        (Ledger.process { l with inFlight := l.inFlight.erase f.id } f context) := by
  obtain ⟨hnumber, hlookup⟩ := h.lookup hf
  simp only [Ledger.workAt, hnumber, hlookup]

-- What did not read the word that halts is put back.
omit [Storage σ] in
theorem putBack (h : Represents p l) (hwell : WellFormed p) (hf : p.slots.slot stage = some f)
    (fault : Option Fault) (context : Context σ) (hid : f'.id = f.id)
    (hraw : f'.raw ≠ some Word.halt) (hrun : l'.run = { p' with slots := {} })
    (hslots : p'.slots = p.slots.put stage (some f')) (hnumbers : l'.slots = l.slots)
    (hlookup : l'.inFlight = l.inFlight.erase f.id) :
    Agrees (fault, p', context) (Ledger.putBack stage f.id (fault, f', l', context)) := by
  have hback : Ledger.putBack stage f.id (fault, f', l', context) =
      (fault, { l' with inFlight := l'.inFlight.insert f.id f' }, context) := if_neg hraw
  rw [hback]
  exact ⟨rfl, rfl, h.replace hwell hf hid hrun hslots hnumbers (by rw [hlookup])⟩

theorem workAt_of_completed (h : Represents p l) (hwell : WellFormed p)
    (hf : p.slots.slot stage = some f) (hstate : f.state = .completed) :
    Agrees (none, p, context) (l.workAt stage context) := by
  rw [h.workAt_of_slot hf]
  simp only [Ledger.process, hstate]
  refine h.putBack hwell hf none context rfl (hwell.raw_ne_halt hf) h.run_eq ?_ rfl rfl
  rw [← hf, Slots.put_slot]

theorem workAt_of_idle (h : Represents p l) (hwell : WellFormed p) (hdecode : stage ≠ .decode)
    (hidle : ∀ f, p.slots.slot stage = some f → f.state ≠ .ready) :
    Agrees (none, p, context) (l.workAt stage context) := by
  cases hf : p.slots.slot stage with
  | none =>
      rw [h.workAt_of_empty hf]
      exact ⟨rfl, rfl, h⟩
  | some f =>
      cases hstate : f.state with
      | ready => exact absurd hstate (hidle f hf)
      | stalled id => exact absurd (hwell.decode_of_stalled hf hstate) hdecode
      | completed => exact h.workAt_of_completed hwell hf hstate

theorem commitStage (h : Represents p l) (hwell : WellFormed p) (context : Context σ) :
    Agrees (none, p.commitStage context) (l.workAt .writeBack context) := by
  rcases in_state_or_not (p.slots.slot .writeBack) .ready with ⟨f, hf, hready⟩ | hidle
  · rw [h.workAt_of_slot hf, commitStage_of_ready hf hready]
    simp only [Ledger.process, hready, hwell.inPlace .writeBack f hf]
    have hraw : f.raw ≠ some Word.halt := hwell.raw_ne_halt hf
    exact h.putBack hwell hf none _ rfl hraw h.run_eq rfl rfl rfl
  · rw [commitStage_of_idle hidle]
    exact h.workAt_of_idle hwell (by decide) hidle

theorem accessStage (h : Represents p l) (hwell : WellFormed p) (context : Context σ) :
    Agrees (p.accessStage context) (l.workAt .memory context) := by
  rcases in_state_or_not (p.slots.slot .memory) .ready with ⟨f, hf, hready⟩ | hidle
  · have hraw := f.raw_access context
    obtain ⟨-, hface, -⟩ := (hwell.fits hf).access hready (hwell.inPlace .memory f hf) context
    rcases haccess : f.access context with ⟨fault, f', after⟩
    rw [haccess] at hraw hface
    have hopen : l.openBranch = p.openBranch := congrArg Pipeline.openBranch h.run_eq
    rw [h.workAt_of_slot hf, accessStage_of_ready hf hready haccess]
    simp only [Ledger.process, hready, hwell.inPlace .memory f hf, haccess, Bool.and_eq_true,
      decide_eq_true_eq, hopen]
    refine h.putBack hwell hf fault after hface.id_eq (by rw [hraw]; exact hwell.raw_ne_halt hf) ?_
      rfl rfl rfl
    exact congrArg (fun q : Pipeline => { q with
      openBranch := if f'.state = FlightState.completed ∧ p.openBranch = some f'.id
        then none else p.openBranch })
      h.run_eq
  · rw [accessStage_of_idle hidle]
    exact h.workAt_of_idle hwell (by decide) hidle

theorem executeStage (h : Represents p l) (hwell : WellFormed p) (context : Context σ) :
    match p.executeStage context.registers context.vectors with
    | .error fault => Agrees (some fault, p, context) (l.workAt .execute context)
    | .ok p' => Agrees (none, p', context) (l.workAt .execute context) := by
  rcases in_state_or_not (p.slots.slot .execute) .ready with ⟨f, hf, hready⟩ | hidle
  · rw [h.workAt_of_slot hf, executeStage_of_ready hf hready]
    simp only [Ledger.process, hready, hwell.inPlace .execute f hf]
    cases hexecute : f.execute context.registers context.vectors with
    | error fault =>
        refine h.putBack hwell hf (some fault) context rfl (hwell.raw_ne_halt hf)
          h.run_eq ?_ rfl rfl
        rw [← hf, Slots.put_slot]
    | ok f' =>
        obtain ⟨-, hface, hraw, -⟩ :=
          (hwell.fits hf).execute hready (hwell.inPlace .execute f hf) hexecute
        exact h.putBack hwell hf none context hface.id_eq (hraw ▸ hwell.raw_ne_halt hf)
          h.run_eq rfl rfl rfl
  · rw [executeStage_of_idle hidle]
    exact h.workAt_of_idle hwell (by decide) hidle

theorem decodeStage (h : Represents p l) (hwell : WellFormed p) (context : Context σ) :
    Agrees (none, p.decodeStage, context) (l.workAt .decode context) := by
  cases hf : p.slots.slot .decode with
  | none =>
      rw [h.workAt_of_empty hf, decodeStage_of_empty hf]
      exact ⟨rfl, rfl, h⟩
  | some f =>
      cases hstate : f.state with
      | ready =>
          rw [h.workAt_of_slot hf, decodeStage_of_ready hf hstate]
          simp only [Ledger.process, hstate, hwell.inPlace .decode f hf]
          rw [f.decode_congr h.mem_flights_erase]
          obtain ⟨hid, -, hraw⟩ := f.decode_same p.slots.flights
          exact h.putBack hwell hf none context hid (hraw ▸ hwell.raw_ne_halt hf)
            h.run_eq rfl rfl rfl
      | stalled id =>
          rw [h.workAt_of_slot hf, decodeStage_of_stalled hf hstate]
          simp only [Ledger.process, hstate]
          refine h.putBack hwell hf none context rfl (hwell.raw_ne_halt hf)
            (congrArg (fun q : Pipeline => { q with stalls := q.stalls + 1 }) h.run_eq) ?_ rfl rfl
          show p.slots = _
          rw [← hf, Slots.put_slot]
      | completed =>
          rw [decodeStage_of_completed hf hstate]
          exact h.workAt_of_completed hwell hf hstate

theorem fetchStage (h : Represents p l) (hwell : WellFormed p) (context : Context σ) :
    Agrees (none, p.fetchStage context) (l.workAt .fetch context) := by
  rcases in_state_or_not (p.slots.slot .fetch) .ready with ⟨f, hf, hready⟩ | hidle
  · rw [h.workAt_of_slot hf]
    have hprogress : f.progress = 0 := hwell.progress_of_ready hf hready
    have hblank := (hwell.fits hf).blank hprogress
    have hopen : l.openBranch = p.openBranch := congrArg Pipeline.openBranch h.run_eq
    simp only [Ledger.process, hready, hwell.inPlace .fetch f hf]
    rcases hread :
      Storage.read context.memory .fetch (f.target context.registers) with ⟨answer, memory⟩
    cases answer with
    | wait =>
        rw [fetchStage_of_wait hf hready hblank hread, fetch_of_wait hread]
        have hraw : f.raw ≠ some Word.halt := hwell.raw_ne_halt hf
        refine h.putBack hwell hf none _ rfl hraw ?_ rfl rfl rfl
        simp only [hready, reduceCtorEq, decide_false, Bool.false_and, Bool.false_eq_true, if_false]
        exact h.run_eq
    | done w =>
        by_cases hhalt : w = Word.halt
        · subst hhalt
          rw [fetchStage_of_halt hf hready hread, fetch_of_done hread]
          refine ⟨rfl, rfl, h.remove hwell hf ?_ rfl rfl rfl⟩
          exact congrArg (fun q : Pipeline => { q with haltId := some f.id }) h.run_eq
        · have hraw : some w ≠ some Word.halt := fun heq => hhalt (Option.some.inj heq)
          rw [fetchStage_of_word hf hready hhalt hread, fetch_of_done hread, if_neg hhalt]
          refine h.putBack hwell hf none _ rfl hraw ?_ rfl rfl rfl
          simp only [complete, decide_true, Bool.true_and, Option.any_some,
            decide_eq_true_eq, hopen]
          exact congrArg (fun q : Pipeline => { q with
            openBranch := if w.kind = Word.branchKind then some f.id else p.openBranch }) h.run_eq
  · rw [fetchStage_of_idle hidle]
    exact h.workAt_of_idle hwell (by decide) hidle

theorem work (h : Represents p l) (hwell : WellFormed p) (context : Context σ) :
    Agrees (p.work context) (l.work context) := by
  have hcommitted := hwell.commitStage context
  obtain ⟨l₁, hfirst, h₁⟩ := (h.commitStage hwell context).eq
  rcases hcommit : p.commitStage context with ⟨committed, context'⟩
  rw [hcommit] at hcommitted hfirst h₁
  have haccessed := hcommitted.accessStage context'
  obtain ⟨l₂, hsecond, h₂⟩ := (h₁.accessStage hcommitted context').eq
  rcases haccess : committed.accessStage context' with ⟨fault, accessed, context''⟩
  rw [haccess] at haccessed hsecond h₂
  have hexecuted := h₂.executeStage haccessed context''
  show Agrees (p.work context)
    (Ledger.workFrom [.writeBack, .memory, .execute, .decode, .fetch] l context)
  cases fault with
  | some fault =>
      simp only [Pipeline.work, hcommit, haccess, Ledger.workFrom, hfirst, hsecond]
      exact ⟨rfl, rfl, h₂⟩
  | none =>
      cases hexecute : accessed.executeStage context''.registers context''.vectors with
      | error fault =>
          rw [hexecute] at hexecuted
          obtain ⟨l₃, hthird, h₃⟩ := hexecuted.eq
          simp only [Pipeline.work, hcommit, haccess, hexecute, Ledger.workFrom,
            hfirst, hsecond, hthird]
          exact ⟨rfl, rfl, h₃⟩
      | ok executed =>
          rw [hexecute] at hexecuted
          obtain ⟨l₃, hthird, h₃⟩ := hexecuted.eq
          have hready := haccessed.executeStage hexecute
          obtain ⟨l₄, hfourth, h₄⟩ := (h₃.decodeStage hready context'').eq
          obtain ⟨l₅, hfifth, h₅⟩ := (h₄.fetchStage hready.decodeStage context'').eq
          simp only [Pipeline.work, hcommit, haccess, hexecute, Ledger.workFrom, hfirst, hsecond,
            hthird, hfourth, hfifth]
          exact ⟨rfl, rfl, h₅⟩

-- Step for step, with the same answers.
theorem step (h : Represents p l) (hwell : WellFormed p) (context : Context σ) :
    Represents (p.step context).2.1 (l.step context).2.1 ∧ (l.step context).1 = (p.step context).1 ∧
      (l.step context).2.2 = (p.step context).2.2 := by
  have hrunning : l.running = p.running := congrArg Pipeline.running h.run_eq
  by_cases hruns : p.running = true
  · have hticked : Represents p.tick l.tick :=
      ⟨congrArg (fun q : Pipeline => { q with clock := q.clock + 1 }) h.run_eq,
        h.slots_eq, h.flight_iff⟩
    have hwell' : WellFormed p.tick := hwell.of_counts (p.clock + 1) p.stalls p.running
    have hworked := hwell'.work context
    obtain ⟨l₁, hledger, h₁⟩ := (hticked.work hwell' context).eq
    rcases hwork : p.tick.work context with ⟨fault, worked, after⟩
    rw [hwork] at hworked hledger h₁
    cases fault with
    | some fault =>
        have hstep : l.step context = (.error fault, { l₁ with running := false }, after) := by
          simp only [Ledger.step, hrunning, hruns, if_true, hledger]
        rw [step_of_fault hruns hwork, hstep]
        exact ⟨⟨congrArg (fun q : Pipeline => { q with running := false }) h₁.run_eq,
          h₁.slots_eq, h₁.flight_iff⟩, rfl, rfl⟩
    | none =>
        have h₂ := h₁.advance hworked
        have hhalts : l₁.advance.haltId = worked.advance.haltId :=
          congrArg Pipeline.haltId h₂.run_eq
        have hlast : (l₁.advance.haltId.isSome && l₁.advance.inFlight.isEmpty) = true ↔
            worked.advance.haltId.isSome ∧ worked.advance.slots.flights = [] := by
          rw [hhalts, h₂.isEmpty_eq, Bool.and_eq_true, Slots.isEmpty, List.isEmpty_iff]
        by_cases hend : worked.advance.haltId.isSome ∧ worked.advance.slots.flights = []
        · have hstep :
              l.step context = (.ok .halted, { l₁.advance with running := false }, after) := by
            simp only [Ledger.step, hrunning, hruns, if_true, hledger, if_pos (hlast.mpr hend)]
          rw [step_of_end hruns hwork hend, hstep]
          exact ⟨⟨congrArg (fun q : Pipeline => { q with running := false }) h₂.run_eq,
            h₂.slots_eq, h₂.flight_iff⟩, rfl, rfl⟩
        · have hstep : l.step context = (.ok .running, l₁.advance.takeIn, after) := by
            simp only [Ledger.step, hrunning, hruns, if_true, hledger, if_neg (mt hlast.mp hend)]
          rw [step_of_running hruns hwork hend, hstep]
          exact ⟨h₂.takeIn hworked.advance, rfl, rfl⟩
  · have hstays : p.step context = (.ok .idle, p, context) := if_neg hruns
    have hidle : l.step context = (.ok .idle, l, context) := if_neg (by rw [hrunning]; exact hruns)
    rw [hstays, hidle]
    exact ⟨h, rfl, rfl⟩

end Work

end Represents

-- A pipeline and a ledger that begin the same way and go through the same cycles.
inductive Alongside (σ : Type) [Storage σ] : Pipeline → Ledger → Prop where
  | start (pipelined : Bool) : Alongside σ (.start pipelined) (.start pipelined)
  | step {p : Pipeline} {l : Ledger} (h : Alongside σ p l) (context : Context σ) :
      Alongside σ (p.step context).2.1 (l.step context).2.1

namespace Alongside

variable {σ : Type} [Storage σ] {p : Pipeline} {l : Ledger}

theorem reachable (h : Alongside σ p l) : Pipeline.Reachable σ p := by
  induction h with
  | start pipelined => exact .start pipelined
  | step _ context ih => exact ih.step context

theorem represents (h : Alongside σ p l) : Represents p l := by
  induction h with
  | start pipelined =>
      have hempty : Represents { running := true, pipelined := pipelined }
          { running := true, pipelined := pipelined } := by
        refine ⟨rfl, ?_, ?_⟩
        · intro stage
          cases stage <;> rfl
        · intro id f
          rw [Std.TreeMap.getElem?_emptyc]
          constructor
          · intro hf
            cases hf
          · rintro ⟨-, stage, hf⟩
            cases stage <;> cases hf
      exact hempty.takeIn (Pipeline.wellFormed_empty pipelined)
  | step h context ih => exact (ih.step h.reachable.wellFormed context).1

end Alongside

end PipelinedProcessor
