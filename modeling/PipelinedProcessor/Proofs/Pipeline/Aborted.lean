import PipelinedProcessor.Proofs.Pipeline.Accountable
import PipelinedProcessor.Proofs.Pipeline.Attempts
import PipelinedProcessor.Proofs.Pipeline.Counts
import PipelinedProcessor.Proofs.Pipeline.InOrder
import PipelinedProcessor.Proofs.Pipeline.Transfer

namespace PipelinedProcessor

open Flight

-- A memory that takes note of who asks to write to it, and what.
structure Noted (σ : Type) where
  memory : σ
  writes : List (Stage × Access)

namespace Noted

variable {σ : Type}

def blank (memory : σ) : Noted σ := ⟨memory, []⟩

variable [Storage σ]

instance : Storage (Noted σ) where
  read s issuer address :=
    ((Storage.read s.memory issuer address).1, ⟨(Storage.read s.memory issuer address).2, s.writes⟩)
  store s issuer address w :=
    ((Storage.store s.memory issuer address w).1,
      ⟨(Storage.store s.memory issuer address w).2, s.writes ++ [(issuer, .store address w)]⟩)
  writePartial s issuer address data :=
    ((Storage.writePartial s.memory issuer address data).1,
      ⟨(Storage.writePartial s.memory issuer address data).2,
        s.writes ++ [(issuer, .writePartial address data)]⟩)

-- Otherwise it is the memory that it was.
theorem standsFor : Storage.StandsFor (memory : Noted σ → σ) where
  read _ _ _ := rfl
  store _ _ _ _ := rfl
  writePartial _ _ _ _ := rfl

end Noted

-- What does not act from Memory Access leaves the registers alone and only reads.

section

variable {σ : Type} [Storage σ]

theorem Noted.writes_read {memory after : Noted σ} {issuer : Stage} {address : Nat}
    {answer : Poll Word} (hread : Storage.read memory issuer address = (answer, after)) :
    after.writes = memory.writes :=
  congrArg (fun result : Poll Word × Noted σ => result.2.writes) hread.symm

namespace Action

omit [Storage σ] in
theorem reads_of_quiet {action : Action} {access : Access} (h : ¬action.Acts)
    (haccess : action.access? = some access) :
    ∃ address, access = .read address := by
  cases action with
  | scalar op rd swapped flags first second =>
      cases first with
      | deref address => exact ⟨address, (Option.some.inj haccess).symm⟩
      | value a =>
          cases second with
          | deref address => exact ⟨address, (Option.some.inj haccess).symm⟩
          | value b => cases haccess
  | load rd address => exact ⟨address, (Option.some.inj haccess).symm⟩
  | vectorLoad vd base length loaded =>
      exact ⟨_, (Option.some.inj (Option.ite_none_right_eq_some.mp haccess).2).symm⟩
  | store address w => exact absurd trivial h
  | vectorStore base data written => exact absurd trivial h
  | branch cond target back => exact absurd trivial h

theorem writes_of_goes {action next : Action} {memory after : Noted σ} {progress : Progress}
    (hquiet : ¬action.Acts) (h : action.Goes memory progress next after) :
    after.writes = memory.writes := by
  induction h with
  | ends hends =>
      cases hends with
      | waits haccess hwait =>
          obtain ⟨address, rfl⟩ := reads_of_quiet hquiet haccess
          exact congrArg (fun result : Bool × Noted σ => result.2.writes) hwait.symm
      | loaded hread => exact Noted.writes_read hread
      | calculated | failed | allLoaded => rfl
      | stored | allWritten | stuck | branch => exact absurd trivial hquiet
  | moves hmove _ ih =>
      cases hmove with
      | first hread | second hread | loaded _ hread => exact (ih id).trans (Noted.writes_read hread)
      | written => exact absurd trivial hquiet

theorem writes_advance {action : Action} (h : ¬action.Acts) (context : Context (Noted σ)) :
    (action.advance context).2.2.memory.writes = context.memory.writes := by
  rcases hadvance : action.advance context with ⟨progress, next, after⟩
  cases tried_of_advance hadvance with
  | jumps | stays => exact absurd trivial h
  | goes _ hgoes => exact writes_of_goes h hgoes

theorem registers_advance_of_quiet {action : Action} (h : ¬action.Acts) (context : Context σ) :
    (action.advance context).2.2.registers = context.registers := by
  obtain ⟨registers, vectors, memory⟩ := context
  cases action with
  | branch cond target back => exact absurd trivial h
  | _ => rfl

end Action

-- Nothing that the flight does from Memory Access can be seen from outside.
def Flight.Quiet (f : Flight) : Prop := ∀ action, f.action = some action → ¬action.Acts

theorem Flight.Quiet.registers_access {f : Flight} (h : f.Quiet) (context : Context σ) :
    (f.access context).2.2.registers = context.registers := by
  rw [context_access]
  cases haction : f.action with
  | none => rfl
  | some action => exact Action.registers_advance_of_quiet (h action haction) context

theorem Flight.Quiet.writes_access {f : Flight} (h : f.Quiet) (context : Context (Noted σ)) :
    (f.access context).2.2.memory.writes = context.memory.writes := by
  rw [context_access]
  cases haction : f.action with
  | none => rfl
  | some action => exact Action.writes_advance (h action haction) context

theorem Flight.writes_fetch (f : Flight) (context : Context (Noted σ)) :
    (f.fetch context).2.memory.writes = context.memory.writes := by
  obtain ⟨registers, vectors, memory⟩ := context
  have hread : (Storage.read memory .fetch (f.address.getD registers.counter)).2.writes =
      memory.writes := rfl
  rw [fetch]
  split
  · rename_i after hwait
    rwa [hwait] at hread
  · rename_i w after hdone
    rwa [hdone] at hread

namespace Pipeline

-- What a cycle asks memory to write.
def writes (p : Pipeline) (context : Context σ) : List (Stage × Access) :=
  (p.step (context.on Noted.blank)).2.2.memory.writes

-- That it is noted makes no difference to the cycle.
theorem step_on_blank (p : Pipeline) (context : Context σ) :
    p.step context = ((p.step (context.on Noted.blank)).1, (p.step (context.on Noted.blank)).2.1,
      (p.step (context.on Noted.blank)).2.2.on Noted.memory) :=
  p.step_on Noted.standsFor (context.on Noted.blank)

-- Nobody but Memory Access writes.
theorem issuer_of_writes {p : Pipeline} {context : Context σ} {entry : Stage × Access}
    (hentry : entry ∈ p.writes context) : entry.1 = .memory := by
  have hkept : KeptByTries fun memory : Noted σ => ∀ entry ∈ memory.writes, entry.1 = .memory := by
    refine ⟨fun memory access h entry hentry => ?_, fun memory address h => h⟩
    cases access with
    | read address => exact h entry hentry
    | store address w =>
        rcases List.mem_append.mp hentry with hbefore | hlast
        · exact h entry hbefore
        · exact congrArg Prod.fst (List.mem_singleton.mp hlast)
    | writePartial address data =>
        rcases List.mem_append.mp hentry with hbefore | hlast
        · exact h entry hbefore
        · exact congrArg Prod.fst (List.mem_singleton.mp hlast)
  exact step_keeps hkept p (context.on Noted.blank) (fun _ hnone => nomatch hnone) entry hentry

-- Behind Memory Access there is nobody else to write.
theorem writes_keptBehind (writes : List (Stage × Access)) :
    KeptBehind fun _ (context : Context (Noted σ)) => context.memory.writes = writes where
  counts _ _ _ h := h
  executeStage h _ := h
  decodeStage _ h := h
  fetchStage {p context} h := by
    rcases in_state_or_not (p.slots.slot .fetch) .ready with ⟨f, hf, hready⟩ | hidle
    · have hfetch := (f.writes_fetch context).trans h
      unfold fetchStage
      split
      · exact h
      · rename_i g hg
        obtain rfl := Option.some.inj (hf.symm.trans hg)
        rw [if_pos hready]
        dsimp only
        split <;> exact hfetch
    · rw [fetchStage_of_idle hidle]
      exact h
  advance _ h := h
  takeIn _ h := h

theorem writes_of_quiet {p : Pipeline} (context : Context σ)
    (hquiet : ∀ f, p.slots.slot .memory = some f → f.Quiet) : p.writes context = [] := by
  by_cases hrunning : p.running = true
  · refine (writes_keptBehind []).step_of_accessed hrunning ?_
    have hcommitted : (p.tick.commitStage (context.on Noted.blank)).2.memory.writes = [] := by
      rw [memory_commitStage]
      rfl
    rw [accessed]
    rcases in_state_or_not ((p.tick.commitStage (context.on Noted.blank)).1.slots.slot .memory)
      .ready with
      ⟨f, hf, hready⟩ | hidle
    · have hslot :=
        ((p.tick.commitStage_works (context.on Noted.blank)).slot_eq .memory (by decide)).symm.trans
          hf
      have hwrites := (hquiet f hslot).writes_access (p.tick.commitStage (context.on Noted.blank)).2
      rcases haccess :
        f.access (p.tick.commitStage (context.on Noted.blank)).2 with ⟨fault, f', after⟩
      rw [accessStage_of_ready hf hready haccess]
      rw [haccess] at hwrites
      exact hwrites.trans hcommitted
    · rw [accessStage_of_idle hidle]
      exact hcommitted
  · rw [writes, step_of_stopped (Bool.eq_false_iff.mpr hrunning)]
    rfl

section

variable (pipelined : Bool) (context : Context σ)

theorem upheld_runFor {start : Nat} {Q : Flight → Prop} (hlasting : Lasting σ start Q) {m n : Nat}
    (hle : m ≤ n) (h : Upheld start Q (runFor pipelined context m).1) :
    Upheld start Q (runFor pipelined context n).1 := by
  induction hle with
  | refl => exact h
  | step hle ih => exact hlasting.kept.step ih

theorem accountable_runFor (n : Nat) : Upheld 0 Accountable (runFor pipelined context n).1 :=
  upheld_runFor pipelined context (lasting_accountable σ) (Nat.zero_le n)
    (upheld_accountable_start pipelined)

variable {pipelined context}

omit [Storage σ] in
theorem WellFormed.lt_nextId {p : Pipeline} (h : WellFormed p) {stage : Stage} {f : Flight}
    (hf : p.slots.slot stage = some f) : f.id < p.nextId := by
  have hbounds := h.row.id_bounds (Slots.mem_flights.mpr ⟨stage, hf⟩)
  have hcount := h.nextId_eq
  omega

omit [Storage σ] in
-- All before an instruction in Memory Access have left that behind, and it has left Execute with
-- them.
theorem WellFormed.done_of_memory {p : Pipeline} (h : WellFormed p) {stage : Stage} {f g : Flight}
    (hg : p.slots.slot .memory = some g) (hf : p.slots.slot stage = some f) :
    (f.id ≤ g.id → .execute ∈ f.stagesDone) ∧ (f.id < g.id → .memory ∈ f.stagesDone) := by
  have hprogress : 6 ≤ g.progress := (h.progress_bounds hg).1
  have hfits := h.fits hf
  constructor
  · intro hle
    have hpassed := (h.lt_passed_iff hg .execute).mpr (show 4 < g.progress by omega)
    exact (hfits.done_iff .execute nofun).mpr ((h.lt_passed_iff hf .execute).mp (by omega))
  · intro hlt
    refine (hfits.done_iff .memory nofun).mpr ((h.lt_passed_iff hf .memory).mp ?_)
    by_cases hstate : g.state = .completed
    · have hlast : 6 < g.progress := by
        rw [h.progress_of_completed hg hstate]
        decide
      have hpassed := (h.lt_accessed_iff hg).mpr hlast
      omega
    · rw [h.passed_eq hg hstate]
      exact hlt

-- Whoever has come to Memory Access has nobody before it in Execute later on, and nobody else in
-- Memory Access.
theorem same_of_later {m n : Nat} (hle : m ≤ n) {stage : Stage} {f g : Flight}
    (hg : (runFor pipelined context m).1.slots.slot .memory = some g)
    (hf : (runFor pipelined context n).1.slots.slot stage = some f)
    (hstage : stage = .memory ∨ stage = .execute) (hready : f.state = .ready) (hid : f.id ≤ g.id) :
    stage = .memory ∧ f.id = g.id := by
  have hwell := (runFor_invariant pipelined context m).1
  have hwell' := (runFor_invariant pipelined context n).1
  have hprogress := hwell'.inPlace stage f hf
  have hfits := hwell'.fits hf
  have hnext := hwell.lt_nextId hg
  have hexecuted := upheld_runFor pipelined context (lasting_done .execute g.id) hle
    ⟨hwell, hnext, fun _ _ hslot => (hwell.done_of_memory hg hslot).1⟩
  have hlate := (hfits.done_iff .execute nofun).mp (hexecuted.each stage f hf hid)
  obtain rfl : stage = .memory := by
    refine hstage.resolve_right ?_
    rintro rfl
    rw [progress_of_ready hready hprogress] at hlate
    exact absurd hlate (Nat.lt_irrefl _)
  refine ⟨rfl, Nat.le_antisymm hid ?_⟩
  by_contra hlt
  obtain ⟨b, hb⟩ : ∃ b, g.id = b + 1 := ⟨g.id - 1, by omega⟩
  have haccessed := upheld_runFor pipelined context (lasting_done .memory b) hle
    ⟨hwell, by omega, fun _ _ hslot hold => (hwell.done_of_memory hg hslot).2 (by omega)⟩
  have hpassed := (hfits.done_iff .memory nofun).mp (haccessed.each .memory f hf (by omega))
  rw [progress_of_ready hready hprogress] at hpassed
  exact absurd hpassed (Nat.lt_irrefl _)

omit [Storage σ] in
theorem WellFormed.known_of_memory {p : Pipeline} (h : WellFormed p) {g : Flight}
    (hg : p.slots.slot .memory = some g) :
    ∃ w, g.raw = some w ∧ g.instr = some (Instruction.ofWord w) := by
  have hprogress : 6 ≤ g.progress := (h.progress_bounds hg).1
  obtain ⟨⟨w, hw, hinstr, -⟩, -⟩ := (h.fits hg).settled (by omega)
  exact ⟨w, hw, hinstr⟩

variable {n : Nat} {cause : Fault} {f : Flight}

-- Before the cycle that fails, and in it, nobody from the instruction on that fails has done
-- anything in Memory Access that could be seen.
theorem quiet_of_raises (hadvances : Storage.Advances σ)
    (hraises : (runFor pipelined context n).1.Raises (runFor pipelined context n).2 cause f)
    {m : Nat} (hle : m ≤ n) {g : Flight} (hg : (runFor pipelined context m).1.slots.slot .memory =
      some g) (hid : f.id ≤ g.id) : g.Quiet := by
  have hbefore := accountable_runFor pipelined context m
  have hafter := accountable_runFor pipelined context n
  intro action haction hacts
  obtain ⟨instr, hinstr, hof⟩ := (hbefore.each .memory g hg).action action haction
  have hnone := hof.none_of_acts hacts
  cases hraises with
  | execute hf hready =>
      have hmemory := (same_of_later hle hg hf (.inr rfl) hready hid).1
      cases hmemory
  | access hf hready hfault =>
      obtain ⟨-, hsame⟩ := same_of_later hle hg hf (.inl rfl) hready hid
      obtain ⟨w, hw, hword⟩ := hbefore.wellFormed.known_of_memory hg
      have hraw := upheld_runFor pipelined context (lasting_raw g.id w) hle
        ⟨hbefore.wellFormed, hbefore.wellFormed.lt_nextId hg, fun stage f' hf' heq => by
          obtain rfl := hbefore.wellFormed.stage_of_id hg hf' heq
          exact (Option.some.inj (hf'.symm.trans hg)) ▸ hw⟩
      obtain ⟨w', hw', hword'⟩ := hafter.wellFormed.known_of_memory hf
      obtain rfl := Option.some.inj (hw'.symm.trans (hraw.each .memory f hf hsame))
      obtain rfl := Option.some.inj (hinstr.symm.trans hword)
      obtain ⟨instr', op, -, -, -, -, -, hinstr', hop, -⟩ :=
        (hafter.each .memory f hf).results_of_fault hadvances hfault
      obtain rfl := Option.some.inj (hinstr'.symm.trans hword')
      rw [hnone] at hop
      cases hop

omit [Storage σ] in
theorem slot_of_committing {p : Pipeline} {g : Flight} (hg : g ∈ p.committing) :
    p.slots.slot .writeBack = some g := by
  unfold committing at hg
  split at hg
  · exact Option.mem_toList.mp (List.mem_filter.mp hg).1
  · cases hg

-- What is committed in the cycle that fails is older than what it fails with.
theorem lt_of_committing {p : Pipeline} (h : WellFormed p) {context : Context σ}
    (hraises : p.Raises context cause f) {g : Flight} (hg : g ∈ p.committing) : g.id < f.id := by
  have hlast := slot_of_committing hg
  obtain ⟨stage, hstage, hslot, hready⟩ := hraises.slot
  have hlate : 8 ≤ g.progress := (h.progress_bounds hlast).1
  have hprogress : f.progress ≤ 6 := by
    rw [h.progress_of_ready hslot hready]
    rcases hstage with rfl | rfl <;> decide
  have hbefore := (h.lt_accessed_iff hlast).mpr (by omega)
  have hbehind := mt (h.lt_accessed_iff hslot).mp (by omega)
  omega

variable (pipelined context n f)

-- A run in which nothing from an instruction on has been done, when the cycle after so many is
-- over.
structure Aborted : Prop where
  -- what has retired is older, and so is what was committed
  retired : ∀ id ∈ left pipelined context (n + 1), id < f.id
  committed : ∀ id ∈ committedIds pipelined context (n + 1), id < f.id
  -- which is all that was done to the registers, but for the counter
  effect : ∀ m ≤ n,
    ((runFor pipelined context m).1.committed (runFor pipelined context m).2).KeepsRegisters
    (runFor pipelined context (m + 1)).2
  -- all that memory was asked to write was asked for in Memory Access by who is older, and so is
  -- whoever has set the counter
  written : ∀ m ≤ n, ∀ entry ∈ (runFor pipelined context m).1.writes (runFor pipelined context m).2,
    entry.1 = .memory ∧ ∃ g, (runFor pipelined context m).1.slots.slot .memory = some g ∧
    g.id < f.id
  steered : ∀ m ≤ n, ∀ g, (runFor pipelined context m).1.slots.slot .memory = some g → f.id ≤ g.id →
    ∀ other : Context σ, (g.access other).2.2.registers = other.registers
  -- nothing more happens
  idle : ∀ count, answerAt pipelined context (n + 1 + count) = .ok .idle ∧
    runFor pipelined context (n + 1 + count) = runFor pipelined context (n + 1)

variable {pipelined context n f}

theorem over_of_fault (h : answerAt pipelined context n = .error cause) (count : Nat) :
    answerAt pipelined context (n + 1 + count) = .ok .idle ∧
      runFor pipelined context (n + 1 + count) = runFor pipelined context (n + 1) := by
  have hstopped : (runFor pipelined context (n + 1)).1.running = false :=
    stopped_of_step (running_of_answer pipelined context (by rw [h]; nofun)) (Prod.ext h rfl) nofun
  have hsame : runFor pipelined context (n + 1 + count) = runFor pipelined context (n + 1) := by
    induction count with
    | zero => rfl
    | succ count ih =>
        rw [← Nat.add_assoc, runFor, ih, step_of_stopped hstopped]
  exact ⟨by rw [answerAt, hsame, step_of_stopped hstopped], hsame⟩

-- A fault leaves nothing behind of the instruction that fails, nor of any after it. There is such
-- an instruction; all that was ever committed, written or retired is of older ones; and the run is
-- over.
theorem aborted_of_fault (hadvances : Storage.Advances σ)
    (h : answerAt pipelined context n = .error cause) :
    (∃ f, (runFor pipelined context n).1.Raises (runFor pipelined context n).2 cause f) ∧
      ∀ f, (runFor pipelined context n).1.Raises (runFor pipelined context n).2 cause f →
        Aborted pipelined context n f := by
  refine ⟨(raises_of_step h).2, ?_⟩
  intro f hraises
  have hwell := (runFor_invariant pipelined context n).1
  obtain ⟨stage, -, hslot, -⟩ := hraises.slot
  have hretired := hwell.row.id_bounds (Slots.mem_flights.mpr ⟨stage, hslot⟩)
  have hquiet : ∀ m ≤ n, ∀ g, (runFor pipelined context m).1.slots.slot .memory = some g →
      f.id ≤ g.id → g.Quiet :=
    fun m hm g hg hid => quiet_of_raises hadvances hraises hm hg hid
  refine ⟨?_, ?_, fun m _ => (cycled_runFor pipelined context m).keeps, ?_, ?_, over_of_fault h⟩
  · intro id hid
    have hsame := (cycled_runFor pipelined context n).retired_of_error cause h
    rw [left_eq, List.mem_range] at hid
    omega
  · intro id hid
    rw [committedIds_succ, List.mem_append] at hid
    rcases hid with hearlier | hnow
    · obtain ⟨count, hcount, rfl | ⟨-, hstopped, -⟩⟩ := committedIds_eq pipelined context n
      · rw [hcount, List.mem_range] at hearlier
        omega
      · rw [(raises_of_step h).1] at hstopped
        cases hstopped
    · obtain ⟨g, hg, rfl⟩ := List.mem_map.mp hnow
      exact lt_of_committing hwell hraises hg
  · intro m hm entry hentry
    refine ⟨issuer_of_writes hentry, ?_⟩
    by_contra hnone
    have hwrites := writes_of_quiet (runFor pipelined context m).2 fun g hg => hquiet m hm g hg (by
      by_contra hlt
      exact hnone ⟨g, hg, by omega⟩)
    rw [hwrites] at hentry
    cases hentry
  · intro m hm g hg hid other
    exact (hquiet m hm g hg hid).registers_access other

-- A division by zero of a word that was stored just before.
theorem aborted_of_store :
    let memory := [Instruction.transferImmediate .load 1 7, .transferImmediate .store 1 9,
      .scalarImmediate true .divide 2 1 0].zipIdx.foldl
      (fun memory instr => memory.put instr.2 instr.1.encode)
        (MainMemory.zeroed 2 1 (by decide))
    answerAt true ⟨{}, .empty 1 1, memory⟩ 12 = .error (.divisionByZero 9) ∧
      ∃ f, (runFor true ⟨{}, .empty 1 1, memory⟩ 12).1.Raises
        (runFor true ⟨{}, .empty 1 1, memory⟩ 12).2
        (.divisionByZero 9) f ∧ Aborted true ⟨{}, .empty 1 1, memory⟩ 12 f := by
  intro memory
  have hanswer : answerAt true ⟨{}, .empty 1 1, memory⟩ 12 = .error (.divisionByZero 9) := by
    decide +kernel
  obtain ⟨⟨f, hraises⟩, haborted⟩ := aborted_of_fault MainMemory.advances hanswer
  exact ⟨hanswer, f, hraises, haborted f hraises⟩

end

end Pipeline

end

end PipelinedProcessor
