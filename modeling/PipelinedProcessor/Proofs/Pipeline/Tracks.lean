import PipelinedProcessor.Proofs.Flight.Follows
import PipelinedProcessor.Proofs.Pipeline.Counts
import PipelinedProcessor.Proofs.Pipeline.Registers

namespace PipelinedProcessor

open Flight LawfulStorage

namespace Pipeline

-- Where instructions overlap, others may be in flight behind the last one of a course.
def OnCourse (p : Pipeline) (last id : Nat) : Prop := p.pipelined = true → id ≤ last

-- That one finds its operands as long as it does not ask for the counter, which they move.
def Certain (p : Pipeline) (course : Nat → ArchState) (last id : Nat) : Prop :=
  p.pipelined = true → id < last ∨ id = last ∧ (course last).Spares

theorem OnCourse.of_le {p : Pipeline} {last id id' : Nat} (h : p.OnCourse last id)
    (hle : id' ≤ id) :
    p.OnCourse last id' := fun hmode => Nat.le_trans hle (h hmode)

theorem Certain.onCourse {p : Pipeline} {course : Nat → ArchState} {last id : Nat}
    (h : p.Certain course last id) :
    p.OnCourse last id := by
  intro hmode
  rcases h hmode with hlt | ⟨heq, -⟩
  · exact Nat.le_of_lt hlt
  · exact Nat.le_of_eq heq

theorem certain_of_serial {p : Pipeline} (hserial : p.pipelined = false) (course : Nat → ArchState)
    (last id : Nat) :
    p.Certain course last id := by
  intro hmode
  rw [hserial] at hmode
  cases hmode

-- A pipeline at work on a course. Each flight carries out the instruction of its number, unless it
-- is behind the last; registers and memory are those between the instructions that are done with
-- them and those that are not, up to the words that the one in Memory Access is writing. Where
-- instructions overlap, the course has to allow it. The counter goes straight on while others are
-- fetched behind the last.
structure Tracks {σ : Type} [Storage σ] [LawfulStorage σ] (capacity : Nat)
    (course : Nat → ArchState) (last : Nat) (p : Pipeline) (context : Context σ) : Prop where
  wellFormed : p.WellFormed
  sound : Sound context.memory
  capacity_eq : LawfulStorage.capacity context.memory = capacity
  flights : ∀ stage f, p.slots.slot stage = some f → p.OnCourse last f.id →
    f.Follows capacity (view context.memory) (course f.id) (p.Certain course last f.id)
  results : ResultsAt course (p.passed .writeBack) context.registers context.vectors
  counter : p.OnCourse last (p.passed .fetch) →
    CounterAt capacity course (p.passed .writeBack) (p.passed .memory)
      (p.passed .fetch) context.registers
  behind : p.pipelined = true → last < p.passed .fetch → p.passed .memory ≤ last →
    context.registers.counter = ((course last).address + (p.passed .fetch - last)) % Word.bound
  memory : ∀ x, view context.memory x = (course (p.passed .memory)).memory x ∨
    ∃ f, p.slots.slot .memory = some f ∧ f.state = .ready ∧
      ∃ y ∈ (course (p.passed .memory)).storeTargets, x % capacity = y % capacity
  certain : ∀ i < p.passed .memory, p.Certain course last i
  executed : ∀ i < p.passed .memory, ∃ t, (course i).step capacity = .ok (some t)
  halting : ∀ i, p.haltId = some i → p.OnCourse last i → (course i).word = Word.halt
  openLast : ∀ i, p.openBranch = some i → p.passed .fetch = i + 1
  overlap : p.pipelined = true → Runnable capacity course last

namespace Tracks

variable {σ : Type} [Storage σ] [LawfulStorage σ] {capacity : Nat} {course : Nat → ArchState}
  {last : Nat} {p : Pipeline} {context : Context σ} (h : Tracks capacity course last p context)

include h

theorem known {stage : Stage} {f : Flight} (hf : p.slots.slot stage = some f)
    (hon : p.OnCourse last f.id) (hp : 3 ≤ f.progress) : f.instr = some (course f.id).instr ∧
    f.reads = (course f.id).instr.reads ∧
      f.writes = (course f.id).instr.writes := by
  obtain ⟨⟨w, hw, hinstr, hreads, hwrites⟩, -⟩ := (h.wellFormed.fits hf).settled hp
  have hword := ((h.flights stage f hf hon).fetched (by omega)).2
  obtain rfl := Option.some.inj (hw.symm.trans hword)
  exact ⟨hinstr, hreads, hwrites⟩

theorem word_ne {stage : Stage} {f : Flight} (hf : p.slots.slot stage = some f)
    (hon : p.OnCourse last f.id) (hp : 1 ≤ f.progress) : (course f.id).word ≠ Word.halt := by
  obtain ⟨w, hw, hhalt⟩ := (h.wellFormed.fits hf).fetched hp
  have hword := ((h.flights stage f hf hon).fetched hp).2
  obtain rfl := Option.some.inj (hw.symm.trans hword)
  exact hhalt

variable (hcourse : ∀ n, course (n + 1) = (course n).next capacity)

include hcourse

-- An instruction that has passed Decode finds in the registers that it reads what it would find
-- there if all before it were done.
theorem agrees {stage : Stage} {f : Flight} (hf : p.slots.slot stage = some f)
    (hcertain : p.Certain course last f.id) (hlow : 3 ≤ f.progress) (hhigh : f.progress ≤ 6) :
    ∀ r ∈ (course f.id).instr.reads, context.state.Agrees (course f.id).stepped r := by
  intro r hr
  have hcommitted := h.wellFormed.lt_committed_iff hf
  by_cases hserial : p.pipelined = false
  · obtain ⟨hfetch, hmemory, hwriteBack⟩ := h.wellFormed.counts_alone hserial hf (by omega) hhigh
    have hresults := h.results
    have hcounted := h.counter (certain_of_serial hserial course last _).onCourse
    rw [hwriteBack] at hresults
    rw [hwriteBack, hmemory, hfetch] at hcounted
    cases r with
    | vector number => exact congrArg (·.get number) hresults.vectors_eq
    | scalar number =>
        by_cases hcounter : number = Register.counter
        · rw [hcounter]
          exact hcounted.stepped f.id (Nat.le_refl _) rfl
        · exact (hresults.values number hcounter).trans (ArchState.read_stepped hcounter).symm
  · have hmode : p.pipelined = true := by simpa using hserial
    have hon := hcertain.onCourse
    have hcounter : r ≠ .scalar Register.counter := by
      rintro rfl
      rcases hcertain hmode with hlt | ⟨hlast, hspares⟩
      · exact ((h.overlap hmode).counter f.id hlt).1 hr
      · exact hspares.1 (hlast ▸ hr)
    -- those that have not committed yet are in flight before it and do not write what it reads
    have hunwritten (k : Nat) (hk : p.passed .writeBack ≤ k) (hlt : k < f.id) :
        r ∉ (course k).instr.writes := by
      intro hwrites
      have hretired := p.retired_le_passed .writeBack
      obtain ⟨g, hg, rfl⟩ := h.wellFormed.exists_older hf (Nat.le_trans hretired hk) hlt
      have hfree := ((h.wellFormed.fits hf).settled hlow).2 g hg
      obtain ⟨other, hother, hslot⟩ := Slots.mem_older hg
      have hbounds := h.wellFormed.progress_bounds hf
      have hbounds' := h.wellFormed.progress_bounds hslot
      have hreads := (h.known hf hon hlow).2.1
      have hnone := (dependsOn_eq_false hfree).1 r
      rw [(h.known hslot (hon.of_le (by omega)) (by omega)).2.2, hreads] at hnone
      exact hnone hwrites hr
    have hcourse' := agrees_of_unwritten hcourse hcounter (by omega) hunwritten
    have hnow : context.state.Agrees (course (p.passed .writeBack)) r := by
      cases r with
      | vector number => exact congrArg (·.get number) h.results.vectors_eq
      | scalar number =>
          refine h.results.values number ?_
          rintro rfl
          exact hcounter rfl
    exact hnow.trans (hcourse'.symm.trans (ArchState.stepped_agrees hcounter).symm)

omit hcourse

-- Changes of the pipeline that concern neither registers nor memory.
theorem of_counts {p' : Pipeline} (hwell : p'.WellFormed)
    (hcount : ∀ stage, stage = .fetch ∨ stage = .memory ∨ stage = .writeBack →
      p'.passed stage = p.passed stage)
    (hmode : p'.pipelined = p.pipelined) (hhalt : p'.haltId = p.haltId)
    (hopen : p'.openBranch = p.openBranch) (hflights : ∀ stage f, p'.slots.slot stage = some f →
      p.OnCourse last f.id →
      f.Follows capacity (view context.memory) (course f.id) (p.Certain course last f.id))
    (hmemory : ∀ f, p.slots.slot .memory = some f → f.state = .ready →
      p'.slots.slot .memory = some f) :
    Tracks capacity course last p' context := by
  have hfetch := hcount .fetch (.inl rfl)
  have haccess := hcount .memory (.inr (.inl rfl))
  have hcommit := hcount .writeBack (.inr (.inr rfl))
  have hon (id : Nat) : p'.OnCourse last id = p.OnCourse last id := by
    rw [OnCourse, OnCourse, hmode]
  have hcertain (id : Nat) : p'.Certain course last id = p.Certain course last id := by
    rw [Certain, Certain, hmode]
  refine ⟨hwell, h.sound, h.capacity_eq, ?_, ?_, ?_, ?_, ?_, ?_, ?_, ?_, ?_, ?_⟩
  · simp only [hon, hcertain]
    exact hflights
  · rw [hcommit]
    exact h.results
  · rw [hfetch, haccess, hcommit, hon]
    exact h.counter
  · rw [hfetch, haccess, hmode]
    exact h.behind
  · rw [haccess]
    intro x
    rcases h.memory x with hsame | ⟨f, hf, hready, hx⟩
    · exact .inl hsame
    · exact .inr ⟨f, hmemory f hf hready, hready, hx⟩
  · simp only [haccess, hcertain]
    exact h.certain
  · rw [haccess]
    exact h.executed
  · simp only [hhalt, hon]
    exact h.halting
  · rw [hopen, hfetch]
    exact h.openLast
  · rw [hmode]
    exact h.overlap

theorem flights_put {stage : Stage} {f' : Flight} (hplace : stage ≠ .system)
    (hfollows : p.OnCourse last f'.id →
      f'.Follows capacity (view context.memory) (course f'.id) (p.Certain course last f'.id))
    (other : Stage) (g : Flight) (hg : (p.slots.put stage (some f')).slot other = some g)
    (hon : p.OnCourse last g.id) :
    g.Follows capacity (view context.memory) (course g.id) (p.Certain course last g.id) := by
  rw [p.slots.slot_put stage hplace] at hg
  split at hg
  · obtain rfl := Option.some.inj hg
    exact hfollows hon
  · exact h.flights other g hg hon

-- One flight before Memory Access does something.
theorem of_early {stage : Stage} {f f' : Flight} (hf : p.slots.slot stage = some f)
    (hwell : WellFormed { p with slots := p.slots.put stage (some f') }) (hid : f'.id = f.id)
    (hfollows : p.OnCourse last f.id →
      f'.Follows capacity (view context.memory) (course f.id) (p.Certain course last f.id))
    (hstarted : 1 ≤ f.progress ∧ f.progress ≤ 5) (hstarted' : 1 ≤ f'.progress ∧ f'.progress ≤ 5) :
    Tracks capacity course last { p with slots := p.slots.put stage (some f') } context := by
  have hplace : stage ≠ .system := by
    rintro rfl
    cases hf
  have hbounds := h.wellFormed.progress_bounds hf
  refine h.of_counts hwell ?_ rfl rfl rfl ?_ ?_
  · intro other hother
    have hcount := passed_replace { p with slots := p.slots.put stage (some f') } hf rfl rfl other
    have htally : Slots.tally other f' = Slots.tally other f := by
      rcases hother with rfl | rfl | rfl
      · rw [Slots.tally_fetch, Slots.tally_fetch, if_pos (by omega), if_pos (by omega)]
      · rw [Slots.tally_memory, Slots.tally_memory, if_neg (by omega), if_neg (by omega)]
      · rw [Slots.tally_writeBack, Slots.tally_writeBack, if_neg (by omega), if_neg (by omega)]
    omega
  · exact h.flights_put hplace (hid ▸ hfollows)
  · intro g hg hready
    refine (p.slots.slot_put stage hplace (some f') .memory).trans ?_
    rw [if_neg]
    · exact hg
    · rintro rfl
      simp only [Stage.order] at hbounds
      omega

theorem decodeStage : Tracks capacity course last p.decodeStage context := by
  have hwell := h.wellFormed.decodeStage
  cases hf : p.slots.slot .decode with
  | none =>
      rw [decodeStage_of_empty hf]
      exact h
  | some f =>
      cases hstate : f.state with
      | ready =>
          rw [decodeStage_of_ready hf hstate] at hwell ⊢
          have hp : f.progress = 2 := h.wellFormed.progress_of_ready hf hstate
          have hslot : (p.slots.put .decode (some (f.decode p.slots.flights))).slot .decode =
              some (f.decode p.slots.flights) := rfl
          have hbounds := hwell.progress_bounds hslot
          simp only [Stage.order] at hbounds
          obtain ⟨hid, haddress, hraw⟩ := f.decode_same p.slots.flights
          refine h.of_early hf hwell hid ?_ (by omega) (by omega)
          intro hon
          exact (h.flights .decode f hf hon).of_early haddress hraw (fun _ => by omega) (by omega)
      | stalled j =>
          rw [decodeStage_of_stalled hf hstate] at hwell ⊢
          exact h.of_counts hwell (fun _ _ => rfl) rfl rfl rfl h.flights fun _ hg _ => hg
      | completed =>
          rw [decodeStage_of_completed hf hstate]
          exact h

section Execute

variable {f : Flight} (hf : p.slots.slot .execute = some f) (hready : f.state = .ready)

include hf hready

-- What Execute finds.
theorem executing (hon : p.OnCourse last f.id) :
    f.progress = 4 ∧ f.instr = some (course f.id).instr ∧
    f.address = some (course f.id).address ∧ (course f.id).word ≠ Word.halt := by
  have hp : f.progress = 4 := h.wellFormed.progress_of_ready hf hready
  exact ⟨hp, (h.known hf hon (by omega)).1, ((h.flights .execute f hf hon).fetched (by omega)).1,
    h.word_ne hf hon (by omega)⟩

include hcourse

theorem execute_follows (hon : p.OnCourse last f.id) {f' : Flight}
    (hexecute : f.execute context.registers context.vectors = .ok f') (hraw : f'.raw = f.raw)
    (hp' : f'.progress = 5) :
    f'.Follows capacity (view context.memory) (course f.id) (p.Certain course last f.id) := by
  obtain ⟨hp, hinstr, haddress, -⟩ := h.executing hf hready hon
  obtain ⟨haction, hresults⟩ := (h.wellFormed.fits hf).idle (by omega)
  have haddress' := (grows_execute hexecute).address _ haddress
  refine ⟨?_, ?_, ?_, fun _ => by omega, fun _ => by omega⟩
  · intro a ha
    exact Option.some.inj (ha.symm.trans haddress')
  · rw [hraw]
    exact fun _ => ⟨haddress', ((h.flights .execute f hf hon).fetched (by omega)).2⟩
  · intro hcertain _
    exact (promises_of_execute (h.agrees hcourse hf hcertain (by omega) (by omega)) hinstr
      haddress haction hresults hexecute).1

theorem execute_fault (hcertain : p.Certain course last f.id) {cause : Fault}
    (hexecute : f.execute context.registers context.vectors = .error cause) :
    (course f.id).step capacity = .error cause := by
  obtain ⟨hp, hinstr, haddress, hhalt⟩ := h.executing hf hready hcertain.onCourse
  have hagrees := h.agrees hcourse hf hcertain (by omega) (by omega)
  exact ArchState.step_of_fault hhalt (staged_of_execute_error hagrees hinstr haddress hexecute)

end Execute

include hcourse

theorem executeStage {p' : Pipeline}
    (hresult : p.executeStage context.registers context.vectors = .ok p') :
    Tracks capacity course last p' context := by
  have hwell := h.wellFormed.executeStage hresult
  rcases in_state_or_not (p.slots.slot .execute) .ready with ⟨f, hf, hready⟩ | hidle
  · rw [executeStage_of_ready hf hready] at hresult
    obtain ⟨f', hexecute, rfl⟩ := ok_of_map hresult
    have hp : f.progress = 4 := h.wellFormed.progress_of_ready hf hready
    obtain ⟨-, hface, hraw, hstage, hstate⟩ :=
      (h.wellFormed.fits hf).execute hready (h.wellFormed.inPlace _ f hf) hexecute
    have hp' : f'.progress = 5 := by
      rw [progress_of_completed hstate, hstage, h.wellFormed.inPlace _ f hf]
      rfl
    exact h.of_early hf hwell hface.id_eq
      (fun hon => h.execute_follows hcourse hf hready hon hexecute hraw hp') (by omega) (by omega)
  · rw [executeStage_of_idle hidle] at hresult
    obtain rfl := Except.ok.inj hresult
    exact h

omit hcourse

-- Only where instructions overlap is anything fetched behind one that is not done, and then none
-- writes the counter.
theorem counter_unwritten {stage : Stage} {f : Flight} (hf : p.slots.slot stage = some f)
    (hon : p.OnCourse last (p.passed .fetch)) (hlt : f.id + 1 < p.passed .fetch) :
    .scalar Register.counter ∉ (course f.id).instr.writes := by
  by_cases hserial : p.pipelined = false
  · have hcount := h.wellFormed.passed_alone hserial hf .fetch
    rw [Slots.tally_fetch] at hcount
    split at hcount <;> omega
  · have hmode : p.pipelined = true := by simpa using hserial
    have hle := hon hmode
    exact ((h.overlap hmode).counter f.id (by omega)).2

-- Only the flight in Memory Access sees the memory change.
theorem flights_of_access {f' : Flight} {later : MemoryView}
    (hfollows : f'.Follows capacity later (course f'.id) (p.Certain course last f'.id))
    (other : Stage) (g : Flight) (hg : (p.slots.put .memory (some f')).slot other = some g)
    (hon : p.OnCourse last g.id) :
    g.Follows capacity later (course g.id) (p.Certain course last g.id) := by
  have hslot := (p.slots.slot_put .memory nofun (some f') other).symm.trans hg
  split at hslot
  · obtain rfl := Option.some.inj hslot
    exact hfollows
  · rename_i hne
    exact (h.flights other g hslot hon).of_memory (h.wellFormed.progress_ne hslot hne)

include hcourse

theorem commitStage :
    Tracks capacity course last (p.commitStage context).1 (p.commitStage context).2 := by
  have hwell := h.wellFormed.commitStage context
  rcases in_state_or_not (p.slots.slot .writeBack) .ready with ⟨f, hf, hready⟩ | hidle
  · rw [commitStage_of_ready hf hready] at hwell ⊢
    have hp : f.progress = 8 := h.wellFormed.progress_of_ready hf hready
    have haccessed := h.wellFormed.lt_accessed_iff hf
    have hcertain := h.certain f.id (haccessed.mpr (by omega))
    have hfollows := h.flights .writeBack f hf hcertain.onCourse
    obtain ⟨outcome, houtcome, hresults⟩ := hfollows.served hcertain (by omega)
    have hcount : p.passed .writeBack = f.id := h.wellFormed.passed_eq hf (by simp [hready])
    obtain ⟨t, hstep⟩ := h.executed f.id (by omega)
    obtain ⟨-, other, hother, rfl⟩ := ArchState.staged_of_step hstep
    obtain rfl := Except.ok.inj (houtcome.symm.trans hother)
    have hstate := state_commit f context
    have hmemory := f.memory_commit context
    rw [hresults (by omega)] at hstate
    have hp' : (f.commit context).1.progress = 9 := by
      show 2 * f.stage.order.val + 1 = 9
      rw [h.wellFormed.inPlace .writeBack f hf]
      rfl
    set f' := (f.commit context).1 with hf'
    set p' : Pipeline := { p with slots := p.slots.put .writeBack (some f') } with hp'eq
    have hcounts := h.wellFormed.passed_of_finished p' hf (by simp [hready]) hp' rfl rfl
    have hfetch : p'.passed .fetch = p.passed .fetch := hcounts .fetch
    have haccess : p'.passed .memory = p.passed .memory := hcounts .memory
    have hcommit : p'.passed .writeBack = f.id + 1 := hcounts .writeBack
    have hnext : course (f.id + 1) = outcome.apply (course f.id).stepped := by
      rw [hcourse, ArchState.next_of_step hstep]
    refine ⟨hwell, ?_, ?_, ?_, ?_, ?_, ?_, ?_, ?_, ?_, h.halting, ?_, h.overlap⟩
    · rw [hmemory]
      exact h.sound
    · rw [hmemory]
      exact h.capacity_eq
    · rw [hmemory]
      have hfollows' : f'.Follows capacity (view context.memory) (course f'.id)
          (p.Certain course last f'.id) :=
        ⟨hfollows.asked, fun _ => hfollows.fetched (by omega), fun _ => by omega, fun _ => by omega,
          fun _ _ => ⟨outcome, houtcome, by omega⟩⟩
      exact h.flights_put (by decide) fun _ => hfollows'
    · have hafter := ResultsAt.commit (s := context.state) hnext (hcount ▸ h.results)
      rw [hcommit]
      rw [← hstate] at hafter
      exact hafter
    · rw [hfetch, haccess, hcommit]
      intro hfetched
      have hcounter := h.counter hfetched
      rw [hcount] at hcounter
      have hafter :=
        hcounter.commit (s := context.state) houtcome hnext (by omega) p.accessed_le_fetched
        (h.counter_unwritten hf hfetched)
      rw [← hstate] at hafter
      exact hafter
    · rw [hfetch, haccess]
      intro hmode hbehind hlast
      have hspares := ((h.overlap hmode).counter f.id (by omega)).2
      rw [← h.behind hmode hbehind hlast]
      refine counter_commit (fun write hwrite htarget => hspares ?_) context
      rw [hresults (by omega)] at hwrite
      exact htarget ▸ ArchState.staged_writes houtcome write hwrite
    · rw [haccess, hmemory]
      exact h.memory
    · rw [haccess]
      exact h.certain
    · rw [haccess]
      exact h.executed
    · rw [hfetch]
      exact h.openLast
  · rw [commitStage_of_idle hidle]
    exact h

section Access

variable {f f' : Flight} {after : Context σ} {fault : Option Fault}
  (hf : p.slots.slot .memory = some f) (hready : f.state = .ready)
    (haccessed : f.Accessed capacity (course f.id) context fault f' after)
  (hfollows : f'.Follows capacity (view after.memory) (course f'.id) (p.Certain course last f'.id))

include hf hready haccessed hfollows

omit hcourse in
-- It goes on waiting, and has changed nothing but words that it is to write.
theorem of_waiting (hwell : WellFormed { p with slots := p.slots.put .memory (some f') })
    (hstate : f'.state = .ready) (hprogress : f'.progress = 6)
    (hregisters : after.registers = context.registers) :
    Tracks capacity course last { p with slots := p.slots.put .memory (some f') } after := by
  have hid : p.passed .memory = f.id := h.wellFormed.passed_eq hf (by simp [hready])
  have hp : f.progress = 6 := h.wellFormed.progress_of_ready hf hready
  have hcount (other : Stage) :
      passed { p with slots := p.slots.put .memory (some f') } other = p.passed other :=
    WellFormed.passed_of_progress { p with slots := p.slots.put .memory (some f') } hf
      (hprogress.trans hp.symm) rfl rfl other
  refine ⟨hwell, haccessed.sound, haccessed.capacity_eq, h.flights_of_access hfollows,
    ?_, ?_, ?_, ?_, ?_, ?_, h.halting, ?_, h.overlap⟩
  · rw [hcount, hregisters, haccessed.vectors_eq]
    exact h.results
  · rw [hcount, hcount, hcount, hregisters]
    exact h.counter
  · rw [hcount, hcount, hregisters]
    exact h.behind
  · rw [hcount, hid]
    intro x
    by_cases hx : ∃ y ∈ (course f.id).storeTargets, x % capacity = y % capacity
    · exact .inr ⟨f', rfl, hstate, hx⟩
    · left
      have hsame := h.memory x
      rw [hid] at hsame
      rw [haccessed.frame x fun y hy heq => hx ⟨y, hy, heq⟩]
      rcases hsame with hsame | ⟨-, -, -, htarget⟩
      · exact hsame
      · exact absurd htarget hx
  · rw [hcount]
    exact h.certain
  · rw [hcount]
    exact h.executed
  · rw [hcount]
    exact h.openLast

-- It is done, and memory is as it leaves it.
theorem of_accessed {openBranch : Option Nat} {outcome : Outcome}
    (hcertain : p.Certain course last f.id)
    (hwell : WellFormed { p with slots := p.slots.put .memory (some f'), openBranch := openBranch })
    (hopens : ∀ i, openBranch = some i → p.openBranch = some i) (hprogress : f'.progress = 7)
    (houtcome : (course f.id).staged capacity = .ok outcome) (hmemory : view after.memory =
      outcome.memory) (hregisters : after.registers = outcome.jumped context.registers) :
    Tracks capacity course last
      { p with slots := p.slots.put .memory (some f'), openBranch := openBranch } after := by
  have hid : p.passed .memory = f.id := h.wellFormed.passed_eq hf (by simp [hready])
  have hp : f.progress = 6 := h.wellFormed.progress_of_ready hf hready
  have hstep := ArchState.step_of_staged (h.word_ne hf hcertain.onCourse (by omega)) houtcome
  have hfetched := (h.wellFormed.lt_fetched_iff hf).mpr (by omega)
  have hcommitted := p.committed_le_accessed
  set p' : Pipeline := { p with slots := p.slots.put .memory (some f'), openBranch := openBranch }
  have hcounts := h.wellFormed.passed_of_finished p' hf (by simp [hready]) hprogress rfl rfl
  have hfetch : p'.passed .fetch = p.passed .fetch := hcounts .fetch
  have haccess : p'.passed .memory = f.id + 1 := hcounts .memory
  have hcommit : p'.passed .writeBack = p.passed .writeBack := hcounts .writeBack
  -- a branch holds back all that come after it
  have hstraight (hlt : f.id + 1 < p.passed .fetch) : outcome.jump = none := by
    refine ArchState.staged_jump houtcome ?_
    intro hkind
    have hword := ((h.flights .memory f hf hcertain.onCourse).fetched (by omega)).2
    have hopen := h.wellFormed.branch.unresolved f (Slots.mem_flights.mpr ⟨_, hf⟩)
      (by rw [hword]; simpa using hkind) (by omega)
    have hlast := h.openLast f.id hopen
    omega
  refine ⟨hwell, haccessed.sound, haccessed.capacity_eq, h.flights_of_access hfollows,
    ?_, ?_, ?_, ?_, ?_, ?_, h.halting, ?_, h.overlap⟩
  · rw [hcommit, hregisters, haccessed.vectors_eq]
    exact h.results.jump outcome
  · rw [hcommit, haccess, hfetch, hregisters]
    intro hahead
    have hbefore := h.counter hahead
    rw [hid] at hbefore
    exact hbefore.jump houtcome (by omega) hfetched hstraight
  · rw [haccess, hfetch, hregisters]
    intro hmode hbehind hlast
    rw [Outcome.jumped_of_none (hstraight (by omega))]
    exact h.behind hmode hbehind (by omega)
  · rw [haccess]
    intro x
    left
    rw [hmemory, hcourse, ArchState.next_of_step hstep, Outcome.memory_apply]
  · rw [haccess]
    intro i hi
    by_cases hlast : i = f.id
    · rw [hlast]
      exact hcertain
    · exact h.certain i (by omega)
  · rw [haccess]
    intro i hi
    by_cases hlast : i = f.id
    · rw [hlast]
      exact ⟨_, hstep⟩
    · exact h.executed i (by omega)
  · rw [hfetch]
    exact fun i hi => h.openLast i (hopens i hi)

end Access

-- What Memory Access does, by what its try comes to.
theorem accessStage
    (hcertain : ∀ f, p.slots.slot .memory = some f → f.state = .ready → p.Certain course last f.id)
    {p' : Pipeline} {after : Context σ} {fault : Option Fault}
    (hresult : p.accessStage context = (fault, p', after)) :
    (∀ cause, fault = some cause →
      ∃ f, p.slots.slot .memory = some f ∧ (course f.id).step capacity = .error cause) ∧
    (fault = none → Tracks capacity course last p' after) := by
  have hwell := h.wellFormed.accessStage context
  rw [hresult] at hwell
  rcases in_state_or_not (p.slots.slot .memory) .ready with ⟨f, hf, hready⟩ | hidle
  · rcases haccess : f.access context with ⟨fault', f', after'⟩
    rw [accessStage_of_ready hf hready haccess] at hresult
    obtain ⟨rfl, rfl, rfl⟩ := hresult
    have hp : f.progress = 6 := h.wellFormed.progress_of_ready hf hready
    have hcertain' := hcertain f hf hready
    have hfollows := h.flights .memory f hf hcertain'.onCourse
    obtain ⟨-, hface, hstage⟩ :=
      (h.wellFormed.fits hf).access hready (h.wellFormed.inPlace _ f hf) context
    rw [haccess] at hface hstage
    have hplace : f'.stage = .memory := hstage.trans (h.wellFormed.inPlace _ f hf)
    have haccessed := (hfollows.accessing hcertain' hp).access
      (h.agrees hcourse hf hcertain' (by omega) (by omega)) h.sound h.capacity_eq haccess
    refine ⟨?_, fun hnone => ?_⟩
    · intro cause hcause
      have hword := h.word_ne hf hcertain'.onCourse (by omega)
      exact ⟨f, hf, ArchState.step_of_fault hword (haccessed.faulted cause hcause)⟩
    obtain ⟨haddress, hraw,
      ⟨hstate, hregisters, hpromises⟩ | ⟨hstate, outcome, houtcome, hresults,
        hmemory, hregisters⟩⟩ :=
      haccessed.served hnone
    · have hp' : f'.progress = 6 := by
        rw [progress_of_not_completed (by simp [hstate, hready]), hplace]
        rfl
      have hfollows' := hfollows.of_waiting haddress hraw (by omega) hp' hpromises
      have hopen : ¬(f'.state = .completed ∧ p.openBranch = some f'.id) := by
        simp [hstate, hready]
      rw [if_neg hopen] at hwell ⊢
      exact h.of_waiting hf hready haccessed (hface.id_eq ▸ hfollows') hwell
        (hstate.trans hready) hp' hregisters
    · have hp' : f'.progress = 7 := by
        rw [progress_of_completed hstate, hplace]
        rfl
      have hfollows' : f'.Follows capacity (view after.memory) (course f.id)
          (p.Certain course last f.id) :=
        hfollows.of_served haddress hraw (by omega) hp' houtcome hresults
      refine h.of_accessed hcourse hf hready haccessed (hface.id_eq ▸ hfollows')
        hcertain' hwell ?_ hp' houtcome hmemory hregisters
      intro i hi
      split at hi
      · cases hi
      · exact hi
  · rw [accessStage_of_idle hidle] at hresult
    obtain ⟨rfl, rfl, rfl⟩ := hresult
    refine ⟨?_, fun _ => h⟩
    intro cause hcause
    cases hcause

omit hcourse

-- A poll of the memory that changes nothing that can be seen.
theorem of_quiet {memory : σ} (hquiet : Action.Quiet context.memory memory) :
    Tracks capacity course last p { context with memory := memory } := by
  refine ⟨h.wellFormed, hquiet.sound, hquiet.capacity_eq.trans h.capacity_eq, ?_,
    h.results, h.counter, h.behind, ?_, h.certain, h.executed, h.halting, h.openLast, h.overlap⟩
  · rw [hquiet.view_eq]
    exact h.flights
  · rw [hquiet.view_eq]
    exact h.memory

section Fetch

variable {f : Flight} (hf : p.slots.slot .fetch = some f) (hready : f.state = .ready)

include hf hready

theorem fetched_eq : p.passed .fetch = f.id := h.wellFormed.passed_eq hf (by simp [hready])

theorem alone_of_fetching (hserial : p.pipelined = false) :
    p.passed .memory = f.id ∧ p.passed .writeBack = f.id := by
  have hp : f.progress = 0 := h.wellFormed.progress_of_ready hf hready
  have hcount := h.wellFormed.passed_alone hserial hf
  rw [hcount, hcount, Slots.tally_memory, Slots.tally_writeBack, if_neg (by omega),
    if_neg (by omega)]
  exact ⟨rfl, rfl⟩

variable (hon : p.OnCourse last f.id)

include hon

-- What is fetched next is fetched from where the program has come to.

theorem straight_of_fetching {i : Nat} (hi : p.passed .memory ≤ i) (hlt : i < p.passed .fetch) :
    (course i).word.kind ≠ Word.branchKind := by
  have hretired := p.retired_le_passed .memory
  have hle := p.passed_le .fetch
  obtain ⟨stage, g, hg, rfl⟩ := h.wellFormed.exists_slot (i := i) (by omega) (by omega)
  have hfetched := h.wellFormed.lt_fetched_iff hg
  have haccessed := h.wellFormed.lt_accessed_iff hg
  have hfetching := h.fetched_eq hf hready
  intro hkind
  have hopen := h.wellFormed.branch.unresolved g (Slots.mem_flights.mpr ⟨stage, hg⟩)
    (by
      rw [((h.flights stage g hg (hon.of_le (by omega))).fetched (by omega)).2]
      simpa using hkind) (by omega)
  rw [h.wellFormed.fetching f hf hready] at hopen
  cases hopen

include hcourse

theorem counter_of_fetching :
    context.registers.read Register.counter = (course f.id).value Register.counter := by
  have hfetched := h.fetched_eq hf hready
  have haccessed := p.accessed_le_fetched
  have hcommitted := p.committed_le_accessed
  have hregisters := h.counter (hfetched ▸ hon)
  rw [hfetched] at haccessed hregisters
  by_cases hall : p.passed .writeBack = f.id
  · exact hregisters.settled hall
  · have hmode : p.pipelined = true := by
      by_contra hserial
      exact hall (h.alone_of_fetching hf hready (by simpa using hserial)).2
    have hoverlap := h.overlap hmode
    have hlast := hon hmode
    obtain ⟨i, hi⟩ : ∃ i, f.id = i + 1 := ⟨f.id - 1, by omega⟩
    have hnext := hoverlap.counter_succ hcourse (i := i) (by omega)
    rw [← hi] at hnext
    rw [hnext]
    by_cases hdone : p.passed .memory = f.id
    · exact hregisters.turned i (by omega) hi hdone
    · rw [ArchState.turned_of_straight (h.straight_of_fetching hf hready hon (by omega) (by omega))]
      exact hregisters.stepped i (by omega) hi

theorem word_of_fetching : view context.memory (course f.id).address = (course f.id).word := by
  have hfetched := h.fetched_eq hf hready
  have haccessed := p.accessed_le_fetched
  by_cases hserial : p.pipelined = false
  · have halone := (h.alone_of_fetching hf hready hserial).1
    rcases h.memory (course f.id).address with hsame | ⟨g, hg, hgready, -⟩
    · rw [halone] at hsame
      exact hsame
    · have hpassed := h.wellFormed.passed_eq hg (by simp [hgready])
      have hstarted := (h.wellFormed.lt_fetched_iff hg).mpr
        (by rw [h.wellFormed.progress_of_ready hg hgready]; decide)
      omega
  · have hmode : p.pipelined = true := by simpa using hserial
    have hoverlap := h.overlap hmode
    have hlast := hon hmode
    rcases h.memory (course f.id).address with hsame | ⟨g, hg, hgready, y, hy, heq⟩
    · rw [hsame]
      exact hoverlap.memory_eq hcourse (by omega) (by omega)
    · have hpassed := h.wellFormed.passed_eq hg (by simp [hgready])
      have hstarted := (h.wellFormed.lt_fetched_iff hg).mpr
        (by rw [h.wellFormed.progress_of_ready hg hgready]; decide)
      exact absurd heq.symm (hoverlap.stores _ _ (by omega) (by omega) y hy)

theorem target_of_fetching : f.target context.registers = (course f.id).address := by
  unfold target
  cases haddress : f.address with
  | none =>
      show context.registers.counter = (course f.id).registers.counter
      have hcounter := h.counter_of_fetching hcourse hf hready hon
      rw [ArchState.value] at hcounter
      rw [Registers.counter, Registers.counter, hcounter]
  | some a => exact (h.flights .fetch f hf hon).asked a haddress

omit hon

-- What comes of a try to fetch.

variable {memory : σ}

theorem fetchStage_wait
    (hread : Storage.read context.memory .fetch (f.target context.registers) = (.wait, memory)) :
    Tracks capacity course last (p.fetchStage context).1 (p.fetchStage context).2 := by
  have hwell := h.wellFormed.fetchStage context
  have hp : f.progress = 0 := h.wellFormed.progress_of_ready hf hready
  obtain ⟨hsound, hcapacity, hview, -⟩ := read_sound h.sound hread
  have hquiet := h.of_quiet ⟨hsound, hcapacity, hview⟩
  rw [fetchStage_of_wait hf hready ((h.wellFormed.fits hf).blank hp) hread] at hwell ⊢
  set f' : Flight := { f with address := some (f.target context.registers) }
  have hp' : f'.progress = 0 := hp
  have hfollows (hon : p.OnCourse last f'.id) :
      f'.Follows capacity (view memory) (course f'.id) (p.Certain course last f'.id) := by
    refine ⟨?_, by omega, fun _ => by omega, fun _ => by omega, fun _ => by omega⟩
    intro a ha
    exact (Option.some.inj ha).symm.trans (h.target_of_fetching hcourse hf hready hon)
  refine hquiet.of_counts hwell ?_ rfl rfl rfl
    (hquiet.flights_put (by decide) hfollows) fun _ hg _ => hg
  intro other _
  exact WellFormed.passed_of_progress { p with slots := p.slots.put .fetch (some f') } hf
    (hp'.trans hp.symm) rfl rfl other

theorem fetchStage_halt
    (hread : Storage.read context.memory .fetch (f.target context.registers) =
      (.done Word.halt, memory)) :
    Tracks capacity course last (p.fetchStage context).1 (p.fetchStage context).2 := by
  have hwell := h.wellFormed.fetchStage context
  have hp : f.progress = 0 := h.wellFormed.progress_of_ready hf hready
  obtain ⟨hsound, hcapacity, hview, hanswer⟩ := read_sound h.sound hread
  have hquiet := h.of_quiet ⟨hsound, hcapacity, hview⟩
  rw [fetchStage_of_halt hf hready hread] at hwell ⊢
  have hcount (other : Stage) :
      passed { p with slots := p.slots.put .fetch none, haltId := some f.id } other =
        p.passed other := by
    have hcounts :=
      passed_remove { p with slots := p.slots.put .fetch none, haltId := some f.id } hf
        rfl rfl other
    rwa [Slots.tally, hp, if_neg (by omega)] at hcounts
  refine ⟨hwell, hquiet.sound, hquiet.capacity_eq, ?_, ?_, ?_, ?_, ?_, ?_, ?_, ?_, ?_, h.overlap⟩
  · intro other g hg
    have hslot := (p.slots.slot_put .fetch (by decide) none other).symm.trans hg
    split at hslot
    · cases hslot
    · exact hquiet.flights other g hslot
  · rw [hcount]
    exact hquiet.results
  · rw [hcount, hcount, hcount]
    exact hquiet.counter
  · rw [hcount, hcount]
    exact hquiet.behind
  · rw [hcount]
    exact hquiet.memory
  · rw [hcount]
    exact hquiet.certain
  · rw [hcount]
    exact hquiet.executed
  · intro i hi hon
    obtain rfl := Option.some.inj hi
    rw [h.target_of_fetching hcourse hf hready hon,
      h.word_of_fetching hcourse hf hready hon] at hanswer
    exact (hanswer _ rfl).symm
  · rw [hcount]
    exact hquiet.openLast

theorem fetchStage_word {w : Word} (hw : w ≠ Word.halt)
    (hread : Storage.read context.memory .fetch (f.target context.registers) = (.done w, memory)) :
    Tracks capacity course last (p.fetchStage context).1 (p.fetchStage context).2 := by
  have hwell := h.wellFormed.fetchStage context
  have hfetched := h.fetched_eq hf hready
  obtain ⟨hsound, hcapacity, hview, hanswer⟩ := read_sound h.sound hread
  have hquiet := h.of_quiet ⟨hsound, hcapacity, hview⟩
  rw [fetchStage_of_word hf hready hw hread] at hwell ⊢
  set f' : Flight := { f with
    address := some (f.target context.registers)
    raw := some w }.complete with hf'
  set p' : Pipeline := { p with
    slots := p.slots.put .fetch (some f')
    openBranch := if w.kind = Word.branchKind then some f.id else p.openBranch } with hp'eq
  have hp' : f'.progress = 1 := by
    rw [hf', progress_complete, h.wellFormed.inPlace .fetch f hf]
    rfl
  have hcounts := h.wellFormed.passed_of_finished p' hf (by simp [hready]) hp' rfl rfl
  have hfetch : p'.passed .fetch = f.id + 1 := hcounts .fetch
  have haccess : p'.passed .memory = p.passed .memory := hcounts .memory
  have hcommit : p'.passed .writeBack = p.passed .writeBack := hcounts .writeBack
  have hfollows (hon : p.OnCourse last f'.id) :
      f'.Follows capacity (view memory) (course f'.id) (p.Certain course last f'.id) := by
    have htarget := h.target_of_fetching hcourse hf hready hon
    rw [htarget, h.word_of_fetching hcourse hf hready hon] at hanswer
    refine ⟨?_, fun _ => ⟨congrArg some htarget, congrArg some (hanswer w rfl)⟩, fun _ => by omega,
      fun _ => by omega, fun _ => by omega⟩
    intro a ha
    exact (Option.some.inj ha).symm.trans htarget
  refine ⟨hwell, hquiet.sound, hquiet.capacity_eq, hquiet.flights_put (by decide) hfollows,
    ?_, ?_, ?_, ?_, ?_, ?_, h.halting, ?_, h.overlap⟩
  · rw [hcommit]
    exact h.results.fetch
  · rw [hfetch, haccess, hcommit]
    intro hahead
    have hon : p.OnCourse last f.id := OnCourse.of_le (p := p) hahead (Nat.le_succ _)
    exact counterAt_fetch (h.counter_of_fetching hcourse hf hready hon) p.committed_le_accessed
      (hfetched ▸ p.accessed_le_fetched)
  · rw [hfetch, haccess]
    intro hmode hbehind hlast
    have hbefore :
        context.registers.counter = ((course last).address + (f.id - last)) % Word.bound := by
      by_cases hfirst : f.id = last
      · rw [hfirst, Nat.sub_self, Nat.add_zero, Registers.counter,
          h.counter_of_fetching hcourse hf hready (fun _ => Nat.le_of_eq hfirst), hfirst]
        exact (Nat.mod_eq_of_lt (BitVec.isLt _)).symm
      · have hstraight := h.behind hmode (by omega) hlast
        rwa [hfetched] at hstraight
    show context.registers.stepCounter.counter = _
    rw [Registers.counter_stepCounter, hbefore, Nat.mod_add_mod]
    congr 1
    omega
  · rw [haccess]
    exact hquiet.memory
  · rw [haccess]
    exact h.certain
  · rw [haccess]
    exact h.executed
  · rw [hfetch]
    intro i hi
    rw [hp'eq] at hi
    dsimp only at hi
    split at hi
    · obtain rfl := Option.some.inj hi
      rfl
    · rw [h.wellFormed.fetching f hf hready] at hi
      cases hi

end Fetch

include hcourse

theorem fetchStage :
    Tracks capacity course last (p.fetchStage context).1 (p.fetchStage context).2 := by
  rcases in_state_or_not (p.slots.slot .fetch) .ready with ⟨f, hf, hready⟩ | hidle
  · rcases hread :
      Storage.read context.memory .fetch (f.target context.registers) with ⟨answer, memory⟩
    cases answer with
    | wait => exact h.fetchStage_wait hcourse hf hready hread
    | done w =>
        by_cases hhalt : w = Word.halt
        · subst hhalt
          exact h.fetchStage_halt hcourse hf hready hread
        · exact h.fetchStage_word hcourse hf hready hhalt hread
  · rw [fetchStage_of_idle hidle]
    exact h

end Tracks

end Pipeline

end PipelinedProcessor
