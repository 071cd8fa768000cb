import PipelinedProcessor.Proofs.Cache.Placing
import PipelinedProcessor.Proofs.Cache.Shadowing
import PipelinedProcessor.Proofs.Machine.Reached

namespace PipelinedProcessor.Machine

-- A cycle leaves the machine its configuration and its memory the size and the delay.
theorem shape_cycle (machine : Machine) :
    machine.cycle.2.memory.shape = machine.memory.shape ∧
    machine.cycle.2.config = machine.config := by
  obtain ⟨config, mode, registers, vectors, pipeline, listening, reports, cache⟩ := machine
  cases mode with
  | cache =>
      have htries := Cache.tries_shape cache.memory.shape
      exact ⟨Pipeline.step_keeps htries pipeline ⟨registers, vectors, cache⟩ rfl, rfl⟩
  | direct =>
      have htries := MainMemory.tries_shape cache.memory.shape
      exact ⟨Pipeline.step_keeps htries pipeline ⟨registers, vectors, cache.memory⟩ rfl, rfl⟩

theorem step_of_cycle (machine : Machine) : machine.step.2.config = machine.cycle.2.config ∧
    (machine.step.2.cache = machine.cycle.2.cache ∨
      machine.step.2.cache = machine.cycle.2.cache.releaseAll) := by
  rcases hcycle : machine.cycle with ⟨answer, next⟩
  cases answer with
  | error fault =>
      rw [step_of_fault hcycle]
      exact ⟨rfl, .inr rfl⟩
  | ok message =>
      by_cases hmessage : message = .halted
      · subst hmessage
        rw [step_of_halted hcycle]
        exact ⟨rfl, .inl rfl⟩
      · rw [step_of_message hcycle hmessage]
        exact ⟨rfl, .inl rfl⟩

theorem shape_step (machine : Machine) : machine.step.2.memory.shape = machine.memory.shape := by
  obtain ⟨hshape, -⟩ := machine.shape_cycle
  rcases machine.step_of_cycle.2 with hcache | hcache
  · rw [memory, hcache]
    exact hshape
  · rw [memory, hcache]
    exact hshape

theorem shape_after (machine : Machine) (n : Nat) :
    (machine.after n).memory.shape = machine.memory.shape := by
  induction n with
  | zero => rfl
  | succ n ih => exact (machine.after n).shape_step.trans ih

theorem capacity_after (machine : Machine) (n : Nat) :
    (machine.after n).memory.capacity = machine.memory.capacity :=
  MainMemory.capacity_congr (congrArg Prod.fst (machine.shape_after n))

variable {mode : MemoryMode} {machine : Machine}

theorem delay_step (h : machine.memory.delay = machine.config.memory.delay) :
    machine.step.2.memory.delay = machine.step.2.config.memory.delay := by
  have hdelay : machine.step.2.memory.delay = machine.memory.delay :=
    congrArg Prod.snd machine.shape_step
  rw [hdelay, h, machine.step_of_cycle.1, machine.shape_cycle.2]

theorem delay_after (h : machine.memory.delay = machine.config.memory.delay) (n : Nat) :
    (machine.after n).memory.delay = (machine.after n).config.memory.delay := by
  induction n with
  | zero => exact h
  | succ n ih => exact delay_step ih

-- On main memory alone the cache stays without good lines, so that it is coherent with anything.
theorem coherent_step_direct (h : Cache.Coherent machine.cache)
    (hready : MainMemory.port.Ready machine) :
    Cache.Coherent machine.step.2.cache := by
  by_cases hrunning : machine.pipeline.running = true
  · rcases hstep : machine.pipeline.step (MainMemory.port.context machine) with ⟨answer, p, after⟩
    have hcycle := MainMemory.port.cycle_eq (hready.mode_eq hrunning) hstep
    have hcoherent : Cache.Coherent machine.cycle.2.cache := by
      have hshape := machine.shape_cycle.1
      rw [hcycle] at hshape ⊢
      refine h.backedBy (congrArg Prod.fst hshape) fun address hshadows => ?_
      rw [Cache.shadows_of_invalid hready.good address] at hshadows
      cases hshadows
    rcases machine.step_of_cycle.2 with hcache | hcache
    · rw [hcache]
      exact hcoherent
    · rw [hcache]
      exact hcoherent.releaseAll.1
  · rw [step_of_over (Bool.eq_false_iff.mpr hrunning)]
    exact h

theorem Reached.coherent_direct (h : Reached .direct machine) : Cache.Coherent machine.cache := by
  induction h with
  | fresh hbuild lines => exact (Cache.port.good_build hbuild lines).1
  | @load machine _ start program ih =>
      rcases Nat.lt_or_ge machine.memory.capacity (withHalt program).length with hlt | hle
      · rw [load_of_lt hlt]
        exact ih
      · rw [load_of_le hle]
        exact Cache.port.good_load ih _ start (withHalt program)
  | start _ address pipelined listening ih => exact ih.releaseAll.1
  | step h ih => exact coherent_step_direct ih (h.ready MainMemory.port)
  | abort _ ih => exact ih.releaseAll.1
  | reset _ hreset ih =>
      obtain ⟨built, hbuild, rfl⟩ := ok_of_map hreset
      exact (Cache.port.good_build hbuild built.cache.memory.lines).1

theorem Reached.coherent (h : Reached mode machine) : Cache.Coherent machine.cache := by
  cases mode with
  | cache => exact (h.ready Cache.port).good
  | direct => exact h.coherent_direct

theorem delay_of_build {config : Config} (hbuild : build config = .ok machine) :
    machine.memory.delay = machine.config.memory.delay := by
  obtain ⟨-, rfl⟩ := eq_of_build hbuild
  rfl

-- Loading tries often enough unless the number of tries does not fit its width.
theorem delay_lt_loadTries (h : 4 * (machine.config.memory.delay + 1) < unsignedBound) :
    machine.config.memory.delay < machine.loadTries := by
  rw [loadTries, Nat.mod_eq_of_lt h]
  omega

theorem getLast?_withHalt (program : List Word) : (withHalt program).getLast? = some Word.halt := by
  unfold withHalt
  split
  · assumption
  · simp

theorem length_withHalt_pos (program : List Word) : 0 < (withHalt program).length :=
  List.length_pos_of_mem (List.mem_of_getLast? (getLast?_withHalt program))

-- What loading a program comes to where it fits and memory is as slow as the configuration says:
-- all of it stands in memory if there are tries enough, and none of it if there are not.

theorem placed_load (h : Cache.Coherent machine.cache)
    (hdelay : machine.memory.delay = machine.config.memory.delay) (start : Nat)
    {program : List Word} (hle : (withHalt program).length ≤ machine.memory.capacity)
    (htries : machine.config.memory.delay < machine.loadTries) :
    ∃ cache, machine.load start program =
      (.ok (withHalt program).length, { machine with cache := cache }) ∧
      Cache.Placed machine.cache.releaseAll cache (Log.loaded start (withHalt program)) := by
  have hlt : machine.cache.releaseAll.memory.delay < machine.loadTries :=
    Nat.lt_of_le_of_lt (Nat.le_of_eq hdelay) htries
  obtain ⟨cache, hload, hplaced⟩ :=
    h.releaseAll.1.placed_loadFrom machine.cache.released_releaseAll hlt start 0 (withHalt program)
  refine ⟨cache, ?_, hplaced⟩
  rw [load_of_le hle, hload]
  rfl

theorem unplaced_load (h : Cache.Coherent machine.cache)
    (hdelay : machine.memory.delay = machine.config.memory.delay) (start : Nat)
    {program : List Word} (hle : (withHalt program).length ≤ machine.memory.capacity)
    (htries : machine.loadTries ≤ machine.config.memory.delay) :
    ∃ cache, machine.load start program =
        (.error (.unanswered 0 (start % unsignedBound) ⟨machine.loadTries⟩),
          { machine with cache := cache }) ∧
      Cache.Unplaced machine.cache.releaseAll cache := by
  have hge : machine.loadTries ≤ machine.cache.releaseAll.memory.delay :=
    Nat.le_trans htries (Nat.le_of_eq hdelay.symm)
  obtain ⟨w, rest, hwords⟩ := List.exists_cons_of_length_pos (length_withHalt_pos program)
  obtain ⟨cache, hload, hunplaced⟩ :=
    h.releaseAll.1.unplaced_loadFrom machine.cache.released_releaseAll hge start 0 w rest
  refine ⟨cache, ?_, hunplaced⟩
  rw [load_of_le hle, hwords, hload]
  rfl

theorem Reached.delay_eq (h : Reached mode machine) :
    machine.memory.delay = machine.config.memory.delay := by
  induction h with
  | fresh hbuild lines =>
      have hdelay := delay_of_build hbuild
      exact hdelay
  | @load machine h start program ih =>
      rcases Nat.lt_or_ge machine.memory.capacity (withHalt program).length with hlt | hle
      · rw [load_of_lt hlt]
        exact ih
      · rcases Nat.lt_or_ge machine.config.memory.delay machine.loadTries with htries | htries
        · obtain ⟨cache, hload, hplaced⟩ := placed_load h.coherent ih start hle htries
          rw [hload]
          exact (congrArg Prod.snd hplaced.shape_eq).trans ih
        · obtain ⟨cache, hload, hunplaced⟩ := unplaced_load h.coherent ih start hle htries
          rw [hload]
          exact (congrArg Prod.snd hunplaced.shape_eq).trans ih
  | start _ address pipelined listening ih => exact ih
  | step _ ih => exact delay_step ih
  | abort _ ih => exact ih
  | reset _ hreset ih =>
      obtain ⟨built, hbuild, rfl⟩ := ok_of_map hreset
      have hdelay := delay_of_build hbuild
      exact hdelay

-- Only a program that fits can be loaded, and only with tries enough.
theorem Reached.fits_of_load (h : Reached mode machine) {start count : Nat} {program : List Word}
    {loaded : Machine} (hload : machine.load start program = (.ok count, loaded)) :
    (withHalt program).length ≤ machine.memory.capacity ∧
      machine.config.memory.delay < machine.loadTries := by
  rcases Nat.lt_or_ge machine.memory.capacity (withHalt program).length with hlt | hle
  · rw [load_of_lt hlt] at hload
    cases (Prod.mk.inj hload).1
  · rcases Nat.lt_or_ge machine.config.memory.delay machine.loadTries with htries | htries
    · exact ⟨hle, htries⟩
    · obtain ⟨cache, hfails, -⟩ := unplaced_load h.coherent h.delay_eq start hle htries
      rw [hfails] at hload
      cases (Prod.mk.inj hload).1

-- A program that fits is put over what could be seen before.
theorem Reached.view_load (h : Reached mode machine) {start : Nat} {program : List Word}
    (hle : (withHalt program).length ≤ machine.memory.capacity)
    (hbound : start + (withHalt program).length ≤ unsignedBound)
    (htries : machine.config.memory.delay < machine.loadTries) :
    ∃ cache, machine.load start program =
      (.ok (withHalt program).length, { machine with cache := cache }) ∧
      Cache.Placed machine.cache.releaseAll cache (Log.places start (withHalt program)) ∧
      cache.view =
        MemoryView.putAll machine.memory.capacity machine.peek start (withHalt program) := by
  obtain ⟨cache, hload, hplaced⟩ := placed_load h.coherent h.delay_eq start hle htries
  rw [Log.loaded_of_le hbound] at hplaced
  refine ⟨cache, hload, hplaced, ?_⟩
  rw [hplaced.presents.view_eq, MemoryView.putLog_places, h.coherent.releaseAll.2]
  rfl

-- A program that fits stands in memory word for word after it is loaded, nothing else has changed,
-- and no line of the cache is left that could show what was there before. Where there are too few
-- tries for a memory as slow as this one, loading gives up at the first word, and nothing has
-- changed.
theorem load_of_reached (h : Reached mode machine) (start : Nat) (program : List Word) :
    let words := withHalt program
    let capacity := machine.memory.capacity
    (capacity < words.length →
      machine.load start program = (.error (.tooLarge words.length capacity), machine)) ∧
    (words.length ≤ capacity → start + words.length ≤ unsignedBound →
      (machine.config.memory.delay < machine.loadTries → ∃ loaded, machine.load start program =
        (.ok words.length, loaded) ∧
        (∀ k (hk : k < words.length), loaded.peek (start + k) = words[k]) ∧
        (∀ address, (∀ k < words.length, address % capacity ≠ (start + k) % capacity) →
          loaded.peek address = machine.peek address) ∧
        ∀ line ∈ loaded.cache.allLines, line.valid = true → ∀ k < words.length,
          line.line.contains ((start + k) % capacity) = false) ∧
      (machine.loadTries ≤ machine.config.memory.delay → ∃ kept, machine.load start program =
        (.error (.unanswered 0 start ⟨machine.loadTries⟩), kept) ∧ kept.peek = machine.peek)) := by
  intro words capacity
  refine ⟨load_of_lt, fun hle hbound => ⟨fun htries => ?_, fun htries => ?_⟩⟩
  · obtain ⟨cache, hload, hplaced, hview⟩ := h.view_load hle hbound htries
    refine ⟨_, hload, fun k hk => ?_, fun address hother => ?_, fun line hline hvalid k hk => ?_⟩
    · show cache.view (start + k) = words[k]
      rw [hview, MemoryView.putAll_of_eq hle hk rfl]
    · show cache.view address = machine.peek address
      rw [hview, MemoryView.putAll_of_ne hother]
    · have hcapacity : cache.memory.capacity = capacity :=
        MainMemory.capacity_congr hplaced.presents.lineCount_eq
      have hmissed := hplaced.missed _ (Log.mem_places hk)
      have hnot := hplaced.presents.coherent.not_contains_of_misses hmissed hline hvalid
      rwa [MainMemory.wrap, hcapacity] at hnot
  · obtain ⟨cache, hload, hunplaced⟩ := unplaced_load h.coherent h.delay_eq start hle htries
    have hpositive : 0 < words.length := length_withHalt_pos program
    rw [Nat.mod_eq_of_lt (by omega)] at hload
    exact ⟨_, hload, hunplaced.presents.view_eq.trans h.coherent.releaseAll.2⟩

-- A run was left with its first line in the cache. The program goes over the end of memory.
theorem load_of_interrupted :
    ∃ machine, build { memory := ⟨2, 1⟩, cache := ⟨4, false⟩ } = .ok machine ∧
      let left := ((machine.load 0 [7, 8, 9]).2.begun 0 false .cache false).after 4
      left.cache.allLines.any (·.valid) = true ∧
      (∃ loaded, left.load 6 [1, 2] = (.ok 3, loaded) ∧ loaded.peek 6 = 1 ∧ loaded.peek 7 = 2 ∧
        loaded.peek 8 = Word.halt ∧ loaded.peek 1 = 8 ∧
        ∀ line ∈ loaded.cache.allLines, line.valid = true → line.line.contains 0 = false) ∧
      left.load 5 (.replicate 8 3) = (.error (.tooLarge 9 8), left) := by
  have hbuild : build { memory := ⟨2, 1⟩, cache := ⟨4, false⟩ } = .ok _ := rfl
  refine ⟨_, hbuild, ?_⟩
  intro left
  have hleft : Reached .cache left :=
    ((((((Reached.built hbuild).load 0 [7, 8, 9]).start 0 false false).step).step).step).step
  have hcapacity : left.memory.capacity = 8 := by decide +kernel
  have hsecond : left.peek 1 = 8 := by decide +kernel
  refine ⟨by decide +kernel, ?_, ?_⟩
  · obtain ⟨loaded, hload, hwords, hothers, hlines⟩ :=
      ((load_of_reached hleft 6 [1, 2]).2 (by rw [hcapacity]; decide) (by decide)).1
        (delay_lt_loadTries (by decide +kernel))
    refine ⟨loaded, hload, hwords 0 (by decide), hwords 1 (by decide), hwords 2 (by decide), ?_, ?_⟩
    · rw [hothers 1 (by rw [hcapacity]; decide), hsecond]
    · intro line hline hvalid
      have hnot := hlines line hline hvalid 2 (by decide)
      rwa [hcapacity] at hnot
  · have hlarge := (load_of_reached hleft 5 (.replicate 8 3)).1 (by rw [hcapacity]; decide)
    rw [hcapacity] at hlarge
    exact hlarge

-- The fastest memory of all for which no try is left.
theorem load_untried :
    ∃ machine, build { memory := ⟨1, 0x3fffffffffffffff⟩, cache := ⟨4, false⟩ } = .ok machine ∧
      (withHalt []).length ≤ machine.memory.capacity ∧
      (machine.load 0 []).1 = .error (.unanswered 0 0 ⟨0⟩) ∧
      (machine.load 0 []).2.peek 0 ≠ Word.halt :=
  ⟨_, rfl, by decide +kernel, by decide +kernel, by decide +kernel⟩

end PipelinedProcessor.Machine
