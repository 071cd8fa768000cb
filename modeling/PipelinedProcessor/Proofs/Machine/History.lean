import Mathlib.Data.Prod.Basic
import PipelinedProcessor.Proofs.Architecture.Stores
import PipelinedProcessor.Proofs.Cache.Shadowing
import PipelinedProcessor.Proofs.Machine.DirectMode
import PipelinedProcessor.Proofs.Machine.Loading
import PipelinedProcessor.Proofs.Machine.Overlap

namespace PipelinedProcessor

open LawfulStorage LiveStorage

-- Nothing has been written to a memory that is new.
theorem MainMemory.peek_zeroed (lineCount delay : Nat) (h : 0 < lineCount) :
    (zeroed lineCount delay h).peek = fun _ => 0 := by
  funext address
  have hwords : (zeroed lineCount delay h).peekWords address = .replicate lineLength 0 :=
    Vector.getElem_replicate _
  have hword :
      (Vector.replicate lineLength (0 : Word))[(zeroed lineCount delay h).offset address] = 0 :=
    Vector.getElem_replicate _
  rw [peek, hwords]
  exact hword

namespace Machine

-- The state in which a run begins if every address has the word that was written to it last.
def recalled (machine : Machine) (log : Log) (address : Nat) : ArchState :=
  (machine.startState address).withMemory (Log.latest machine.memory.capacity log)

-- A run on main memory that keeps apart from the cache. It reads no word that was written in the
-- cache only, and writes to no line that the cache has.
structure Apart (machine : Machine) (s : ArchState) (count : Nat) : Prop where
  reads : ∀ i ≤ count, ∀ x ∈ (s.after machine.memory.capacity i).reads,
    machine.cache.outdates x = false
  stores : ∀ i < count, ∀ entry ∈ (s.after machine.memory.capacity i).stores,
    machine.cache.shadows entry.1 = false

instance (machine : Machine) (s : ArchState) (count : Nat) : Decidable (machine.Apart s count) :=
  decidable_of_iff
    ((∀ i ≤ count, ∀ x ∈ (s.after machine.memory.capacity i).reads,
      machine.cache.outdates x = false) ∧
      ∀ i < count, ∀ entry ∈ (s.after machine.memory.capacity i).stores,
      machine.cache.shadows entry.1 = false)
    ⟨fun h => ⟨h.1, h.2⟩, fun h => ⟨h.reads, h.stores⟩⟩

-- Loads, and runs without overlap to the word that halts, each of them through the cache or on main
-- memory, with all that was written on the way.
inductive History : Machine → Log → Prop where
  | built {config : Config} {machine : Machine} (hbuild : build config = .ok machine) :
      History machine []
  | load {machine loaded : Machine} {log : Log} {start count : Nat} {program : List Word}
      (h : History machine log) (hload : machine.load start program = (.ok count, loaded)) :
      History loaded (log ++ Log.loaded start (withHalt program))
  | refused {machine loaded : Machine} {log : Log} {start : Nat} {program : List Word}
      {reason : LoadError}
      (h : History machine log) (hload : machine.load start program = (.error reason, loaded)) :
        History loaded log
  | run {machine final : Machine} {log : Log} {address : Nat} {mode : MemoryMode} {listening : Bool}
      {report : Report}
      (h : History machine log)
        (hrun : machine.run address false mode listening = (.ok report, final))
      (hapart : mode = .direct → machine.Apart (machine.recalled log address) report.retired) :
      History final
        (log ++ (machine.recalled log address).storesIn machine.memory.capacity report.retired)

-- A run of so many instructions in which every word that is read is the one that was written there
-- last.
structure Recalls (capacity : Nat) (log : Log) (s : ArchState) (count cycles : Nat)
    (machine : Machine) : Prop where
  -- the instructions are those of the instruction set, from that state to the word that halts
  halts : machine.Halts (fun n => s.after capacity n) count cycles
  agrees : ∀ n, (machine.after (n + 1)).pipeline.retired ≠ (machine.after n).pipeline.retired →
    (machine.after (n + 1)).state = s.after capacity (machine.after (n + 1)).pipeline.retired
  -- which reads what was written before the run or by an instruction before
  memory : ∀ n, (s.after capacity n).memory = Log.latest capacity (log ++ s.storesIn capacity n)

-- What every such history keeps.
structure Upright (machine : Machine) (log : Log) : Prop where
  coherent : Cache.Coherent machine.cache
  delay_eq : machine.memory.delay = machine.config.memory.delay
  peek_eq : machine.peek = Log.latest machine.memory.capacity log

section

variable {machine final : Machine} {log : Log} {address : Nat} {listening : Bool} {report : Report}

theorem memory_recalled (machine : Machine) (log : Log) (address n : Nat) :
    ((machine.recalled log address).after machine.memory.capacity n).memory =
      Log.latest machine.memory.capacity
        (log ++ (machine.recalled log address).storesIn machine.memory.capacity n) := by
  rw [ArchState.after_memory, Log.latest_append]
  rfl

-- On main memory the cache stays as it is.

theorem cache_step_direct (hmode : machine.mode = .direct)
    (hfree : machine.cache.reservations = .replicate 6 none) :
    ∃ memory, machine.step.2.cache = machine.cache.backedBy memory := by
  have hcycle : ∃ memory, machine.cycle.2.cache = machine.cache.backedBy memory := by
    obtain ⟨config, mode, registers, vectors, pipeline, listening, reports, cache⟩ := machine
    obtain rfl : mode = .direct := hmode
    exact ⟨_, rfl⟩
  obtain ⟨memory, hcycle⟩ := hcycle
  rcases machine.step_of_cycle.2 with hcache | hcache
  · exact ⟨memory, hcache.trans hcycle⟩
  · refine ⟨memory.releaseAll, ?_⟩
    rw [hcache, hcycle, Cache.releaseAll, Cache.changeMemory_eq, ← hfree]
    rfl

theorem cache_after_direct (hmode : machine.mode = .direct)
    (hfree : machine.cache.reservations = .replicate 6 none) (n : Nat) :
    ∃ memory, (machine.after n).cache = machine.cache.backedBy memory := by
  induction n with
  | zero => exact ⟨machine.memory, rfl⟩
  | succ n ih =>
      obtain ⟨memory, hcache⟩ := ih
      obtain ⟨after, hafter⟩ :=
        cache_step_direct (after_withoutCache hmode n).2 (by rw [hcache]; exact hfree)
      exact ⟨after, by rw [Machine.after, hafter, hcache]; rfl⟩

-- Nothing retires behind the word that halts.
theorem Interprets.retired_le_of_halted {capacity count cycles : Nat} {s : ArchState}
    (h : machine.Interprets capacity s) (hhalted : (machine.after cycles).step.1 = .ok .halted)
    (hretired : (machine.after (cycles + 1)).pipeline.retired = count) (n : Nat) :
    (machine.after n).pipeline.retired ≤ count := by
  obtain ⟨hlast, -⟩ := h.halted cycles count hhalted hretired
  by_contra hbehind
  obtain ⟨t, ht⟩ := h.runs n count (Nat.lt_of_not_le hbehind)
  rw [hlast] at ht
  cases ht

namespace Upright

variable (h : machine.Upright log)

include h

theorem recalled_eq (address : Nat) :
    machine.recalled log address = machine.startState address := by
  rw [recalled, ← h.peek_eq]
  rfl

-- Where no line holds words that memory has not got, memory has the word that was written last.
theorem peek_eq_latest {x : Nat} (hclean : machine.cache.outdates x = false) :
    machine.memory.peek x = Log.latest machine.memory.capacity log x := by
  rw [← h.peek_eq]
  exact (h.coherent.view_eq_peek hclean).symm

section

variable {count k : Nat} (hapart : machine.Apart (machine.recalled log address) count)
  (hk : k ≤ count)

include hapart hk

-- Seen past the cache such a run takes the same course.
theorem after_past : (machine.withoutCache.startState address).after machine.memory.capacity k =
    ((machine.recalled log address).after machine.memory.capacity k).withMemory
      (MemoryView.putLog machine.memory.capacity machine.memory.peek
        ((machine.recalled log address).storesIn machine.memory.capacity k)) := by
  have hstart : machine.withoutCache.startState address =
      (machine.recalled log address).withMemory machine.memory.peek :=
    congrArg (machine.startState address).withMemory (Cache.view_empty 1 false machine.memory)
  rw [hstart]
  refine ArchState.after_withMemory fun i hi x hx => h.peek_eq_latest (hapart.reads i ?_ x hx)
  exact Nat.le_of_lt (Nat.lt_of_lt_of_le hi hk)

-- It writes to no word that the cache has.
omit h in
theorem kept_past {x : Nat} (hshadows : machine.cache.shadows x = true) :
    ∀ entry ∈ (machine.recalled log address).storesIn machine.memory.capacity k,
      x % machine.memory.capacity ≠ entry.1 % machine.memory.capacity := by
  intro entry hentry hsame
  obtain ⟨i, hi, hstore⟩ := List.mem_flatMap.mp hentry
  rw [machine.cache.shadows_congr hsame] at hshadows
  rw [hapart.stores i (Nat.lt_of_lt_of_le (List.mem_range.mp hi) hk) entry hstore] at hshadows
  cases hshadows

-- Through the cache, as it was left, the state is that of the course too.
theorem state_past {next : Machine} {memory : MainMemory}
    (hcache : next.cache = machine.cache.releaseAll.backedBy memory)
    (hcount : memory.lineCount = machine.memory.lineCount)
    (hstate : next.withoutCache.state = (machine.withoutCache.startState address).after
      machine.memory.capacity k) :
    next.state = (machine.recalled log address).after machine.memory.capacity k ∧
    Cache.Coherent next.cache := by
  rw [h.after_past hapart hk] at hstate
  have hmemory : next.memory = memory := congrArg Cache.memory hcache
  have hpeek : memory.peek = MemoryView.putLog machine.memory.capacity machine.memory.peek
      ((machine.recalled log address).storesIn machine.memory.capacity k) := by
    rw [← hmemory]
    exact (Cache.view_empty 1 false next.memory).symm.trans (congrArg ArchState.memory hstate)
  obtain ⟨hcoherent, hview⟩ := h.coherent.releaseAll
  have hshape : memory.lineCount = machine.cache.releaseAll.memory.lineCount := hcount
  constructor
  · have hsame :
        next.peek = ((machine.recalled log address).after machine.memory.capacity k).memory := by
      funext x
      rw [ArchState.after_memory, peek, hcache, Cache.view_backedBy hshape, hview, hpeek]
      by_cases hshadows : machine.cache.shadows x = true
      · rw [if_pos (show machine.cache.releaseAll.shadows x = true from hshadows),
          MemoryView.putLog_of_ne (kept_past hapart hk hshadows)]
        exact congrFun h.peek_eq x
      · rw [if_neg (show ¬machine.cache.releaseAll.shadows x = true from hshadows)]
        refine MemoryView.putLog_congr (h.peek_eq_latest ?_) _
        exact Bool.eq_false_iff.mpr fun houtdates => hshadows (Cache.shadows_of_outdates houtdates)
    calc next.state
      _ = next.withoutCache.state.withMemory next.peek := rfl
      _ = _ := by rw [hstate, hsame]; rfl
  · rw [hcache]
    refine hcoherent.backedBy hshape fun x hshadows => ?_
    rw [hpeek, MemoryView.putLog_of_ne (kept_past hapart hk hshadows)]
    rfl

theorem state_after_past {n : Nat}
    (hstate : ((machine.withoutCache.begun address false .direct listening).after n).state =
      (machine.withoutCache.startState address).after machine.memory.capacity k) :
    ((machine.begun address false .direct listening).after n).state =
        (machine.recalled log address).after machine.memory.capacity k ∧
      Cache.Coherent ((machine.begun address false .direct listening).after n).cache := by
  rw [(machine.after_begun_withoutCache address false listening n).1] at hstate
  obtain ⟨memory, hcache⟩ : ∃ memory,
      ((machine.begun address false .direct listening).after n).cache =
      machine.cache.releaseAll.backedBy memory := cache_after_direct rfl rfl n
  have hshape := (machine.begun address false .direct listening).shape_after n
  rw [show ((machine.begun address false .direct listening).after n).memory =
    memory from congrArg Cache.memory hcache] at hshape
  exact h.state_past hapart hk hcache (congrArg Prod.fst hshape) hstate

-- What is read next is what was written last.
theorem word_past :
    ((machine.withoutCache.startState address).after machine.memory.capacity k).word =
    ((machine.recalled log address).after machine.memory.capacity k).word := by
  rw [h.after_past hapart hk]
  show MemoryView.putLog _ _ _ _ =
    ((machine.recalled log address).after machine.memory.capacity k).memory _
  rw [ArchState.after_memory]
  exact MemoryView.putLog_congr (h.peek_eq_latest (hapart.reads k hk _ List.mem_cons_self)) _

-- So it comes to the same word that halts.
omit hk in
theorem halts_past {cycles : Nat}
    (hhalts : (machine.withoutCache.begun address false .direct listening).Halts
      (machine.withoutCache.course address) count cycles) :
    (machine.begun address false .direct listening).Halts
        (fun n => (machine.recalled log address).after machine.memory.capacity n) count cycles ∧
      Cache.Coherent
        ((machine.begun address false .direct listening).after (cycles + 1)).cache := by
  have hpast := machine.after_begun_withoutCache address false listening
  obtain ⟨hstate, hcoherent⟩ := h.state_after_past hapart (Nat.le_refl count) hhalts.state
  refine ⟨⟨fun i hi => ?_, ?_, ?_, ?_, hstate, fun n hn => ?_⟩, hcoherent⟩
  · rw [← (hpast i).2, hhalts.running i hi]
  · rw [← (hpast cycles).2, hhalts.halted]
  · rw [← hhalts.retired, (hpast (cycles + 1)).1]
    rfl
  · rw [← hhalts.haltId, (hpast (cycles + 1)).1]
    rfl
  · have hretirements := hhalts.retirements n hn
    rw [begun_withoutCache, retirements_withoutCache rfl] at hretirements
    rw [hretirements]
    refine List.map_congr_left fun i hi => ?_
    have hle : i ≤ count := Nat.le_of_lt (List.mem_range.mp hi)
    have haddress : (machine.withoutCache.course address i).address = _ :=
      congrArg ArchState.address (h.after_past hapart hle)
    have hword : (machine.withoutCache.course address i).word = _ := h.word_past hapart hle
    rw [haddress, hword]
    rfl

end

-- A run through the cache.
theorem recalls_cache {limit : Nat}
    (hrun : (machine.withCycles limit).run address false .cache listening = (.ok report, final)) :
    ∃ cycles < limit,
      (machine.begun address false .cache listening).Recalls machine.memory.capacity log
        (machine.recalled log address) report.retired cycles ∧
      final = ((machine.begun address false .cache listening).after (cycles + 1)).withCycles limit ∧
      Cache.Coherent final.cache := by
  obtain ⟨cycles, hlimit, hhalted, rfl, rfl⟩ := halted_of_run hrun
  obtain ⟨count, hhalts, -⟩ := Cache.port.exists_halts_of_good h.coherent hhalted
  have hinterprets := Cache.port.interprets_of_good h.coherent address listening
  obtain rfl := hhalts.retired
  refine ⟨cycles, hlimit, ⟨?_, ?_, machine.memory_recalled log address⟩, rfl, ?_⟩
  · rw [h.recalled_eq]
    exact hhalts
  · rw [h.recalled_eq]
    exact hinterprets.agrees
  · have hready : Cache.port.Ready (machine.begun address false .cache listening) :=
      ⟨Cache.port.good_release h.coherent, fun _ => rfl⟩
    exact (hready.after (cycles + 1)).good

-- A run on main memory that keeps apart from the cache.
theorem recalls_direct {limit : Nat}
    (hrun : (machine.withCycles limit).run address false .direct listening = (.ok report, final))
    (hapart : machine.Apart (machine.recalled log address) report.retired) : ∃ cycles < limit,
      (machine.begun address false .direct listening).Recalls machine.memory.capacity log
        (machine.recalled log address) report.retired cycles ∧
      final = ((machine.begun address false .direct listening).after
        (cycles + 1)).withCycles limit ∧
      Cache.Coherent final.cache := by
  obtain ⟨cycles, hlimit, hhalted, rfl, rfl⟩ := halted_of_run hrun
  have hpast := machine.after_begun_withoutCache address false listening
  have hretired (n : Nat) :
      ((machine.withoutCache.begun address false .direct listening).after n).pipeline.retired =
      ((machine.begun address false .direct listening).after n).pipeline.retired := by
    rw [(hpast n).1]
    rfl
  have hhalted' := (hpast cycles).2.trans hhalted
  have hinterprets : (machine.withoutCache.begun address false .direct listening).Interprets
      machine.memory.capacity (machine.withoutCache.startState address) :=
    MainMemory.port.interprets_of_good machine.good_withoutCache address listening
  obtain ⟨count, hhalts, -⟩ : ∃ count,
      (machine.withoutCache.begun address false .direct listening).Halts
      (machine.withoutCache.course address) count cycles ∧ _ :=
    MainMemory.port.exists_halts_of_good machine.good_withoutCache hhalted'
  obtain rfl :
      ((machine.begun address false .direct listening).after (cycles + 1)).pipeline.retired =
        count :=
    (hretired _).symm.trans hhalts.retired
  obtain ⟨hrecalled, hcoherent⟩ := h.halts_past hapart hhalts
  refine ⟨cycles, hlimit, ⟨hrecalled, ?_, machine.memory_recalled log address⟩, rfl, hcoherent⟩
  intro n hchanged
  have hagrees := hinterprets.agrees n (by rw [hretired, hretired]; exact hchanged)
  have hle := hinterprets.retired_le_of_halted hhalted' hhalts.retired (n + 1)
  rw [hretired] at hagrees hle
  exact (h.state_after_past hapart hle hagrees).1

-- Such a run leaves the machine as it found it, with what was written in between.
theorem after_run {mode : MemoryMode} {limit count cycles : Nat}
    (hrecalls : (machine.begun address false mode listening).Recalls machine.memory.capacity log
      (machine.recalled log address) count cycles)
    (hcoherent : Cache.Coherent
      ((machine.begun address false mode listening).after (cycles + 1)).cache) :
    (((machine.begun address false mode listening).after (cycles + 1)).withCycles limit).Upright
      (log ++ (machine.recalled log address).storesIn machine.memory.capacity count) where
  coherent := hcoherent
  delay_eq := by
    have hdelay : (machine.begun address false mode listening).memory.delay =
        (machine.begun address false mode listening).config.memory.delay := h.delay_eq
    exact delay_after hdelay (cycles + 1)
  peek_eq := by
    have hcapacity := (machine.begun address false mode listening).capacity_after (cycles + 1)
    have hmemory := (congrArg ArchState.memory hrecalls.halts.state).trans (hrecalls.memory count)
    refine hmemory.trans ?_
    exact congrArg (fun capacity => Log.latest capacity (log ++ _)) hcapacity.symm

theorem recalls {mode : MemoryMode}
    (hrun : machine.run address false mode listening = (.ok report, final))
    (hapart : mode = .direct → machine.Apart (machine.recalled log address) report.retired) :
    ∃ cycles,
      (machine.begun address false mode listening).Recalls machine.memory.capacity log
        (machine.recalled log address) report.retired cycles ∧
      final.state = (machine.recalled log address).after machine.memory.capacity report.retired ∧
      final.Upright (log ++ (machine.recalled log address).storesIn machine.memory.capacity
        report.retired) := by
  have hlimited :
      (machine.withCycles machine.config.run.maxCycles).run address false mode listening =
      (.ok report, final) := hrun
  cases mode with
  | cache =>
      obtain ⟨cycles, -, hrecalls, rfl, hcoherent⟩ := h.recalls_cache hlimited
      exact ⟨cycles, hrecalls, hrecalls.halts.state, h.after_run hrecalls hcoherent⟩
  | direct =>
      obtain ⟨cycles, -, hrecalls, rfl, hcoherent⟩ := h.recalls_direct hlimited (hapart rfl)
      exact ⟨cycles, hrecalls, hrecalls.halts.state, h.after_run hrecalls hcoherent⟩

theorem load {loaded : Machine} {start count : Nat} {program : List Word}
    (hload : machine.load start program = (.ok count, loaded)) :
    loaded.Upright (log ++ Log.loaded start (withHalt program)) := by
  rcases Nat.lt_or_ge machine.memory.capacity (withHalt program).length with hlt | hle
  · rw [load_of_lt hlt] at hload
    cases (Prod.mk.inj hload).1
  · rcases Nat.lt_or_ge machine.config.memory.delay machine.loadTries with htries | htries
    · obtain ⟨cache, hplace, hplaced⟩ := placed_load h.coherent h.delay_eq start hle htries
      obtain rfl := (Prod.mk.inj (hplace.symm.trans hload)).2
      have hcapacity : cache.memory.capacity = machine.memory.capacity :=
        MainMemory.capacity_congr hplaced.presents.lineCount_eq
      refine ⟨hplaced.presents.coherent, (congrArg Prod.snd hplaced.shape_eq).trans h.delay_eq, ?_⟩
      calc cache.view
        _ = MemoryView.putLog machine.memory.capacity machine.peek
          (Log.loaded start (withHalt program)) := by
          rw [hplaced.presents.view_eq, h.coherent.releaseAll.2]
          rfl
        _ = Log.latest machine.memory.capacity (log ++ Log.loaded start (withHalt program)) := by
          rw [Log.latest_append, h.peek_eq]
        _ = _ := congrArg (fun capacity => Log.latest capacity (log ++ _)) hcapacity.symm
    · obtain ⟨cache, hkept, -⟩ := unplaced_load h.coherent h.delay_eq start hle htries
      rw [hkept] at hload
      cases (Prod.mk.inj hload).1

-- A program that is not loaded leaves every word as it was.
theorem refused {loaded : Machine} {start : Nat} {program : List Word} {reason : LoadError}
    (hload : machine.load start program = (.error reason, loaded)) : loaded.Upright log := by
  rcases Nat.lt_or_ge machine.memory.capacity (withHalt program).length with hlt | hle
  · rw [load_of_lt hlt] at hload
    exact (Prod.mk.inj hload).2 ▸ h
  · rcases Nat.lt_or_ge machine.config.memory.delay machine.loadTries with htries | htries
    · obtain ⟨cache, hplace, -⟩ := placed_load h.coherent h.delay_eq start hle htries
      rw [hplace] at hload
      cases (Prod.mk.inj hload).1
    · obtain ⟨cache, hkept, hunplaced⟩ := unplaced_load h.coherent h.delay_eq start hle htries
      obtain rfl := (Prod.mk.inj (hkept.symm.trans hload)).2
      have hcapacity : cache.memory.capacity = machine.memory.capacity :=
        MainMemory.capacity_congr hunplaced.presents.lineCount_eq
      refine ⟨hunplaced.presents.coherent,
        (congrArg Prod.snd hunplaced.shape_eq).trans h.delay_eq, ?_⟩
      calc cache.view
        _ = Log.latest machine.memory.capacity log :=
          (hunplaced.presents.view_eq.trans h.coherent.releaseAll.2).trans h.peek_eq
        _ = _ := congrArg (fun capacity => Log.latest capacity log) hcapacity.symm

omit h in
theorem built {config : Config} (hbuild : build config = .ok machine) : machine.Upright [] where
  coherent := (Cache.port.good_build hbuild machine.cache.memory.lines).1
  delay_eq := delay_of_build hbuild
  peek_eq := by
    obtain ⟨-, rfl⟩ := eq_of_build hbuild
    exact (Cache.view_empty _ _ _).trans (MainMemory.peek_zeroed _ _ _)

end Upright

end

theorem History.upright {machine : Machine} {log : Log} (h : History machine log) :
    machine.Upright log := by
  induction h with
  | built hbuild => exact .built hbuild
  | load _ hload ih => exact ih.load hload
  | refused _ hload ih => exact ih.refused hload
  | run _ hrun hapart ih =>
      obtain ⟨-, -, -, hupright⟩ := ih.recalls hrun hapart
      exact hupright

-- Stores survive a change of the memory mode, as long as the runs on main memory keep apart from
-- the cache. Whatever was loaded and run before, every word that a run fetches or loads is the one
-- that was stored or loaded there last.
theorem recalls_of_history {machine final : Machine} {log : Log} (h : History machine log)
    {address : Nat} {mode : MemoryMode} {listening : Bool} {report : Report}
    (hrun : machine.run address false mode listening = (.ok report, final))
    (hapart : mode = .direct → machine.Apart (machine.recalled log address) report.retired) :
    ∃ cycles,
      (machine.begun address false mode listening).Recalls machine.memory.capacity log
        (machine.recalled log address) report.retired cycles ∧
      final.state =
        (machine.recalled log address).after machine.memory.capacity report.retired := by
  obtain ⟨cycles, hrecalls, hstate, -⟩ := h.upright.recalls hrun hapart
  exact ⟨cycles, hrecalls, hstate⟩

-- A word goes through memory from a run through the cache to one on main memory, which puts another
-- in its place for a last run through the cache.
theorem recalls_across_modes :
    ∃ fresh, build { memory := ⟨8, 1⟩, cache := ⟨4, false⟩, run := ⟨true, true, 100⟩ } = .ok fresh ∧
      let first := (fresh.load 0 ([.transferImmediate .load 1 16, .transferImmediate .store 1 7].map
        Instruction.encode)).2
      let second := ((first.run 0 false .cache false).2.load 4 ([.transfer .load 3 1,
        .transferImmediate .store 1 9].map Instruction.encode)).2
      let machine := (second.run 4 false .direct false).2
      ∃ log, History machine log ∧ Log.latest machine.memory.capacity log 16 = 9 ∧
        ∃ report final, machine.run 4 false .cache false = (.ok report, final) ∧ ∃ cycles,
          (machine.begun 4 false .cache false).Recalls machine.memory.capacity log
            (machine.recalled log 4) report.retired cycles ∧
          final.state = (machine.recalled log 4).after machine.memory.capacity report.retired := by
  have hbuild : build { memory := ⟨8, 1⟩, cache := ⟨4, false⟩, run := ⟨true, true, 100⟩ } = .ok _ :=
    rfl
  refine ⟨_, hbuild, ?_⟩
  intro first second machine
  have hfirst : History first _ :=
    (History.built hbuild).load
      (Prod.fst_eq_iff.mp (by decide +kernel : (Machine.load _ 0 _).1 = .ok 3))
  have hran : History (first.run 0 false .cache false).2 _ :=
    hfirst.run (Prod.fst_eq_iff.mp (by decide +kernel : (first.run 0 false .cache false).1 =
      .ok ⟨13, 2, 0, some 2⟩)) (by decide)
  have hsecond : History second _ :=
    hran.load (Prod.fst_eq_iff.mp (by decide +kernel : (Machine.load _ 4 _).1 = .ok 3))
  have hmachine : History machine _ :=
    hsecond.run (Prod.fst_eq_iff.mp (by decide +kernel : (second.run 4 false .direct false).1 =
      .ok ⟨16, 2, 0, some 2⟩))
      fun _ => by decide +kernel
  have hrun : machine.run 4 false .cache false =
      (.ok ⟨13, 2, 0, some 2⟩, (machine.run 4 false .cache false).2) :=
    Prod.fst_eq_iff.mp (by decide +kernel)
  exact ⟨_, hmachine, by decide +kernel, _, _, hrun, recalls_of_history hmachine hrun (by decide)⟩

-- Where a run on main memory does not keep apart, a word is lost that a run before has stored. It
-- is still in the cache, where all who ask the machine for it find it.
theorem lost_in_cache :
    ∃ fresh, build { memory := ⟨8, 0⟩, cache := ⟨4, true⟩, run := ⟨true, true, 100⟩ } = .ok fresh ∧
      let first := (fresh.load 0 ([.transferImmediate .load 1 16, .transferImmediate .load 2 7,
        .transfer .store 1 2].map Instruction.encode)).2
      let second :=
  ((first.run 0 false .cache false).2.load 4 ([.transfer .load 3 1].map Instruction.encode)).2
      ∃ log, History second log ∧ Log.latest second.memory.capacity log 16 = 7 ∧
      second.peek 16 = 7 ∧
        ∃ report final, second.run 4 false .direct false = (.ok report, final) ∧
        report.retired = 1 ∧
          (second.recalled log 4).instr = .transfer .load 3 1 ∧
          (second.recalled log 4).place 1 = 16 ∧
          ((second.recalled log 4).after second.memory.capacity 1).registers.read 3 = 7 ∧
          final.registers.read 3 = 0 := by
  have hbuild : build { memory := ⟨8, 0⟩, cache := ⟨4, true⟩, run := ⟨true, true, 100⟩ } = .ok _ :=
    rfl
  refine ⟨_, hbuild, ?_⟩
  intro first second
  have hfirst : History first _ :=
    (History.built hbuild).load
      (Prod.fst_eq_iff.mp (by decide +kernel : (Machine.load _ 0 _).1 = .ok 4))
  have hran : History (first.run 0 false .cache false).2 _ :=
    hfirst.run (Prod.fst_eq_iff.mp (by decide +kernel : (first.run 0 false .cache false).1 =
      .ok ⟨16, 3, 0, some 3⟩)) (by decide)
  have hsecond : History second _ :=
    hran.load (Prod.fst_eq_iff.mp (by decide +kernel : (Machine.load _ 4 _).1 = .ok 2))
  have hrun : second.run 4 false .direct false =
      (.ok ⟨6, 1, 0, some 1⟩, (second.run 4 false .direct false).2) :=
    Prod.fst_eq_iff.mp (by decide +kernel)
  exact ⟨_, hsecond, by decide +kernel, by decide +kernel, _, _, hrun,
    rfl, by decide +kernel, by decide +kernel,
    by decide +kernel, by decide +kernel⟩

end Machine

end PipelinedProcessor
