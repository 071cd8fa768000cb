import PipelinedProcessor.Proofs.Machine.Interpreter
import PipelinedProcessor.Proofs.Machine.Loading
import PipelinedProcessor.Proofs.Pipeline.Fetching

namespace PipelinedProcessor

open Flight LawfulStorage LiveStorage

namespace Machine

-- What the next cycle fetches, if it fetches anything.
def fetching (machine : Machine) : List Word := machine.pipeline.fetched machine.step.2.pipeline

-- All that is fetched in so many cycles, in its order.
def fetches : Nat → Machine → List Word
  | 0, _ => []
  | n + 1, machine => machine.fetches n ++ (machine.after n).fetching

-- Whether an instruction moves the counter in the next cycle.
def redirects (machine : Machine) : Bool :=
  machine.pipeline.redirects (⟨machine.registers, machine.vectors, machine.cache⟩ : Context Cache)

theorem fetches_step (machine : Machine) (n : Nat) :
    machine.fetches (n + 1) = machine.fetching ++ machine.step.2.fetches n := by
  induction n with
  | zero => exact List.nil_append _ |>.trans (List.append_nil _).symm
  | succ n ih => rw [fetches, ih, List.append_assoc, ← after_step, fetches]

end Machine

open Machine

section

variable {σ : Type} [Storage σ] [LawfulStorage σ] [LiveStorage σ] {port : Port σ}
  {machine : Machine}

-- What a cycle leaves behind, whatever it comes to.
theorem Port.later_step (hgood : port.Good machine.cache) (hmode : machine.mode = port.mode)
    (hwell : machine.pipeline.WellFormed) :
    Pipeline.Later machine.pipeline machine.step.2.pipeline := by
  obtain ⟨after, hstep, -⟩ := step_cases hgood hmode
  have hlater :
      Pipeline.Later machine.pipeline (machine.pipeline.step (port.context machine)).2.1 :=
    (Pipeline.later_kept machine.pipeline).step (.refl hwell)
  rwa [hstep] at hlater

-- A program as the counter goes through it from an address on, of which so much has been fetched.
structure Port.Straight (port : Port σ) (origin : Nat) (words : List Word) (machine : Machine)
    (got : List Word) :
    Prop where
  ready : port.Ready machine
  wellFormed : machine.pipeline.WellFormed
  initial : got <+: words
  going : machine.pipeline.running = true → machine.pipeline.haltId = none →
    machine.pipeline.Aimed machine.registers ∧
    machine.registers.counter = (origin + got.length) % Word.bound ∧
      Word.halt ∉ got

namespace Port.Straight

variable {origin : Nat} {words got : List Word}

-- The word that halts is the last, so that before it there is always one more.
omit [Storage σ] [LawfulStorage σ] [LiveStorage σ] in
theorem next_of_prefix (hgot : got <+: words) (hlast : words.getLast? = some Word.halt)
    (hnot : Word.halt ∉ got) :
    ∃ hk : got.length < words.length, got ++ [words[got.length]] <+: words := by
  obtain ⟨rest, rfl⟩ := hgot
  cases rest with
  | nil =>
      rw [List.append_nil] at hlast
      exact absurd (List.mem_of_getLast? hlast) hnot
  | cons w rest => exact ⟨by simp, rest, by simp⟩

-- A cycle of a run that is over.
theorem step_over (h : port.Straight origin words machine got)
    (hover : machine.pipeline.running = false) :
    port.Straight origin words machine.step.2 (got ++ machine.fetching) := by
  have hsame := step_of_over hover
  have hnothing : machine.fetching = [] :=
    Pipeline.fetched_of_same (by rw [hsame]; exact h.wellFormed) (by rw [hsame])
  rw [hnothing, List.append_nil, hsame]
  exact h

-- A cycle after the word that halts has come, when Fetch stays empty.
theorem step_halting (h : port.Straight origin words machine got)
    (hrunning : machine.pipeline.running = true) {id : Nat}
    (hhalt : machine.pipeline.haltId = some id) :
    port.Straight origin words machine.step.2 (got ++ machine.fetching) := by
  have hlater := later_step h.ready.good (h.ready.mode_eq hrunning) h.wellFormed
  have hnothing : machine.fetching = [] := by
    refine Pipeline.fetched_of_idle fun f hf => ?_
    rw [show machine.pipeline.slots.slot .fetch = none from (h.wellFormed.halting id hhalt).1] at hf
    cases hf
  rw [hnothing, List.append_nil]
  refine ⟨h.ready.step, hlater.wellFormed, h.initial, fun _ hnone => ?_⟩
  rw [hlater.haltId_eq id hhalt] at hnone
  cases hnone

-- A cycle before it: what comes, if anything does, is the word after those that have come.
theorem step_going (h : port.Straight origin words machine got)
    (hlast : words.getLast? = some Word.halt) (hstraight : machine.redirects = false)
    (hshown : ∀ k (hk : k < words.length),
      machine.step.2.peek ((origin + k) % Word.bound) = words[k])
    (hrunning : machine.pipeline.running = true) (hhalt : machine.pipeline.haltId = none) :
    port.Straight origin words machine.step.2 (got ++ machine.fetching) := by
  have hmode := h.ready.mode_eq hrunning
  have hwell' := (later_step h.ready.good hmode h.wellFormed).wellFormed
  obtain ⟨after, hstep, hgood, -, hcontext⟩ := step_cases h.ready.good hmode
  obtain ⟨haimed, hcounter, hnot⟩ := h.going hrunning hhalt
  have hstraight' : machine.pipeline.redirects (port.context machine) = false :=
    (machine.pipeline.redirects_recast _ _).symm.trans hstraight
  obtain ⟨hfetching, haimed', hok⟩ :=
    Pipeline.fetching_step h.wellFormed (port.sound h.ready.good) haimed hrunning hstraight' hstep
  obtain ⟨hk, hnext⟩ := next_of_prefix h.initial hlast hnot
  have hregisters {message : Message} (hanswer : machine.step.1 = .ok message) :
      machine.step.2.registers = after.registers :=
        congrArg Context.registers (hcontext message hanswer)
  have hword {w : Word} (hw : w = view after.memory machine.registers.counter) {message : Message}
      (hanswer : machine.step.1 = .ok message) : w = words[got.length] := by
    rw [hw, ← hcontext message hanswer, ← hshown _ hk, ← hcounter]
    exact congrFun (port.view_eq hgood) _
  rw [fetching]
  generalize machine.pipeline.fetched machine.step.2.pipeline = arrived at hfetching hok ⊢
  cases hfetching with
  | nothing hsame _ =>
      rw [List.append_nil]
      refine ⟨h.ready.step, hwell', h.initial, fun hrunning' _ => ?_⟩
      have hanswer := (Pipeline.ticked_of_step hrunning hstep).2.2.mp hrunning'
      rw [hregisters hanswer]
      exact ⟨haimed', hsame.trans hcounter, hnot⟩
  | @word w hw hne hmoved =>
      obtain ⟨message, hanswer⟩ := hok (List.cons_ne_nil _ _)
      have hnew := hword hw hanswer
      refine ⟨h.ready.step, hwell', hnew ▸ hnext, fun _ _ => ?_⟩
      rw [hregisters hanswer]
      refine ⟨haimed', ?_, ?_⟩
      · rw [hmoved, show (port.context machine).registers.counter =
          _ from hcounter, Nat.mod_add_mod, List.length_append,
          List.length_singleton, Nat.add_assoc]
      · rw [List.mem_append, List.mem_singleton, not_or]
        exact ⟨hnot, hne.symm⟩
  | halt hw hhalts =>
      obtain ⟨message, hanswer⟩ := hok (List.cons_ne_nil _ _)
      refine ⟨h.ready.step, hwell', hword hw hanswer ▸ hnext, fun _ hnone => ?_⟩
      rw [hnone] at hhalts
      cases hhalts

theorem step (h : port.Straight origin words machine got) (hlast : words.getLast? = some Word.halt)
    (hstraight : machine.redirects = false)
    (hshown : ∀ k (hk : k < words.length),
      machine.step.2.peek ((origin + k) % Word.bound) = words[k]) :
    port.Straight origin words machine.step.2 (got ++ machine.fetching) := by
  by_cases hrunning : machine.pipeline.running = true
  · cases hhalt : machine.pipeline.haltId with
    | none => exact h.step_going hlast hstraight hshown hrunning hhalt
    | some id => exact h.step_halting hrunning hhalt
  · exact h.step_over (Bool.eq_false_iff.mpr hrunning)

-- At every moment what has been fetched is the beginning of the program.
theorem after (h : port.Straight origin words machine []) (hlast : words.getLast? = some Word.halt)
    (n : Nat) (hstraight : ∀ i < n, (machine.after i).redirects = false)
    (hshown : ∀ i < n, ∀ k (hk : k < words.length),
      (machine.after (i + 1)).peek ((origin + k) % Word.bound) = words[k]) :
    port.Straight origin words (machine.after n) (machine.fetches n) := by
  induction n with
  | zero => exact h
  | succ n ih =>
      have hbefore := ih (fun i hi => hstraight i (by omega)) fun i hi => hshown i (by omega)
      exact hbefore.step hlast (hstraight n (by omega)) (hshown n (by omega))

end Port.Straight

namespace Port

theorem straight_begun (h : port.Ready machine) (address : Nat) (pipelined listening : Bool)
    (words : List Word) :
    port.Straight (min address (Word.bound - 1)) words
      (machine.begun address pipelined port.mode listening) [] := by
  refine ⟨⟨port.good_release h.good, fun _ => rfl⟩,
    Pipeline.wellFormed_start pipelined, List.nil_prefix,
    fun _ _ => ⟨fun f hf _ => ?_, ?_, List.not_mem_nil⟩⟩
  · obtain rfl := Option.some.inj ((Pipeline.lone_start pipelined).slot_eq.symm.trans hf)
    rfl
  · exact (machine.registers.counter_setCounter address).trans
      (Nat.mod_eq_of_lt (Registers.min_lt_bound address)).symm

-- A cycle in which memory makes the first instruction wait changes nothing but memory's patience.
theorem waited {f : Flight} (hgood : port.Good machine.cache) (hmode : machine.mode = port.mode)
    (hlone : machine.pipeline.Lone f) {memory : σ}
    (hread : Storage.read (port.get machine.cache) .fetch (f.target machine.registers) =
      (.wait, memory)) :
    machine.step.2.pipeline.Lone { f with address := some (f.target machine.registers) } ∧
      port.get machine.step.2.cache = memory ∧ machine.step.2.peek = machine.peek ∧
      machine.fetching = [] := by
  obtain ⟨after, hstep, hgood', -, hcontext⟩ := step_cases hgood hmode
  obtain ⟨p', hstep', hlone', hnothing⟩ :=
    Pipeline.Lone.step_of_wait hlone
      (show Storage.read (port.context machine).memory _ _ = _ from hread)
  rw [hstep] at hstep'
  obtain ⟨hanswer, hrest⟩ := Prod.mk.inj hstep'
  obtain ⟨rfl, rfl⟩ := Prod.mk.inj hrest
  have hmemory : port.get machine.step.2.cache = memory :=
    congrArg Context.memory (hcontext _ hanswer)
  refine ⟨hlone', hmemory, ?_, hnothing⟩
  have hview := (read_sound (port.sound hgood) hread).2.2.1
  have hafter := port.view_eq hgood'
  rw [hmemory, hview, port.view_eq hgood] at hafter
  exact hafter.symm

-- The first word arrives, as memory answers in the end.
theorem exists_fetches {f : Flight} (hgood : port.Good machine.cache)
    (hmode : machine.mode = port.mode) (hlone : machine.pipeline.Lone f)
    (howner : owner (port.get machine.cache) = none ∨ owner (port.get machine.cache) = some .fetch ∧
      Attends (port.get machine.cache) .fetch (.read (f.target machine.registers))) :
    ∃ n, machine.fetches n = [machine.peek (f.target machine.registers)] := by
  generalize hleft : (if owner (port.get machine.cache) = none then idle (port.get machine.cache)
    else patience (port.get machine.cache) .fetch (.read (f.target machine.registers))) = left
  induction left using Nat.strongRecOn generalizing machine f with
  | ind left ih =>
      obtain ⟨after, hstep, hgood', hmode', -⟩ := step_cases hgood hmode
      rcases hread : Storage.read (port.get machine.cache) .fetch (f.target machine.registers) with
        ⟨answer, memory⟩
      cases answer with
      | done w =>
          obtain ⟨-, -, -, hdone⟩ := read_sound (port.sound hgood) hread
          have harrived :
              machine.pipeline.fetched (machine.pipeline.step (port.context machine)).2.1 = [w] :=
            hlone.step_of_done (port.sound hgood) hread
          rw [hstep] at harrived
          refine ⟨1, ?_⟩
          rw [fetches, fetches, List.nil_append, show (machine.after 0).fetching =
            [w] from harrived, hdone w rfl, port.view_eq hgood]
          rfl
      | wait =>
          obtain ⟨hlone', hmemory, hpeek, hnothing⟩ := waited hgood hmode hlone hread
          obtain ⟨hmine, hattends, hless⟩ := wait_own howner (attempt_read hread)
          rw [hleft] at hless
          have hattended : owner (port.get machine.step.2.cache) = some .fetch ∧
              Attends (port.get machine.step.2.cache) .fetch
                (.read (f.target machine.registers)) := by
            rw [hmemory]
            exact ⟨hmine, hattends⟩
          obtain ⟨n, hn⟩ := ih _ hless hgood' (hmode'.trans hmode) hlone' (.inr hattended)
            (by rw [hattended.1, if_neg nofun, hmemory]; rfl)
          refine ⟨n + 1, ?_⟩
          rw [fetches_step, hn, hpeek, hnothing]
          rfl

theorem fetches_begun (h : port.Ready machine) (address : Nat) (pipelined listening : Bool)
    {words : List Word} (hlast : words.getLast? = some Word.halt) :
    let first := machine.begun address pipelined port.mode listening
    (∃ n, first.fetches n = [first.peek (min address (Word.bound - 1))]) ∧
    ∀ n, (∀ i < n, (first.after i).redirects = false) →
      (∀ i < n, ∀ k (hk : k < words.length),
        (first.after (i + 1)).peek ((min address (Word.bound - 1) + k) % Word.bound) = words[k]) →
      first.fetches n <+: words := by
  intro first
  have hbegun := port.straight_begun h address pipelined listening words
  refine ⟨?_, fun n hstraight hshown => (hbegun.after hlast n hstraight hshown).initial⟩
  have htarget : Flight.target { id := 0 } first.registers = min address (Word.bound - 1) :=
    machine.registers.counter_setCounter address
  rw [← htarget]
  exact exists_fetches hbegun.ready.good rfl (Pipeline.lone_start pipelined)
    (.inl (port.owner_eq rfl))

end Port

end

namespace Machine

-- Whether the counter of a run from an address comes by the places that so many words are loaded
-- to. An address past 32 bits becomes the last one there, and after that one comes the first.
def MeetsLoader (capacity start count : Nat) : Prop :=
  ∀ k < count, (min start (Word.bound - 1) + k) % Word.bound % capacity = (start + k) % capacity

theorem meetsLoader_of_dvd {capacity start : Nat} (h : capacity ∣ Word.bound)
    (hstart : start < Word.bound) (count : Nat) : MeetsLoader capacity start count := by
  intro k _
  rw [Nat.min_eq_left (by omega), Nat.mod_mod_of_dvd _ h]

theorem peek_congr (machine : Machine) {a b : Nat}
    (h : a % machine.memory.capacity = b % machine.memory.capacity) :
    machine.peek a = machine.peek b := by
  have hwraps := machine.cache.view_wraps
  exact (hwraps a).symm.trans ((congrArg machine.cache.view h).trans (hwraps b))

-- A run at the address of a program that has just been loaded fetches its words one after the
-- other, from the first on and up to the word that halts, as long as no instruction moves the
-- counter and the program stands in memory as it was loaded.
theorem fetches_of_loaded {mode : MemoryMode} {machine : Machine} (h : Reached mode machine)
    (start : Nat) (program : List Word) {count : Nat} {loaded : Machine}
    (hload : machine.load start program = (.ok count, loaded))
    (hbound : start + (withHalt program).length ≤ unsignedBound)
    (hmeets : MeetsLoader machine.memory.capacity start (withHalt program).length)
    (pipelined listening : Bool) :
    let words := withHalt program
    let first := loaded.begun start pipelined mode listening
    (∃ n, first.fetches n = words.take 1) ∧
    ∀ n, (∀ i < n, (first.after i).redirects = false) →
      (∀ i ≤ n, ∀ k (hk : k < words.length), (first.after i).peek (start + k) = words[k]) →
      first.fetches n <+: words := by
  intro words first
  have hafter : Reached mode loaded := by
    have hreached := h.load start program
    rwa [hload] at hreached
  obtain ⟨hle, htries⟩ := h.fits_of_load hload
  obtain ⟨cache, hplaces, hplaced, hview⟩ := h.view_load hle hbound htries
  have hcache : loaded.cache = cache :=
    congrArg (fun result => result.2.cache) (hload.symm.trans hplaces)
  have hcapacity (n : Nat) : (first.after n).memory.capacity = machine.memory.capacity := by
    have hlines : first.memory.lineCount = machine.memory.lineCount := by
      show loaded.cache.memory.lineCount = _
      rw [hcache]
      exact hplaced.presents.lineCount_eq
    rw [capacity_after]
    exact MainMemory.capacity_congr hlines
  have hloaded (k : Nat) (hk : k < words.length) : first.peek (start + k) = words[k] := by
    have hreleased : first.peek = loaded.cache.view := hafter.coherent.releaseAll.2
    rw [hreleased, hcache, hview, MemoryView.putAll_of_eq hle hk rfl]
  have hsame (n k : Nat) (hk : k < words.length) :
      (first.after n).peek ((min start (Word.bound - 1) + k) % Word.bound) =
        (first.after n).peek (start + k) := by
    refine (first.after n).peek_congr ?_
    rw [hcapacity]
    exact hmeets k hk
  have hfetches : (∃ n, first.fetches n = [first.peek (min start (Word.bound - 1))]) ∧
      ∀ n, (∀ i < n, (first.after i).redirects = false) →
        (∀ i < n, ∀ k (hk : k < words.length),
          (first.after (i + 1)).peek ((min start (Word.bound - 1) + k) % Word.bound) = words[k]) →
        first.fetches n <+: words := by
    have hlast := getLast?_withHalt program
    cases mode with
    | cache =>
        exact Cache.port.fetches_begun (hafter.ready Cache.port) start pipelined listening hlast
    | direct =>
        exact MainMemory.port.fetches_begun (hafter.ready MainMemory.port) start pipelined
          listening hlast
  obtain ⟨⟨n, hn⟩, hmore⟩ := hfetches
  refine ⟨⟨n, ?_⟩, fun n hstraight hkept => hmore n hstraight fun i hi k hk => ?_⟩
  · have hpositive : 0 < words.length :=
      List.length_pos_of_mem (List.mem_of_getLast? (getLast?_withHalt program))
    have hfirst : first.peek (min start (Word.bound - 1)) = words[0] := by
      have hplace := hsame 0 0 hpositive
      rw [Nat.add_zero, Nat.mod_eq_of_lt (Registers.min_lt_bound start)] at hplace
      exact hplace.trans (hloaded 0 hpositive)
    rw [hn, hfirst, List.take_one, List.head?_eq_getElem?, List.getElem?_eq_getElem hpositive]
    rfl
  · rw [hsame (i + 1) k hk]
    exact hkept (i + 1) hi k hk

-- A program whose second word stands at the first address, behind the last.
theorem fetches_of_wrapped :
    ∃ machine, build { memory := ⟨2, 1⟩, cache := ⟨4, false⟩ } = .ok machine ∧
      ∃ loaded, machine.load 0xffffffff [7, 8] = (.ok 3, loaded) ∧
        let first := loaded.begun 0xffffffff true .cache false
        (∃ n, first.fetches n = [7]) ∧ first.fetches 14 <+: [7, 8, Word.halt] ∧
        (first.fetches 14).length = 3 := by
  have hbuild : build { memory := ⟨2, 1⟩, cache := ⟨4, false⟩ } = .ok _ := rfl
  have hreached : Reached .cache _ := .built hbuild
  refine ⟨_, hbuild, _, Prod.ext (by decide +kernel) rfl, ?_⟩
  intro first
  have hfetches := fetches_of_loaded hreached 0xffffffff [7, 8]
    (show _ = (Except.ok 3, _) from Prod.ext (by decide +kernel) rfl) (by decide)
    (meetsLoader_of_dvd (by decide +kernel) (by decide) _) true false
  exact ⟨hfetches.1, hfetches.2 14 (by decide +kernel) (by decide +kernel), by decide +kernel⟩

-- Past 32 bits the counter of a run and the loader part.
theorem fetches_apart :
    ∃ small wide, build { memory := ⟨1, 0⟩, cache := ⟨4, false⟩ } = .ok small ∧
      build { memory := ⟨3, 0⟩, cache := ⟨4, false⟩ } = .ok wide ∧
      (let first := (small.load 0x100000000 [Word.halt]).2.begun 0x100000000 false .direct false
       first.peek 0x100000000 = Word.halt ∧ ∀ n, first.fetches n ≠ [Word.halt]) ∧
      let first := (wide.load 0xffffffff [7]).2.begun 0xffffffff false .direct false
      (∀ i < 6, (first.after i).redirects = false) ∧
        (∀ i ≤ 6, (first.after i).peek 0xffffffff = 7 ∧
          (first.after i).peek 0x100000000 = Word.halt) ∧
        first.fetches 6 = [7, 0] := by
  refine ⟨_, _, rfl, rfl, ?_, ?_⟩
  · intro first
    refine ⟨by decide +kernel, fun n hn => ?_⟩
    have hfetching : first.fetching = [0] := by decide +kernel
    cases n with
    | zero => cases hn
    | succ n =>
        rw [fetches_step, hfetching] at hn
        exact absurd (List.cons.inj hn).1 (by decide)
  · decide +kernel

end Machine

end PipelinedProcessor
