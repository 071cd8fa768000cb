import Mathlib.Algebra.GroupWithZero.Nat
import PipelinedProcessor.Proofs.Cache.Bookings

namespace PipelinedProcessor.Cache

-- What a call is about and what it is like. To put a whole line into the cache is no access: it
-- neither looks for the line nor brings it in.

def Call.isAccess : Call → Bool
  | .putLine _ _ => false
  | _ => true

def Call.changes : Call → Bool
  | .read _ => false
  | .readLine _ => false
  | _ => true

def Call.fetches (cache : Cache) : Call → Bool
  | .read _ => true
  | .readLine _ => true
  | .store _ _ => cache.writeAllocate
  | _ => false

def Call.allocates (cache : Cache) : Call → Bool
  | .store _ _ => cache.writeAllocate
  | _ => false

def Call.found? (cache : Cache) (call : Call) : Option Nat :=
  (cache.setOf (cache.memory.lineStart call.address)).hit? (cache.memory.lineStart call.address)

-- An access that is done in this try, in one of three ways: it has found its line, it has brought
-- it in, or its words have gone past the cache.

def Call.finds (issuer : Stage) (cache : Cache) (call : Call) : Bool :=
  call.isAccess && (call.found? cache).isSome && (call.poll issuer cache).1.isDone

def Call.bringsLine (issuer : Stage) (cache : Cache) (call : Call) : Bool :=
  call.fetches cache && (call.found? cache).isNone && (call.poll issuer cache).1.isDone

def Call.passes (issuer : Stage) (cache : Cache) (call : Call) : Bool :=
  call.isAccess && !call.fetches cache && (call.found? cache).isNone &&
    (call.poll issuer cache).1.isDone

-- The way whose words memory must have before a try can go on: the one that is written to, or the
-- one that a line is brought into.
def Call.place? (issuer : Stage) (cache : Cache) (call : Call) : Option Nat :=
  let tag := cache.memory.lineStart call.address
  if call.isAccess then
    match call.found? cache with
    | some way => if call.changes then some way else none
    | none => if call.fetches cache then some (cache.reserve issuer tag).1 else none
  else some (cache.placeFor issuer tag).1

def Call.saves (issuer : Stage) (cache : Cache) (call : Call) : List Put :=
  (call.place? issuer cache).elim [] fun way =>
    (cache.lineAt (cache.memory.lineStart call.address) way).saved issuer cache.memory

-- What one try adds.
def Call.Counted (issuer : Stage) (cache : Cache) (call : Call) : Prop :=
  ∃ around, Booked cache (call.poll issuer cache).2
    (call.finds issuer cache && !call.allocates cache).toNat
      (call.bringsLine issuer cache).toNat (call.saves issuer cache) around ∧
    (around = [] ∨ call.passes issuer cache = true)

section

variable {cache : Cache} {issuer : Stage} {call : Call}

theorem Call.counted_of_found (haccess : call.isAccess = true) {way : Nat}
    (hfound : call.found? cache = some way)
    (h : Booked cache (call.poll issuer cache).2 ((call.poll issuer cache).1.isDone &&
      !call.allocates cache).toNat 0
      (if call.changes then (cache.lineAt (cache.memory.lineStart call.address) way).saved
        issuer cache.memory else [])
      []) : call.Counted issuer cache := by
  have hsaves : call.saves issuer cache = if call.changes then
      (cache.lineAt (cache.memory.lineStart call.address) way).saved issuer cache.memory
        else [] := by
    simp only [saves, place?, haccess, hfound, if_true]
    split <;> rfl
  refine ⟨[], ?_, .inl rfl⟩
  rw [hsaves]
  simpa [finds, bringsLine, haccess, hfound] using h

theorem Call.counted_of_missing (haccess : call.isAccess = true) (hmiss : call.found? cache = none)
    (around : List Put)
    (h : Booked cache (call.poll issuer cache).2 0
      (call.fetches cache && (call.poll issuer cache).1.isDone).toNat
      (if call.fetches cache then (cache.lineAt (cache.memory.lineStart call.address)
        (cache.reserve issuer (cache.memory.lineStart call.address)).1).saved issuer cache.memory
        else []) around)
    (haround : around = [] ∨
      call.fetches cache = false ∧ (call.poll issuer cache).1.isDone = true) :
    call.Counted issuer cache := by
  have hsaves : call.saves issuer cache = if call.fetches cache then
      (cache.lineAt (cache.memory.lineStart call.address)
        (cache.reserve issuer (cache.memory.lineStart call.address)).1).saved issuer cache.memory
        else [] := by
    simp only [saves, place?, haccess, hmiss, if_true]
    split <;> rfl
  refine ⟨around, ?_, haround.imp_right fun hpasses => ?_⟩
  · rw [hsaves]
    simpa [finds, bringsLine, haccess, hmiss] using h
  · simp [passes, haccess, hmiss, hpasses.1, hpasses.2]

theorem Call.counted_of_resolve (haccess : call.isAccess = true) (hchanges : call.changes = false)
    (hfetches : call.fetches cache = true) (hallocates : call.allocates cache = false)
    (hafter : (call.poll issuer cache).2 =
      (cache.resolve issuer (cache.memory.lineStart call.address)).2)
    (hdone : (call.poll issuer cache).1.isDone =
      (cache.resolve issuer (cache.memory.lineStart call.address)).1.isDone) : call.Counted
      issuer cache := by
  cases hfound : call.found? cache with
  | some way =>
      obtain ⟨after, hresolve, hbooked⟩ := resolve_of_found issuer hfound
      refine counted_of_found haccess hfound ?_
      rw [hafter, hdone, hresolve, hchanges, hallocates]
      exact hbooked
  | none =>
      refine counted_of_missing haccess hfound [] ?_ (.inl rfl)
      rw [hafter, hdone, resolve_of_missing issuer hfound, hfetches, Bool.true_and, if_pos rfl]
      exact fill_booked rfl

theorem Call.counted_of_writePartial (data : List Word) (haccess : call.isAccess = true)
    (hchanges : call.changes = true) (hfetches : call.fetches cache = false)
    (hallocates : call.allocates cache = false)
    (hafter : (call.poll issuer cache).2 = (cache.writePartial issuer call.address data).2)
    (hdone : (call.poll issuer cache).1.isDone =
      (cache.writePartial issuer call.address data).1.isDone) :
    call.Counted issuer cache := by
  cases hfound : call.found? cache with
  | some way =>
      refine counted_of_found haccess hfound ?_
      rw [hafter, hdone, hallocates, Bool.not_false, Bool.and_true, if_pos hchanges]
      exact writePartial_of_found hfound rfl
  | none =>
      rcases hwrite : cache.writePartial issuer call.address data with ⟨answer, written⟩
      rw [hwrite] at hafter hdone
      obtain ⟨around, hbooked, haround⟩ := writePartial_of_missing hfound hwrite
      refine counted_of_missing haccess hfound around ?_
        (haround.imp_right fun hpassed => ⟨hfetches, ?_⟩)
      · rw [hafter, hfetches]
        exact hbooked
      · rw [hdone]
        exact hpassed

theorem Call.counted_store_of_allocates {address : Nat} {w : Word}
    (hallocate : cache.writeAllocate = true) :
    Call.Counted issuer cache (.store address w) := by
  have hdone : ((Call.store address w).poll issuer cache).1.isDone =
      (cache.store issuer address w).1.isDone :=
    Poll.isDone_map _ _
  cases hfound : (Call.store address w).found? cache with
  | some way =>
      refine counted_of_found rfl hfound ?_
      rw [show (Call.store address w).allocates cache = true from hallocate,
        Bool.not_true, Bool.and_false]
      exact store_of_found hallocate hfound rfl
  | none =>
      refine counted_of_missing rfl hfound [] ?_ (.inl rfl)
      rw [show (Call.store address w).fetches cache = true from hallocate, hdone,
        Bool.true_and, if_pos rfl]
      exact store_of_missing hallocate hfound rfl

theorem readLine_resolves (cache : Cache) (issuer : Stage) (address : Nat) :
    (cache.readLine issuer address).2 = (cache.resolve issuer (cache.memory.lineStart address)).2 ∧
      (cache.readLine issuer address).1.isDone =
        (cache.resolve issuer (cache.memory.lineStart address)).1.isDone := by
  rcases hresolve : cache.resolve issuer (cache.memory.lineStart address) with ⟨answer, after⟩
  cases answer with
  | wait =>
      simp only [readLine, hresolve, true_and]
      rfl
  | done way =>
      simp only [readLine, hresolve, true_and]
      rfl

theorem Call.counted (issuer : Stage) (cache : Cache) (call : Call) :
    call.Counted issuer cache := by
  cases call with
  | read address =>
      obtain ⟨hafter, hdone⟩ := cache.readLine_resolves issuer address
      refine counted_of_resolve rfl rfl rfl rfl ?_ ?_
      · simp only [poll, read_eq]
        exact hafter
      · simp only [poll, read_eq, Poll.isDone_map]
        exact hdone
  | readLine address =>
      obtain ⟨hafter, hdone⟩ := cache.readLine_resolves issuer address
      exact counted_of_resolve rfl rfl rfl rfl hafter ((Poll.isDone_map _ _).trans hdone)
  | write address w =>
      refine counted_of_writePartial [w] rfl rfl rfl rfl rfl ?_
      exact (Poll.isDone_map _ _).trans (Poll.isDone_map _ _)
  | writePartial address data =>
      exact counted_of_writePartial data rfl rfl rfl rfl rfl (Poll.isDone_map _ _)
  | store address w =>
      cases hallocate : cache.writeAllocate with
      | true => exact counted_store_of_allocates hallocate
      | false =>
          have hstore : cache.store issuer address w = cache.write issuer address w := by
            rw [store_eq, hallocate, if_neg Bool.false_ne_true]
          refine counted_of_writePartial [w] rfl rfl hallocate hallocate ?_ ?_
          · simp only [poll, hstore]
            rfl
          · simp only [poll, hstore]
            exact (Poll.isDone_map _ _).trans (Poll.isDone_map _ _)
  | putLine address words => exact ⟨[], putLine_booked rfl, .inl rfl⟩

end

-- The same of everything that can happen to a cache.

def Step.finds (cache : Cache) : Step → Bool
  | .asked (.poll issuer call) => call.finds issuer cache
  | _ => false

def Step.bringsLine (cache : Cache) : Step → Bool
  | .asked (.poll issuer call) => call.bringsLine issuer cache
  | _ => false

def Step.passes (cache : Cache) : Step → Bool
  | .asked (.poll issuer call) => call.passes issuer cache
  | _ => false

def Step.allocates (cache : Cache) : Step → Bool
  | .asked (.poll _ call) => call.allocates cache
  | _ => false

def Step.saves (cache : Cache) : Step → List Put
  | .asked (.poll issuer call) => call.saves issuer cache
  | .asked .flush => cache.allLines.filterMap CacheLine.debt?
  | .asked .releaseAll => []
  | .putLine issuer address words _ => Call.saves issuer cache (.putLine address words)
  | .invalidate address =>
    let tag := cache.memory.lineStart address
    ((cache.setOf tag).way? tag).elim [] fun way => (cache.lineAt tag way).debt?.toList

theorem Step.booked (cache : Cache) (step : Step) :
    ∃ around, Booked cache (step.perform cache) (step.finds cache && !step.allocates cache).toNat
      (step.bringsLine cache).toNat (step.saves cache) around ∧
      (around = [] ∨ step.passes cache = true) := by
  cases step with
  | asked event =>
      cases event with
      | poll issuer call => exact call.counted issuer cache
      | flush => exact ⟨[], cache.flush_booked, .inl rfl⟩
      | releaseAll => exact ⟨[], booked_of_same rfl rfl, .inl rfl⟩
  | putLine issuer address words dirty => exact ⟨[], putLine_booked rfl, .inl rfl⟩
  | invalidate address => exact ⟨[], cache.invalidate_booked address, .inl rfl⟩

-- The cache before each of its steps.
def moments : List Step → Cache → List (Cache × Step)
  | [], _ => []
  | step :: rest, cache => (cache, step) :: moments rest (step.perform cache)

theorem countP_moments (counts : Cache → Step → Bool) (step : Step) (rest : List Step)
    (cache : Cache) :
    (moments (step :: rest) cache).countP (fun moment => counts moment.1 moment.2) =
      (counts cache step).toNat +
        (moments rest (step.perform cache)).countP fun moment => counts moment.1 moment.2 := by
  rw [moments, List.countP_cons, Nat.add_comm]
  cases counts cache step <;> rfl

theorem stats_performSteps (steps : List Step) (cache : Cache) :
    (cache.performSteps steps).stats = {
      hits := cache.stats.hits +
        (moments steps cache).countP fun moment => moment.2.finds moment.1 &&
          !moment.2.allocates moment.1
      misses := cache.stats.misses + (moments steps cache).countP fun moment =>
        moment.2.bringsLine moment.1
      writeBacks := cache.stats.writeBacks +
        ((moments steps cache).map fun moment => (moment.2.saves moment.1).length).sum } := by
  induction steps generalizing cache with
  | nil => rfl
  | cons step rest ih =>
      obtain ⟨around, hbooked, -⟩ := step.booked cache
      show ((step.perform cache).performSteps rest).stats = _
      rw [ih, hbooked.hits_eq, hbooked.misses_eq, hbooked.writeBacks_eq,
        countP_moments fun cache step => step.finds cache && !step.allocates cache,
        countP_moments fun cache step => step.bringsLine cache, moments,
        List.map_cons, List.sum_cons]
      simp only [Nat.add_assoc]

theorem sized_of_mem_moments {steps : List Step} {cache : Cache} (h : Sized cache)
    {moment : Cache × Step} (hmem : moment ∈ moments steps cache) : Sized moment.1 := by
  induction steps generalizing cache with
  | nil => cases hmem
  | cons step rest ih =>
      rcases List.mem_cons.mp hmem with rfl | hrest
      · exact h
      · exact ih (step.sized h) hrest

-- What stands behind the numbers.

theorem mem_saved {line : CacheLine} {issuer : Stage} {memory : MainMemory} {put : Put}
    (h : put ∈ line.saved issuer memory) : line.debt? = some put :=
  Option.mem_toList.mp (List.mem_filter.mp h).1

theorem length_saved_le (line : CacheLine) (issuer : Stage) (memory : MainMemory) :
    (line.saved issuer memory).length ≤ 1 := by
  refine Nat.le_trans (List.length_filter_le _ _) ?_
  cases line.debt? <;> simp

section

variable {cache : Cache} {issuer : Stage} {call : Call}

theorem mem_allLines_of_debt? {tag way : Nat} {put : Put}
    (h : (cache.lineAt tag way).debt? = some put) :
    cache.lineAt tag way ∈ cache.allLines := by
  obtain ⟨old, howed, -⟩ := Option.map_eq_some_iff.mp h
  exact mem_allLines.mpr ⟨tag, way, CacheSet.lt_length_of_tag (owed?_eq_some howed).2, rfl⟩

theorem Call.length_saves_le : (call.saves issuer cache).length ≤ 1 := by
  unfold saves
  cases call.place? issuer cache with
  | none => exact Nat.zero_le 1
  | some way => exact length_saved_le _ _ _

theorem Call.owed_of_mem_saves {put : Put} (h : put ∈ call.saves issuer cache) :
    ∃ line ∈ cache.allLines, line.debt? = some put := by
  unfold saves at h
  cases hplace : call.place? issuer cache with
  | none =>
      rw [hplace] at h
      cases h
  | some way =>
      rw [hplace] at h
      have hdebt := mem_saved h
      exact ⟨_, mem_allLines_of_debt? hdebt, hdebt⟩

theorem Step.owed_of_mem_saves {step : Step} {put : Put} (h : put ∈ step.saves cache) :
    ∃ line ∈ cache.allLines, line.debt? = some put := by
  cases step with
  | asked event =>
      cases event with
      | poll issuer call => exact Call.owed_of_mem_saves h
      | flush =>
          obtain ⟨line, hline, hdebt⟩ := List.mem_filterMap.mp h
          exact ⟨line, hline, hdebt⟩
      | releaseAll => cases h
  | putLine issuer address words dirty => exact Call.owed_of_mem_saves h
  | invalidate address =>
      simp only [saves] at h
      cases hway :
        (cache.setOf (cache.memory.lineStart address)).way? (cache.memory.lineStart address) with
      | none =>
          rw [hway] at h
          cases h
      | some way =>
          rw [hway] at h
          have hdebt := Option.mem_toList.mp h
          exact ⟨_, mem_allLines_of_debt? hdebt, hdebt⟩

theorem holds_of_fill (h : Sized cache) {tag : Nat} (haligned : cache.memory.lineStart tag = tag)
    (hdone : (cache.fill issuer tag).1.isDone = true) :
    ∃ way after, cache.fill issuer tag = (.done way, after) ∧ Holds after tag way := by
  rcases hfill : cache.fill issuer tag with ⟨answer, after⟩
  rw [hfill] at hdone
  rcases fill_uses h haligned hfill with ⟨rfl, -⟩ | ⟨rfl, huses, -⟩
  · cases hdone
  · exact ⟨_, after, rfl, huses.holds⟩

theorem readLine_holds (h : Sized cache) {address : Nat}
    (hmiss : (cache.setOf (cache.memory.lineStart address)).hit?
      (cache.memory.lineStart address) = none)
    (hdone : (cache.readLine issuer address).1.isDone = true) :
    ∃ way, Holds (cache.readLine issuer address).2 (cache.memory.lineStart address) way := by
  obtain ⟨hafter, hsame⟩ := cache.readLine_resolves issuer address
  rw [hsame, resolve_of_missing issuer hmiss] at hdone
  obtain ⟨way, after, hfill, hholds⟩ :=
    holds_of_fill h (cache.memory.lineStart_lineStart address) hdone
  rw [hafter, resolve_of_missing issuer hmiss, hfill]
  exact ⟨way, hholds⟩

theorem store_holds (h : Sized cache) {address : Nat} {w : Word}
    (hallocate : cache.writeAllocate = true)
    (hmiss : (cache.setOf (cache.memory.lineStart address)).hit? (cache.memory.lineStart address) =
      none) (hdone : (cache.store issuer address w).1.isDone = true) :
    ∃ way, Holds (cache.store issuer address w).2 (cache.memory.lineStart address) way := by
  have hfilled : (cache.fill issuer (cache.memory.lineStart address)).1.isDone = true := by
    rcases hfill : cache.fill issuer (cache.memory.lineStart address) with ⟨found, filled⟩
    cases found with
    | wait =>
        simp only [store_eq, hallocate, if_true, bringIn, hmiss, hfill] at hdone
        cases hdone
    | done way => rfl
  obtain ⟨way, filled, hfill, hholds⟩ :=
    holds_of_fill h (cache.memory.lineStart_lineStart address) hfilled
  obtain ⟨changed, hwrite, hstore⟩ := store_of_fill hallocate hmiss hfill w
  rw [hstore]
  rcases writePresent_uses hholds hwrite with ⟨hwait, -⟩ | ⟨-, huses, -⟩
  · cases hwait
  · exact ⟨way, huses.holds⟩

-- A line that is brought in is there afterwards, and good.
theorem Call.holds_of_bringsLine (h : Sized cache) (hbrings : call.bringsLine issuer cache = true) :
    ∃ way, Holds (call.poll issuer cache).2 (cache.memory.lineStart call.address) way := by
  simp only [bringsLine, Bool.and_eq_true, Option.isNone_iff_eq_none] at hbrings
  obtain ⟨⟨hfetches, hmiss⟩, hdone⟩ := hbrings
  cases call with
  | read address =>
      simp only [poll, read_eq, Poll.isDone_map] at hdone ⊢
      exact readLine_holds h hmiss hdone
  | readLine address => exact readLine_holds h hmiss ((Poll.isDone_map _ _).symm.trans hdone)
  | store address w => exact store_holds h hfetches hmiss ((Poll.isDone_map _ _).symm.trans hdone)
  | write address w => cases hfetches
  | writePartial address data => cases hfetches
  | putLine address words => cases hfetches

end

-- What a step does for the numbers that it adds. A miss leaves its line in the cache; what is
-- written back are the words of a line that memory does not have, and nothing else gets there but
-- the words that go past the cache; and a try that waits adds one write-back at most.
structure Step.Accounted (cache : Cache) (step : Step) : Prop where
  held : ∀ issuer call, step = .asked (.poll issuer call) → call.bringsLine issuer cache = true →
    ∃ way, Holds (step.perform cache) (cache.memory.lineStart call.address) way
  owed : ∀ put ∈ step.saves cache, ∃ line ∈ cache.allLines, line.debt? = some put
  memory_eq : ∃ around, (step.perform cache).memory.releaseAll =
    cache.memory.releaseAll.putLines (step.saves cache ++ around) ∧
    (around ≠ [] → step.passes cache = true)
  waits : step.isDone cache = false →
    step.finds cache = false ∧ step.bringsLine cache = false ∧ (step.saves cache).length ≤ 1

theorem Step.accounted {cache : Cache} (h : Sized cache) (step : Step) : step.Accounted cache where
  held issuer call heq hbrings := by
    subst heq
    exact call.holds_of_bringsLine h hbrings
  owed put hput := owed_of_mem_saves hput
  memory_eq := by
    obtain ⟨around, hbooked, haround⟩ := step.booked cache
    exact ⟨around, hbooked.memory_eq, haround.resolve_left⟩
  waits hwait := by
    cases step with
    | asked event =>
        cases event with
        | poll issuer call =>
            have hpoll : (call.poll issuer cache).1.isDone = false := hwait
            exact ⟨by simp [finds, Call.finds, hpoll], by simp [bringsLine, Call.bringsLine, hpoll],
              call.length_saves_le⟩
        | flush => cases hwait
        | releaseAll => cases hwait
    | putLine issuer address words dirty => exact ⟨rfl, rfl, Call.length_saves_le⟩
    | invalidate address => cases hwait

-- The statistics of a cache are what its steps add to them: a hit for every access that is done
-- with a line it has found, but for the stores of a cache that allocates, a miss for every access
-- that has brought its line in, and a write-back for every line whose words memory got from the
-- cache.
theorem stats_of_build {lineCount : Nat} {writeAllocate : Bool} {memory : MainMemory}
    {cache : Cache} (hbuild : Cache.build lineCount writeAllocate memory = .ok cache)
    (steps : List Step) :
    (cache.performSteps steps).stats = {
        hits := (moments steps cache).countP fun moment =>
          moment.2.finds moment.1 && !moment.2.allocates moment.1
        misses := (moments steps cache).countP fun moment => moment.2.bringsLine moment.1
        writeBacks :=
  ((moments steps cache).map fun moment => (moment.2.saves moment.1).length).sum } ∧
      ∀ moment ∈ moments steps cache, moment.2.Accounted moment.1 := by
  obtain ⟨ways, hways, rfl⟩ := build_eq_empty hbuild
  constructor
  · rw [stats_performSteps]
    simp only [empty, Nat.zero_add]
  · intro moment hmem
    exact moment.2.accounted (sized_of_mem_moments (sized_empty hways writeAllocate memory) hmem)

-- A line is brought in, found twice by writes, of which the second has to save the words of the
-- first, and then dropped.
theorem stats_of_dropped_line :
    let cache := empty 1 false (.zeroed 4 0 (by decide))
    let steps : List Step := [.asked (.poll .memory (.read 5)), .asked (.poll .memory (.write 5 7)),
      .asked (.poll .memory (.store 6 8)), .invalidate 4]
    Cache.build 4 false (.zeroed 4 0 (by decide)) = .ok cache ∧
    (cache.performSteps steps).stats = ⟨2, 1, 2⟩ := by
  intro cache steps
  have hbuild : Cache.build 4 false (.zeroed 4 0 (by decide)) = .ok cache := rfl
  exact ⟨hbuild, (stats_of_build hbuild steps).1.trans (by decide)⟩

-- The store finds the line that the read has brought in, and is not counted.
theorem store_not_counted :
    let cache := empty 1 true (.zeroed 1 0 (by decide))
    let steps : List Step := [.asked (.poll .memory (.read 0)), .asked (.poll .memory (.store 0 7))]
    (cache.performSteps steps).stats.hits = 0 ∧
      ((moments steps cache).countP fun moment => moment.2.finds moment.1) = 1 := by
  decide

end PipelinedProcessor.Cache
