import PipelinedProcessor.Proofs.Cache.Undisturbed

namespace PipelinedProcessor

-- A line with its place in memory.
abbrev Put : Type := Nat × Vector Word lineLength

def MainMemory.putLines (memory : MainMemory) (puts : List Put) : MainMemory :=
  puts.foldl (fun memory put => memory.putLine put.1 put.2) memory

namespace CacheLine

-- What memory does not have of a line yet.
def debt? (line : CacheLine) : Option Put := line.owed?.map (·, line.line.words)

-- What memory takes of it in one try: nothing until the request of the issuer is served.
def saved (line : CacheLine) (issuer : Stage) (memory : MainMemory) : List Put :=
  line.debt?.toList.filter fun put =>
    ((memory.releaseOthers ⟨issuer, put.1⟩).writeLine issuer put.1 put.2).1.isDone

end CacheLine

namespace Cache

-- What a change of the cache adds to the statistics, and what memory gets by it: the words of lines
-- that are written back, and after those what goes past the cache.
structure Booked (before after : Cache) (hits misses : Nat) (saves around : List Put) : Prop where
  hits_eq : after.stats.hits = before.stats.hits + hits
  misses_eq : after.stats.misses = before.stats.misses + misses
  writeBacks_eq : after.stats.writeBacks = before.stats.writeBacks + saves.length
  memory_eq : after.memory.releaseAll = before.memory.releaseAll.putLines (saves ++ around)

section

variable {cache before middle after : Cache} {issuer : Stage} {tag way : Nat}
  {hits misses hits' misses' : Nat} {saves saves' around : List Put}

theorem booked_of_same (hstats : after.stats = before.stats)
    (hmemory : after.memory.releaseAll = before.memory.releaseAll) :
    Booked before after 0 0 [] [] :=
  ⟨congrArg CacheStats.hits hstats, congrArg CacheStats.misses hstats,
    congrArg CacheStats.writeBacks hstats, hmemory⟩

theorem Booked.trans (h : Booked before middle hits misses saves [])
    (h' : Booked middle after hits' misses' saves' around) :
    Booked before after (hits + hits') (misses + misses') (saves ++ saves') around where
  hits_eq := by rw [h'.hits_eq, h.hits_eq, Nat.add_assoc]
  misses_eq := by rw [h'.misses_eq, h.misses_eq, Nat.add_assoc]
  writeBacks_eq := by rw [h'.writeBacks_eq, h.writeBacks_eq, List.length_append, Nat.add_assoc]
  memory_eq := by
    rw [h'.memory_eq, h.memory_eq, List.append_nil, List.append_assoc]
    exact List.foldl_append.symm

theorem Booked.countHit (h : Booked before after hits misses saves around) :
    Booked before after.countHit (hits + 1) misses saves around :=
  ⟨congrArg (· + 1) h.hits_eq, h.misses_eq, h.writeBacks_eq, h.memory_eq⟩

theorem Booked.countMiss (h : Booked before after hits misses saves around) :
    Booked before after.countMiss hits (misses + 1) saves around :=
  ⟨h.hits_eq, congrArg (· + 1) h.misses_eq, h.writeBacks_eq, h.memory_eq⟩

theorem Booked.modifySet (h : Booked before after hits misses saves around) (tag : Nat)
    (f : CacheSet → CacheSet) :
    Booked before (after.modifySet tag f) hits misses saves around :=
  ⟨h.hits_eq, h.misses_eq, h.writeBacks_eq, h.memory_eq⟩

theorem Booked.withPending (h : Booked before after hits misses saves around)
    (pending : Option Pending) :
    Booked before (after.withPending pending) hits misses saves around :=
  ⟨h.hits_eq, h.misses_eq, h.writeBacks_eq, h.memory_eq⟩

-- A way may be reserved before.
theorem Booked.of_reserved (issuer : Stage) (reservation : Option Reservation)
    (h : Booked (before.setReservation issuer reservation) after hits misses saves around) :
    Booked before after hits misses saves around :=
  ⟨h.hits_eq, h.misses_eq, h.writeBacks_eq, h.memory_eq⟩

theorem Booked.finish (h : Booked before after hits misses saves around) (issuer : Stage) :
    Booked before (after.finish issuer) hits misses saves around := by
  obtain ⟨pending, hrelease⟩ := after.memory.release_eq issuer
  refine ⟨h.hits_eq, h.misses_eq, h.writeBacks_eq, ?_⟩
  rw [← h.memory_eq]
  show (after.memory.release issuer).releaseAll = _
  rw [hrelease]
  rfl

theorem writeBack_booked {answer : Poll Unit}
    (hresult : cache.writeBack issuer tag way = (answer, after)) :
    Booked cache after 0 0 ((cache.lineAt tag way).saved issuer cache.memory) [] := by
  cases howed : (cache.lineAt tag way).owed? with
  | none =>
      simp only [writeBack, howed] at hresult
      obtain ⟨-, rfl⟩ := Prod.mk.inj hresult
      have hnone : (cache.lineAt tag way).saved issuer cache.memory = [] := by
        rw [CacheLine.saved, CacheLine.debt?, howed]
        rfl
      rw [hnone]
      exact booked_of_same rfl rfl
  | some old =>
      have hdebt :
          (cache.lineAt tag way).debt? = some (old, (cache.lineAt tag way).line.words) := by
        rw [CacheLine.debt?, howed]
        rfl
      simp only [writeBack, howed, onMemory_eq, MainMemory.writeLine] at hresult
      rcases cache.memory.renewed_access_cases issuer old
          (fun memory => ((), memory.putLine old (cache.lineAt tag way).line.words)) with
            ⟨pending, ha⟩ | ha
      · rw [ha] at hresult
        obtain ⟨-, rfl⟩ := Prod.mk.inj hresult
        have hnone : (cache.lineAt tag way).saved issuer cache.memory = [] := by
          simp [CacheLine.saved, hdebt, MainMemory.writeLine, ha, Poll.isDone]
        rw [hnone]
        exact booked_of_same rfl rfl
      · rw [ha] at hresult
        obtain ⟨-, rfl⟩ := Prod.mk.inj hresult
        have hsome : (cache.lineAt tag way).saved issuer cache.memory =
            [(old, (cache.lineAt tag way).line.words)] := by
          simp [CacheLine.saved, hdebt, MainMemory.writeLine, ha, Poll.isDone]
        rw [hsome]
        exact ⟨rfl, rfl, rfl, rfl⟩

-- A line that is brought in counts once, when it has arrived. What its place owes is saved before,
-- and that may be in an earlier try.
theorem fill_booked {answer : Poll Nat} (hresult : cache.fill issuer tag = (answer, after)) :
    Booked cache after 0 answer.isDone.toNat
      ((cache.lineAt tag (cache.reserve issuer tag).1).saved issuer cache.memory) [] := by
  obtain ⟨way, hreserve, -⟩ := cache.reserve_eq issuer tag
  rw [fill_eq, hreserve] at hresult
  rw [hreserve]
  refine Booked.of_reserved issuer (some ⟨tag, way⟩) ?_
  unfold fillInto at hresult
  split at hresult
  · rename_i written hwrite
    obtain ⟨rfl, rfl⟩ := Prod.mk.inj hresult
    exact writeBack_booked hwrite
  · rename_i written hwrite
    have hwritten := writeBack_booked hwrite
    simp only [onMemory_eq, MainMemory.readLine] at hresult
    rcases written.memory.renewed_access_cases issuer tag
        (fun memory => (memory.peekLine tag, memory)) with ⟨pending, ha⟩ | ha
    · rw [ha] at hresult
      obtain ⟨rfl, rfl⟩ := Prod.mk.inj hresult
      exact hwritten.withPending pending
    · rw [ha] at hresult
      obtain ⟨rfl, rfl⟩ := Prod.mk.inj hresult
      exact (((hwritten.withPending none).modifySet tag fun set =>
        set.install way (written.memory.peekLine tag) false).countMiss).finish issuer

theorem writePresent_booked {offset : Nat} {data : List Word} {answer : Poll Nat}
    (hresult : cache.writePresent issuer tag way offset data = (answer, after)) :
    Booked cache after 0 0 ((cache.lineAt tag way).saved issuer cache.memory) [] := by
  unfold writePresent at hresult
  split at hresult
  · rename_i written hwrite
    obtain ⟨-, rfl⟩ := Prod.mk.inj hresult
    exact writeBack_booked hwrite
  · rename_i written hwrite
    obtain ⟨-, rfl⟩ := Prod.mk.inj hresult
    exact ((writeBack_booked hwrite).modifySet tag _).finish issuer

-- A read of a line that is there is done at once, and that is the hit.
theorem resolve_of_found (issuer : Stage) (hfound : (cache.setOf tag).hit? tag = some way) :
    ∃ after, cache.resolve issuer tag = (.done way, after) ∧ Booked cache after 1 0 [] [] := by
  simp only [resolve, hfound]
  have hsame : Booked cache cache 0 0 [] [] := booked_of_same rfl rfl
  exact ⟨_, rfl, (hsame.modifySet tag fun set => set.touch way).countHit.finish issuer⟩

theorem resolve_of_missing (issuer : Stage) (hmiss : (cache.setOf tag).hit? tag = none) :
    cache.resolve issuer tag = cache.fill issuer tag := by
  simp only [resolve, hmiss]

variable {address : Nat} {data : List Word} {w : Word}

theorem writePartial_of_found {answer : Poll Nat}
    (hfound : (cache.setOf (cache.memory.lineStart address)).hit?
      (cache.memory.lineStart address) = some way)
    (hresult : cache.writePartial issuer address data = (answer, after)) :
    Booked cache after answer.isDone.toNat 0
      ((cache.lineAt (cache.memory.lineStart address) way).saved issuer cache.memory) [] := by
  simp only [writePartial, hfound] at hresult
  rcases hwrite : cache.writePresent issuer (cache.memory.lineStart address) way
    (cache.memory.offset address) data with ⟨answer', written⟩
  rw [hwrite] at hresult
  cases answer' with
  | wait =>
      obtain ⟨rfl, rfl⟩ := Prod.mk.inj hresult
      exact writePresent_booked hwrite
  | done count =>
      obtain ⟨rfl, rfl⟩ := Prod.mk.inj hresult
      exact (writePresent_booked hwrite).countHit

-- The words of a line that is missing go past the cache.
theorem writePartial_of_missing {answer : Poll Nat}
    (hmiss : (cache.setOf (cache.memory.lineStart address)).hit?
      (cache.memory.lineStart address) = none)
    (hresult : cache.writePartial issuer address data = (answer, after)) :
    ∃ around, Booked cache after 0 0 [] around ∧ (around = [] ∨ answer.isDone = true) := by
  simp only [writePartial, hmiss, onMemory_eq, MainMemory.writePartial] at hresult
  rcases cache.memory.renewed_access_cases issuer (cache.memory.wrap address) (fun memory =>
      (fitting (memory.offset (cache.memory.wrap address)) data,
        memory.putLine (cache.memory.wrap address)
          (patch (memory.peekWords (cache.memory.wrap address))
          (memory.offset (cache.memory.wrap address)) data))) with ⟨pending, ha⟩ | ha
  · rw [ha] at hresult
    obtain ⟨rfl, rfl⟩ := Prod.mk.inj hresult
    exact ⟨[], booked_of_same rfl rfl, .inl rfl⟩
  · rw [ha] at hresult
    obtain ⟨rfl, rfl⟩ := Prod.mk.inj hresult
    exact ⟨[(_, _)], ⟨rfl, rfl, rfl, rfl⟩, .inr rfl⟩

-- A store that finds its line does not count, and one that brings it in counts once.

theorem store_of_found {answer : Poll Unit} (hallocate : cache.writeAllocate = true)
    (hfound : (cache.setOf (cache.memory.lineStart address)).hit?
      (cache.memory.lineStart address) = some way)
    (hresult : cache.store issuer address w = (answer, after)) :
    Booked cache after 0 0
      ((cache.lineAt (cache.memory.lineStart address) way).saved issuer cache.memory) [] := by
  simp only [store_eq, hallocate, if_true, bringIn, hfound] at hresult
  obtain ⟨-, rfl⟩ := Prod.mk.inj hresult
  exact writePresent_booked rfl

-- A line that was just brought in owes nothing, so that the store goes into it at once.
theorem store_of_fill {filled : Cache} (hallocate : cache.writeAllocate = true)
    (hmiss : (cache.setOf (cache.memory.lineStart address)).hit?
      (cache.memory.lineStart address) = none)
    (hfill : cache.fill issuer (cache.memory.lineStart address) = (.done way, filled)) (w : Word) :
    ∃ changed, filled.writePresent issuer (cache.memory.lineStart address) way
      (cache.memory.offset address) [w] =
        (.done (fitting (cache.memory.offset address) [w]), changed) ∧
      cache.store issuer address w = (.done (), changed) := by
  obtain ⟨changed, hwrite, -⟩ :=
    writePresent_of_clean issuer (cache.memory.offset address) [w] (fill_done hfill).2
  refine ⟨changed, hwrite, ?_⟩
  simp only [store_eq, hallocate, if_true, bringIn, hmiss, hfill, hwrite]
  rfl

theorem store_of_missing {answer : Poll Unit} (hallocate : cache.writeAllocate = true)
    (hmiss : (cache.setOf (cache.memory.lineStart address)).hit?
      (cache.memory.lineStart address) = none)
    (hresult : cache.store issuer address w = (answer, after)) :
    Booked cache after 0 answer.isDone.toNat
      ((cache.lineAt (cache.memory.lineStart address)
        (cache.reserve issuer (cache.memory.lineStart address)).1).saved issuer cache.memory)
        [] := by
  rcases hfill : cache.fill issuer (cache.memory.lineStart address) with ⟨found, filled⟩
  have hfilled := fill_booked hfill
  cases found with
  | wait =>
      simp only [store_eq, hallocate, if_true, bringIn, hmiss, hfill] at hresult
      obtain ⟨rfl, rfl⟩ := Prod.mk.inj hresult
      exact hfilled
  | done way =>
      obtain ⟨changed, hwrite, hstore⟩ := store_of_fill hallocate hmiss hfill w
      obtain ⟨rfl, rfl⟩ := Prod.mk.inj (hstore.symm.trans hresult)
      have hnone :
          (filled.lineAt (cache.memory.lineStart address) way).saved issuer filled.memory = [] := by
        rw [CacheLine.saved, CacheLine.debt?, (fill_done hfill).2]
        rfl
      have htrans := hfilled.trans (writePresent_booked hwrite)
      rwa [hnone, List.append_nil] at htrans

theorem putLine_booked {words : Vector Word lineLength} {dirty : Bool} {answer : Poll Unit}
    (hresult : cache.putLine issuer address words dirty = (answer, after)) :
    Booked cache after 0 0 ((cache.lineAt (cache.memory.lineStart address)
      (cache.placeFor issuer (cache.memory.lineStart address)).1).saved issuer cache.memory)
      [] := by
  rw [putLine_eq] at hresult
  obtain ⟨reservation, hchosen⟩ := cache.placeFor_eq issuer (cache.memory.lineStart address)
  rcases hplace : cache.placeFor issuer (cache.memory.lineStart address) with ⟨way, chosen⟩
  obtain rfl : chosen = cache.setReservation issuer reservation := by rwa [hplace] at hchosen
  simp only [hplace] at hresult
  refine Booked.of_reserved issuer reservation ?_
  rcases hwrite :
    (cache.setReservation issuer reservation).writeBack issuer (cache.memory.lineStart address) way
    with ⟨answer', written⟩
  rw [hwrite] at hresult
  cases answer' with
  | wait =>
      obtain ⟨rfl, rfl⟩ := Prod.mk.inj hresult
      exact writeBack_booked hwrite
  | done _ =>
      obtain ⟨rfl, rfl⟩ := Prod.mk.inj hresult
      exact ((writeBack_booked hwrite).modifySet _ _).finish issuer

theorem releaseAll_saveLines (lines : List CacheLine) (memory : MainMemory) :
    (lines.foldl saveLine memory).releaseAll =
      memory.releaseAll.putLines (lines.filterMap CacheLine.debt?) := by
  induction lines generalizing memory with
  | nil => rfl
  | cons line rest ih =>
      rw [List.foldl_cons, ih]
      cases howed : line.owed? with
      | none =>
          have hdebt : line.debt? = none := by rw [CacheLine.debt?, howed, Option.map_none]
          rw [List.filterMap_cons_none hdebt, saveLine, howed]
      | some old =>
          have hdebt : line.debt? = some (old, line.line.words) := by
            rw [CacheLine.debt?, howed, Option.map_some]
          rw [List.filterMap_cons_some hdebt, saveLine, howed]
          rfl

theorem flush_booked (cache : Cache) :
    Booked cache cache.flush 0 0 (cache.allLines.filterMap CacheLine.debt?) [] := by
  refine ⟨rfl, rfl, ?_, ?_⟩
  · have hcount : (cache.allLines.filter (·.owed?.isSome)).length =
        (cache.allLines.filterMap CacheLine.debt?).length := by
      rw [List.length_filterMap_eq_countP, List.countP_eq_length_filter]
      simp only [CacheLine.debt?, Option.isSome_map]
    show cache.stats.writeBacks + _ = _
    rw [hcount]
  · rw [memory_flush, List.append_nil]
    exact releaseAll_saveLines _ _

theorem invalidate_booked (cache : Cache) (address : Nat) :
    Booked cache (cache.invalidate address) 0 0
      (((cache.setOf (cache.memory.lineStart address)).way? (cache.memory.lineStart address)).elim
        []
        fun way => (cache.lineAt (cache.memory.lineStart address) way).debt?.toList) [] := by
  cases hway :
    (cache.setOf (cache.memory.lineStart address)).way? (cache.memory.lineStart address) with
  | none =>
      rw [invalidate_of_none address hway]
      exact booked_of_same rfl rfl
  | some way =>
      rw [invalidate_of_way? address hway]
      refine Booked.modifySet ?_ _ _
      have htag := CacheSet.tag_of_way? hway
      generalize cache.memory.lineStart address = tag at htag
      change (cache.lineAt tag way).tag = some tag at htag
      rw [saved, Option.elim_some]
      by_cases hdirty : (cache.lineAt tag way).dirty = true
      · have hdebt :
            (cache.lineAt tag way).debt? = some (tag, (cache.lineAt tag way).line.words) := by
          rw [CacheLine.debt?, CacheLine.owed?, if_pos hdirty, htag, Option.map_some]
        rw [if_pos hdirty, hdebt]
        exact ⟨rfl, rfl, rfl, rfl⟩
      · have hdebt : (cache.lineAt tag way).debt? = none := by
          rw [CacheLine.debt?, CacheLine.owed?, if_neg hdirty, Option.map_none]
        rw [if_neg hdirty, hdebt]
        exact booked_of_same rfl rfl

end

end Cache

end PipelinedProcessor
