import PipelinedProcessor.Proofs.Cache.Accesses

namespace PipelinedProcessor

theorem CacheLine.line_cleanedLine (line : CacheLine) :
    (Cache.cleanedLine line).line = line.line := by
  unfold Cache.cleanedLine
  split <;> rfl

theorem CacheLine.valid_cleanedLine (line : CacheLine) :
    (Cache.cleanedLine line).valid = line.valid := by
  unfold Cache.cleanedLine
  split <;> rfl

theorem CacheLine.dirty_cleanedLine (line : CacheLine) :
    (Cache.cleanedLine line).dirty = (line.dirty && line.tag.isNone) := by
  unfold Cache.cleanedLine CacheLine.owed?
  cases hdirty : line.dirty <;> cases htag : line.tag <;> simp [hdirty]

namespace Cache

-- A cache without lines.

theorem lineAt_empty (ways : Nat) (writeAllocate : Bool) (memory : MainMemory) (address way : Nat) :
    (empty ways writeAllocate memory).lineAt address way = .empty := by
  by_cases h : way < ways <;> simp [lineAt, setOf, empty, CacheSet.lineAt, h]

theorem coherent_empty {ways : Nat} (h : 0 < ways) (writeAllocate : Bool) (memory : MainMemory) :
    Coherent (empty ways writeAllocate memory) := by
  have htag (address way : Nat) :
      ((empty ways writeAllocate memory).lineAt address way).tag = none := by
    rw [lineAt_empty]
    rfl
  have hvalid (address way : Nat) :
      ((empty ways writeAllocate memory).lineAt address way).valid = false := by
    rw [lineAt_empty]
    rfl
  have hdirty (address way : Nat) :
      ((empty ways writeAllocate memory).lineAt address way).dirty = false := by
    rw [lineAt_empty]
    rfl
  refine ⟨h, by simp [setOf, empty], ?_, ?_, ?_, ?_, ?_, ?_⟩
  · simp [htag]
  · simp [htag]
  · simp [hvalid]
  · simp [hdirty]
  · simp [htag]
  · simp [reservation, empty]

-- With no good line in the cache, memory is all there is to see.
theorem view_of_invalid {cache : Cache}
    (h : ∀ address way, (cache.lineAt address way).valid = false) :
    cache.view = cache.memory.peek := by
  rw [view_eq_wordsOf, ← MainMemory.wordsOf_peekWords]
  congr 1
  funext address
  exact viewLine_of_absent rfl fun way _ => h _ way

theorem view_empty (ways : Nat) (writeAllocate : Bool) (memory : MainMemory) :
    (empty ways writeAllocate memory).view = memory.peek :=
  view_of_invalid fun address way => by rw [lineAt_empty]; rfl

theorem sameLines_releaseAll (cache : Cache) : SameLines cache cache.releaseAll := by
  refine ⟨rfl, fun _ => rfl, fun _ _ => rfl, fun _ _ => rfl, fun _ _ => rfl, ⟨none, rfl⟩, ?_⟩
  intro issuer held hheld
  simp [releaseAll, changeMemory_eq, reservation] at hheld

-- Saving all lines at once.

theorem mem_allLines {cache : Cache} {line : CacheLine} :
    line ∈ cache.allLines ↔ ∃ address way, way < (cache.setOf address).length ∧
      cache.lineAt address way = line := by
  simp only [allLines, List.mem_flatten, Vector.mem_toList_iff]
  constructor
  · rintro ⟨set, hset, hline⟩
    obtain ⟨i, hi, rfl⟩ := Vector.mem_iff_getElem.mp hset
    obtain ⟨way, hway, rfl⟩ := List.mem_iff_getElem.mp hline
    have hindex : setIndex (16 * i) = ⟨i, hi⟩ := by
      apply Fin.ext
      show 16 * i / 16 % 4 = i
      omega
    have hset : cache.setOf (16 * i) = cache.sets[i] := by
      simp only [setOf, hindex, Fin.getElem_fin]
    refine ⟨16 * i, way, by rw [hset]; exact hway, ?_⟩
    rw [lineAt, hset]
    simp [CacheSet.lineAt, hway]
  · rintro ⟨address, way, hway, rfl⟩
    refine ⟨cache.setOf address, Vector.getElem_mem _, ?_⟩
    rw [lineAt, CacheSet.lineAt, List.getElem?_eq_getElem hway]
    exact List.getElem_mem hway

theorem lineCount_saveLine (memory : MainMemory) (line : CacheLine) :
    (saveLine memory line).lineCount = memory.lineCount := by
  unfold saveLine
  split <;> rfl

theorem lineCount_saveLines (lines : List CacheLine) (memory : MainMemory) :
    (lines.foldl saveLine memory).lineCount = memory.lineCount := by
  induction lines generalizing memory with
  | nil => rfl
  | cons line rest ih =>
      rw [List.foldl_cons, ih, lineCount_saveLine]

theorem peekWords_saveLine {memory : MainMemory} {line : CacheLine} {tag : Nat}
    (haligned : ∀ old, line.owed? = some old → memory.lineStart old = old)
    (htag : memory.lineStart tag = tag) :
    (saveLine memory line).peekWords tag =
      if line.owed? = some tag then line.line.words else memory.peekWords tag := by
  unfold saveLine
  split
  · rename_i hnone
    simp [hnone]
  · rename_i old hold
    rw [MainMemory.peekWords_putLine', haligned old hold, htag]
    simp [hold]

-- Lines that are saved to the same place have the same words, so that their order is of no account.
theorem peekWords_saveLines {lines : List CacheLine} {memory : MainMemory} {tag : Nat}
    {words : Vector Word lineLength} (htag : memory.lineStart tag = tag)
    (haligned : ∀ line ∈ lines, ∀ old, line.owed? = some old → memory.lineStart old = old)
    (hwords : ∀ line ∈ lines, line.owed? = some tag → line.line.words = words)
    (hsome : memory.peekWords tag = words ∨ ∃ line ∈ lines, line.owed? = some tag) :
    (lines.foldl saveLine memory).peekWords tag = words := by
  induction lines generalizing memory with
  | nil => simpa using hsome
  | cons line rest ih =>
      have hcount := lineCount_saveLine memory line
      have hfirst := peekWords_saveLine (haligned line List.mem_cons_self) htag
      apply ih ((lineStart_congr hcount tag).trans htag)
      · intro other hother old hold
        rw [lineStart_congr hcount]
        exact haligned other (List.mem_cons_of_mem _ hother) old hold
      · intro other hother
        exact hwords other (List.mem_cons_of_mem _ hother)
      · rw [hfirst]
        split
        · rename_i howed
          exact .inl (hwords line List.mem_cons_self howed)
        · rename_i hn
          rcases hsome with hmemory | ⟨other, hother, howed⟩
          · exact .inl hmemory
          · rcases List.mem_cons.mp hother with rfl | hrest
            · exact absurd howed hn
            · exact .inr ⟨other, hrest, howed⟩

section Flush

variable {cache : Cache}

theorem memory_flush (cache : Cache) :
    cache.flush.memory = cache.allLines.foldl saveLine cache.memory := rfl

theorem setOf_flush (cache : Cache) (address : Nat) :
    cache.flush.setOf address = (cache.setOf address).map cleanedLine := by
  show (cache.sets.map _)[setIndex address] = _
  simp [setOf]

theorem lineAt_flush (cache : Cache) (address way : Nat) :
    cache.flush.lineAt address way = cleanedLine (cache.lineAt address way) := by
  rw [lineAt, setOf_flush, lineAt]
  by_cases hway : way < (cache.setOf address).length
  · simp [CacheSet.lineAt, hway]
  · simp only [CacheSet.lineAt, List.getElem?_map, List.getElem?_eq_none (Nat.le_of_not_lt hway)]
    rfl

theorem lineStart_flush (cache : Cache) (address : Nat) :
    cache.flush.memory.lineStart address = cache.memory.lineStart address :=
  lineStart_congr (by rw [memory_flush, lineCount_saveLines]) address

theorem tag_flush (cache : Cache) (address way : Nat) :
    (cache.flush.lineAt address way).tag = (cache.lineAt address way).tag := by
  rw [lineAt_flush, CacheLine.tag, CacheLine.line_cleanedLine, CacheLine.tag]

variable (h : Coherent cache)

include h

theorem Coherent.aligned_of_owed? {line : CacheLine} (hline : line ∈ cache.allLines) {old : Nat}
    (hold : line.owed? = some old) : cache.memory.lineStart old = old := by
  obtain ⟨address, way, -, rfl⟩ := mem_allLines.mp hline
  exact (h.home (owed?_eq_some hold).2).1

-- A line in memory is after flushing what the cache has of it, or else what it was.
theorem Coherent.peekWords_flush (address : Nat) :
    cache.flush.memory.peekWords address = cache.viewLine address := by
  rw [← cache.flush.memory.peekWords_lineStart, lineStart_flush, memory_flush]
  have haligned := cache.memory.lineStart_lineStart address
  generalize hu : cache.memory.lineStart address = u at haligned
  have hpeek : cache.memory.peekWords u = cache.memory.peekWords address :=
    cache.memory.peekWords_congr (haligned.trans hu.symm)
  -- a line of the cache that is owed to memory is the one that is seen
  have howed : ∀ line ∈ cache.allLines, line.owed? = some u →
      line.line.words = cache.viewLine address := by
    intro line hline hold
    obtain ⟨other, way, -, rfl⟩ := mem_allLines.mp hline
    obtain ⟨hdirty, htag⟩ := owed?_eq_some hold
    have hvalid := h.valid hdirty
    have hsame := cache.lineAt_congr (h.home htag).2.symm way
    rw [hsame] at htag hvalid ⊢
    exact (h.viewLine_of_valid hu htag hvalid).symm
  refine peekWords_saveLines haligned (fun line hline old => h.aligned_of_owed? hline) howed ?_
  by_cases hpresent : ∃ way, (cache.lineAt u way).tag = some u ∧ (cache.lineAt u way).valid = true
  · obtain ⟨way, htag, hvalid⟩ := hpresent
    cases hd : (cache.lineAt u way).dirty with
    | false =>
        left
        rw [h.viewLine_of_valid hu htag hvalid, h.clean htag hvalid hd]
    | true =>
        right
        refine ⟨_, mem_allLines.mpr ⟨u, way, CacheSet.lt_length_of_tag htag, rfl⟩, ?_⟩
        simp [CacheLine.owed?, hd, htag]
  · left
    rw [hpeek, viewLine_of_absent hu]
    intro way htag
    exact Bool.eq_false_iff.mpr fun hv => hpresent ⟨way, htag, hv⟩

theorem Coherent.flush : Coherent cache.flush := by
  refine ⟨h.ways_pos, ?_, ?_, ?_, ?_, ?_, ?_, ?_⟩
  · intro address
    rw [setOf_flush, List.length_map]
    exact h.length_eq address
  · intro address way tag htag
    rw [tag_flush] at htag
    rw [lineStart_flush]
    exact h.home htag
  · intro address way other tag htag hother
    rw [tag_flush] at htag hother
    exact h.unique htag hother
  · intro address way hvalid
    rw [lineAt_flush, CacheLine.valid_cleanedLine] at hvalid
    rw [tag_flush]
    exact h.tagged hvalid
  · intro address way hdirty
    rw [lineAt_flush, CacheLine.dirty_cleanedLine, Bool.and_eq_true] at hdirty
    rw [lineAt_flush, CacheLine.valid_cleanedLine]
    exact h.valid hdirty.1
  · intro address way tag htag hvalid _
    rw [tag_flush] at htag
    rw [lineAt_flush, CacheLine.valid_cleanedLine] at hvalid
    obtain ⟨haligned, hindex⟩ := h.home htag
    have hsame := cache.lineAt_congr hindex way
    rw [h.peekWords_flush, lineAt_flush, CacheLine.line_cleanedLine,
      h.viewLine_of_valid haligned (hsame ▸ htag) (hsame ▸ hvalid), hsame]
  · intro issuer held hheld
    obtain ⟨hlt, hinvalid⟩ := h.reserved (show cache.reservation issuer = some held from hheld)
    refine ⟨hlt, ?_⟩
    intro way htag hvalid
    rw [tag_flush] at htag
    rw [lineAt_flush, CacheLine.valid_cleanedLine] at hvalid
    exact hinvalid way htag hvalid

theorem Coherent.flush_spec : Presents cache cache.flush cache.view ∧
    cache.flush.memory.peek = cache.view := by
  have hcount : cache.flush.memory.lineCount = cache.memory.lineCount := by
    rw [memory_flush, lineCount_saveLines]
  have hpeek : cache.flush.memory.peek = cache.view := by
    rw [← MainMemory.wordsOf_peekWords, view_eq_wordsOf, funext h.peekWords_flush]
    exact wordsOf_congr _ _ _
  refine ⟨⟨h.flush, hcount, ?_⟩, hpeek⟩
  rw [← hpeek, view_eq_wordsOf, ← MainMemory.wordsOf_peekWords]
  congr 1
  funext address
  -- what is still in the cache is clean now
  by_cases hpresent : ∃ way, (cache.flush.lineAt (cache.flush.memory.lineStart address) way).tag =
      some (cache.flush.memory.lineStart address) ∧
      (cache.flush.lineAt (cache.flush.memory.lineStart address) way).valid = true
  · obtain ⟨way, htag, hvalid⟩ := hpresent
    have hdirty :
        (cache.flush.lineAt (cache.flush.memory.lineStart address) way).dirty = false := by
      rw [lineAt_flush, CacheLine.dirty_cleanedLine]
      rw [tag_flush] at htag
      simp [htag]
    rw [h.flush.viewLine_of_valid rfl htag hvalid, h.flush.clean htag hvalid hdirty,
      MainMemory.peekWords_lineStart]
  · exact viewLine_of_absent rfl fun way htag => Bool.eq_false_iff.mpr fun hv =>
      hpresent ⟨way, htag, hv⟩

end Flush

end Cache

end PipelinedProcessor
