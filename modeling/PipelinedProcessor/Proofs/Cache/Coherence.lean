import PipelinedProcessor.Cache.Access
import PipelinedProcessor.Proofs.Cache.Lines
import PipelinedProcessor.Proofs.Memory.Lemmas

namespace PipelinedProcessor.Cache

-- The words of the line of an address: what the cache has, or else what memory has.
def viewLine (cache : Cache) (address : Nat) : Vector Word lineLength :=
  let tag := cache.memory.lineStart address
  match (cache.setOf tag).hit? tag with
  | some way => (cache.lineAt tag way).line.words
  | none => cache.memory.peekWords address

theorem view_eq (cache : Cache) (address : Nat) :
    cache.view address = (cache.viewLine address).get (cache.memory.offset address) := by
  simp only [view, peek?, viewLine]
  cases (cache.setOf (cache.memory.lineStart address)).hit? (cache.memory.lineStart address) with
  | some way => rfl
  | none => rfl

-- What every interleaving of accesses keeps. A tag names a line of memory, stands in the set of
-- that line and in one way of it only; a clean line agrees with memory. A line that was dropped
-- may keep its tag, but then an issuer that waits for it waits for that very way.
structure Coherent (cache : Cache) : Prop where
  ways_pos : 0 < cache.ways
  length_eq : ∀ address, (cache.setOf address).length = cache.ways
  home : ∀ {address way tag}, (cache.lineAt address way).tag = some tag →
    cache.memory.lineStart tag = tag ∧ setIndex tag = setIndex address
  unique : ∀ {address way other tag}, (cache.lineAt address way).tag = some tag →
    (cache.lineAt address other).tag = some tag → way = other
  tagged : ∀ {address way}, (cache.lineAt address way).valid = true →
    ∃ tag, (cache.lineAt address way).tag = some tag
  valid : ∀ {address way}, (cache.lineAt address way).dirty = true →
    (cache.lineAt address way).valid = true
  clean : ∀ {address way tag}, (cache.lineAt address way).tag = some tag →
    (cache.lineAt address way).valid = true → (cache.lineAt address way).dirty = false →
    (cache.lineAt address way).line.words = cache.memory.peekWords tag
  reserved : ∀ {issuer held}, cache.reservation issuer = some held → held.way < cache.ways ∧
    ∀ way, (cache.lineAt held.tag way).tag = some held.tag →
      (cache.lineAt held.tag way).valid = false → way = held.way

-- A cache in good order over a memory of so many lines, with the given words at every address.
structure Shows (cache : Cache) (lineCount : Nat) (content : Nat → Vector Word lineLength) :
    Prop where
  coherent : Coherent cache
  lineCount_eq : cache.memory.lineCount = lineCount
  viewLine_eq : ∀ address, cache.viewLine address = content address

theorem Coherent.shows {cache : Cache} (h : Coherent cache) :
    Shows cache cache.memory.lineCount cache.viewLine := ⟨h, rfl, fun _ => rfl⟩

-- Lookup.

theorem setOf_congr (cache : Cache) {a b : Nat} (h : setIndex a = setIndex b) :
    cache.setOf a = cache.setOf b := by
  simp only [setOf, h]

theorem lineAt_congr (cache : Cache) {a b : Nat} (h : setIndex a = setIndex b) (way : Nat) :
    cache.lineAt a way = cache.lineAt b way := by
  simp only [lineAt, cache.setOf_congr h]

theorem setOf_modifySet (cache : Cache) (a b : Nat) (f : CacheSet → CacheSet) :
    (cache.modifySet a f).setOf b =
      if setIndex a = setIndex b then f (cache.setOf b) else cache.setOf b := by
  by_cases h : setIndex a = setIndex b
  · rw [if_pos h, cache.setOf_congr h.symm]
    simp [setOf, modifySet, h]
  · have hne : (setIndex a).val ≠ (setIndex b).val := fun he => h (Fin.ext he)
    rw [if_neg h]
    simp [setOf, modifySet, hne]

theorem lineAt_modifySet (cache : Cache) (a b way : Nat) (f : CacheSet → CacheSet) :
    (cache.modifySet a f).lineAt b way =
      if setIndex a = setIndex b then (f (cache.setOf b)).lineAt way else cache.lineAt b way := by
  simp only [lineAt, setOf_modifySet]
  split <;> rfl

section Lookup

variable {cache : Cache} (h : Coherent cache) {tag way : Nat}

include h

theorem Coherent.way?_eq (htag : (cache.lineAt tag way).tag = some tag) :
    (cache.setOf tag).way? tag = some way := by
  cases hway : (cache.setOf tag).way? tag with
  | none => exact absurd htag (CacheSet.tag_ne_of_way? hway way)
  | some other => rw [h.unique htag (CacheSet.tag_of_way? hway)]

theorem Coherent.hit?_eq (htag : (cache.lineAt tag way).tag = some tag)
    (hvalid : (cache.lineAt tag way).valid = true) : (cache.setOf tag).hit? tag = some way := by
  have hv : ((cache.setOf tag).lineAt way).valid = true := hvalid
  simp [CacheSet.hit?, h.way?_eq htag, hv]

theorem Coherent.not_valid_of_miss (hmiss : (cache.setOf tag).hit? tag = none)
    (htag : (cache.lineAt tag way).tag = some tag) : (cache.lineAt tag way).valid = false := by
  cases hv : (cache.lineAt tag way).valid with
  | false => rfl
  | true => simp [h.hit?_eq htag hv] at hmiss

theorem Coherent.viewLine_of_valid {address : Nat} (haddress : cache.memory.lineStart address = tag)
    (htag : (cache.lineAt tag way).tag = some tag) (hvalid : (cache.lineAt tag way).valid = true) :
    cache.viewLine address = (cache.lineAt tag way).line.words := by
  simp only [viewLine, haddress, h.hit?_eq htag hvalid]

omit h in
theorem viewLine_of_absent {address : Nat} (haddress : cache.memory.lineStart address = tag)
    (habsent : ∀ way, (cache.lineAt tag way).tag = some tag →
      (cache.lineAt tag way).valid = false) :
    cache.viewLine address = cache.memory.peekWords address := by
  have hmiss : (cache.setOf tag).hit? tag = none := by
    cases hhit : (cache.setOf tag).hit? tag with
    | none => rfl
    | some way =>
        obtain ⟨hway, hvalid⟩ := CacheSet.way?_of_hit? hhit
        have hinvalid := habsent way (CacheSet.tag_of_way? hway)
        rw [lineAt, hvalid] at hinvalid
        cases hinvalid
  simp only [viewLine, haddress, hmiss]

end Lookup

theorem viewLine_of_hit {cache : Cache} {address way : Nat}
    (hhit : (cache.setOf (cache.memory.lineStart address)).hit? (cache.memory.lineStart address) =
      some way) :
    cache.viewLine address = (cache.lineAt (cache.memory.lineStart address) way).line.words := by
  simp only [viewLine, hhit]

theorem viewLine_of_miss {cache : Cache} {address : Nat}
    (hmiss : (cache.setOf (cache.memory.lineStart address)).hit?
      (cache.memory.lineStart address) = none) :
    cache.viewLine address = cache.memory.peekWords address := by
  simp only [viewLine, hmiss]

theorem viewLine_congr (cache : Cache) {a b : Nat}
    (hline : cache.memory.lineStart a = cache.memory.lineStart b) :
    cache.viewLine a = cache.viewLine b := by
  simp only [viewLine, hline, cache.memory.peekWords_congr hline]

-- The cache is as before but for ranks, counts and what is under way.
structure SameLines (before after : Cache) : Prop where
  ways_eq : after.ways = before.ways
  length_eq : ∀ address, (after.setOf address).length = (before.setOf address).length
  line_eq : ∀ address way, (after.lineAt address way).line = (before.lineAt address way).line
  valid_eq : ∀ address way, (after.lineAt address way).valid = (before.lineAt address way).valid
  dirty_eq : ∀ address way, (after.lineAt address way).dirty = (before.lineAt address way).dirty
  memory_eq : ∃ pending, after.memory = { before.memory with pending := pending }
  reservations : ∀ {issuer held}, after.reservation issuer = some held →
    before.reservation issuer = some held

section Same

variable {before after : Cache}

theorem SameLines.tag_eq (hs : SameLines before after) (address way : Nat) :
    (after.lineAt address way).tag = (before.lineAt address way).tag := by
  rw [CacheLine.tag, hs.line_eq, CacheLine.tag]

theorem SameLines.lineCount_eq (hs : SameLines before after) :
    after.memory.lineCount = before.memory.lineCount := by
  obtain ⟨pending, hp⟩ := hs.memory_eq
  rw [hp]

theorem SameLines.peekWords_eq (hs : SameLines before after) (address : Nat) :
    after.memory.peekWords address = before.memory.peekWords address := by
  obtain ⟨pending, hp⟩ := hs.memory_eq
  rw [hp]
  rfl

theorem SameLines.lineStart_eq (hs : SameLines before after) (address : Nat) :
    after.memory.lineStart address = before.memory.lineStart address := by
  obtain ⟨pending, hp⟩ := hs.memory_eq
  rw [hp]
  rfl

theorem Coherent.of_same (h : Coherent before) (hs : SameLines before after) : Coherent after := by
  refine ⟨hs.ways_eq ▸ h.ways_pos, ?_, ?_, ?_, ?_, ?_, ?_, ?_⟩
  · intro address
    rw [hs.length_eq, hs.ways_eq, h.length_eq]
  · intro address way tag htag
    rw [hs.lineStart_eq]
    exact h.home ((hs.tag_eq address way).symm.trans htag)
  · intro address way other tag htag hother
    exact h.unique ((hs.tag_eq address way).symm.trans htag)
      ((hs.tag_eq address other).symm.trans hother)
  · intro address way hvalid
    rw [hs.tag_eq]
    exact h.tagged ((hs.valid_eq address way).symm.trans hvalid)
  · intro address way hdirty
    rw [hs.valid_eq]
    exact h.valid ((hs.dirty_eq address way).symm.trans hdirty)
  · intro address way tag htag hvalid hdirty
    rw [hs.line_eq, hs.peekWords_eq]
    exact h.clean ((hs.tag_eq address way).symm.trans htag)
      ((hs.valid_eq address way).symm.trans hvalid) ((hs.dirty_eq address way).symm.trans hdirty)
  · intro issuer held hheld
    obtain ⟨hlt, hinvalid⟩ := h.reserved (hs.reservations hheld)
    refine ⟨hs.ways_eq ▸ hlt, ?_⟩
    intro way htag hvalid
    exact hinvalid way ((hs.tag_eq _ way).symm.trans htag) ((hs.valid_eq _ way).symm.trans hvalid)

theorem Shows.of_same {lineCount : Nat} {content : Nat → Vector Word lineLength}
    (h : Shows before lineCount content) (hs : SameLines before after) :
    Shows after lineCount content := by
  have hafter := h.coherent.of_same hs
  refine ⟨hafter, hs.lineCount_eq.trans h.lineCount_eq, ?_⟩
  intro address
  rw [← h.viewLine_eq]
  generalize htag : before.memory.lineStart address = tag
  have htag' : after.memory.lineStart address = tag := (hs.lineStart_eq address).trans htag
  by_cases hpresent : ∃ way, (before.lineAt tag way).tag = some tag ∧
    (before.lineAt tag way).valid = true
  · obtain ⟨way, hway, hvalid⟩ := hpresent
    rw [h.coherent.viewLine_of_valid htag hway hvalid, hafter.viewLine_of_valid htag'
      ((hs.tag_eq tag way).trans hway) ((hs.valid_eq tag way).trans hvalid), hs.line_eq]
  · have habsent : ∀ way, (before.lineAt tag way).tag = some tag →
        (before.lineAt tag way).valid = false := by
      intro way hway
      exact Bool.eq_false_iff.mpr fun hv => hpresent ⟨way, hway, hv⟩
    rw [viewLine_of_absent htag habsent, viewLine_of_absent htag', hs.peekWords_eq]
    intro way hway
    rw [hs.valid_eq]
    exact habsent way ((hs.tag_eq tag way).symm.trans hway)

end Same

-- Another line in one way of the set of `tag`, and all other ways as before.
structure ChangesWay (before after : Cache) (tag way : Nat) (line : Line) (valid dirty : Bool) :
    Prop where
  ways_eq : after.ways = before.ways
  length_eq : ∀ address, (after.setOf address).length = (before.setOf address).length
  line_eq : (after.lineAt tag way).line = line
  valid_eq : (after.lineAt tag way).valid = valid
  dirty_eq : (after.lineAt tag way).dirty = dirty
  others : ∀ address other, ¬(setIndex address = setIndex tag ∧ other = way) →
    (after.lineAt address other).line = (before.lineAt address other).line ∧
    (after.lineAt address other).valid = (before.lineAt address other).valid ∧
    (after.lineAt address other).dirty = (before.lineAt address other).dirty

-- When one way may be given the line of `tag`. Memory may change in that line alone.
structure Admits (before after : Cache) (tag way : Nat) (line : Line) (valid dirty : Bool) :
    Prop where
  changes : ChangesWay before after tag way line valid dirty
  way_lt : way < before.ways
  start : line.start = some tag
  aligned : before.memory.lineStart tag = tag
  alone : ∀ other, (before.lineAt tag other).tag = some tag → other = way
  dirty_valid : dirty = true → valid = true
  clean : valid = true → dirty = false → line.words = after.memory.peekWords tag
  lineCount_eq : after.memory.lineCount = before.memory.lineCount
  memory_eq : ∀ other, before.memory.lineStart other = other → other ≠ tag →
    after.memory.peekWords other = before.memory.peekWords other
  reservations : ∀ issuer held, after.reservation issuer = some held →
    before.reservation issuer = some held ∧ (valid = false → held.tag = tag → held.way = way)

theorem lineStart_congr {memory other : MainMemory} (h : other.lineCount = memory.lineCount)
    (address : Nat) : other.lineStart address = memory.lineStart address := by
  simp only [MainMemory.lineStart, MainMemory.wrap, MainMemory.capacity, h]

section Change

variable {before after : Cache} {tag way : Nat} {line : Line} {valid dirty : Bool}

theorem Admits.tag_eq (ha : Admits before after tag way line valid dirty) :
    (after.lineAt tag way).tag = some tag := by
  rw [CacheLine.tag, ha.changes.line_eq, ha.start]

theorem Admits.coherent (h : Coherent before) (ha : Admits before after tag way line valid dirty) :
    Coherent after := by
  have hc := ha.changes
  have hstart (address : Nat) : after.memory.lineStart address = before.memory.lineStart address :=
    lineStart_congr ha.lineCount_eq address
  -- what a tag in the new cache says about the old one
  have hcases : ∀ {address other t}, (after.lineAt address other).tag = some t →
      (setIndex address = setIndex tag ∧ other = way ∧ t = tag) ∨
      (¬(setIndex address = setIndex tag ∧ other = way) ∧
        (before.lineAt address other).tag = some t) := by
    intro address other t htag
    by_cases hat : setIndex address = setIndex tag ∧ other = way
    · obtain ⟨hset, rfl⟩ := hat
      rw [after.lineAt_congr hset, ha.tag_eq] at htag
      exact .inl ⟨hset, rfl, (Option.some.inj htag).symm⟩
    · rw [CacheLine.tag, (hc.others address other hat).1] at htag
      exact .inr ⟨hat, htag⟩
  refine ⟨hc.ways_eq ▸ h.ways_pos, ?_, ?_, ?_, ?_, ?_, ?_, ?_⟩
  · intro address
    rw [hc.length_eq, hc.ways_eq, h.length_eq]
  · intro address other t htag
    rw [hstart]
    rcases hcases htag with ⟨hset, -, rfl⟩ | ⟨-, hold⟩
    · exact ⟨ha.aligned, hset.symm⟩
    · exact h.home hold
  · intro address first second t hfirst hsecond
    rcases hcases hfirst with ⟨hset, rfl, rfl⟩ | ⟨hn, hold⟩
    · rcases hcases hsecond with ⟨-, rfl, -⟩ | ⟨-, hold'⟩
      · rfl
      · rw [before.lineAt_congr hset] at hold'
        exact (ha.alone second hold').symm
    · rcases hcases hsecond with ⟨hset, rfl, rfl⟩ | ⟨-, hold'⟩
      · rw [before.lineAt_congr hset] at hold
        exact ha.alone first hold
      · exact h.unique hold hold'
  · intro address other hvalid
    by_cases hat : setIndex address = setIndex tag ∧ other = way
    · obtain ⟨hset, rfl⟩ := hat
      exact ⟨tag, by rw [after.lineAt_congr hset, ha.tag_eq]⟩
    · obtain ⟨hl, hv, -⟩ := hc.others address other hat
      rw [hv] at hvalid
      simp only [CacheLine.tag, hl]
      exact h.tagged hvalid
  · intro address other hdirty
    by_cases hat : setIndex address = setIndex tag ∧ other = way
    · obtain ⟨hset, rfl⟩ := hat
      rw [after.lineAt_congr hset] at hdirty ⊢
      rw [hc.dirty_eq] at hdirty
      rw [hc.valid_eq]
      exact ha.dirty_valid hdirty
    · obtain ⟨-, hv, hd⟩ := hc.others address other hat
      rw [hd] at hdirty
      rw [hv]
      exact h.valid hdirty
  · intro address other t htag hvalid hdirty
    rcases hcases htag with ⟨hset, rfl, rfl⟩ | ⟨hn, hold⟩
    · rw [after.lineAt_congr hset] at hvalid hdirty ⊢
      rw [hc.valid_eq] at hvalid
      rw [hc.dirty_eq] at hdirty
      rw [hc.line_eq]
      exact ha.clean hvalid hdirty
    · obtain ⟨hl, hv, hd⟩ := hc.others address other hn
      rw [hv] at hvalid
      rw [hd] at hdirty
      obtain ⟨haligned, hindex⟩ := h.home hold
      have hne : t ≠ tag := by
        rintro rfl
        rw [← before.lineAt_congr hindex] at hold
        exact hn ⟨hindex.symm, ha.alone other hold⟩
      rw [hl, ha.memory_eq t haligned hne]
      exact h.clean hold hvalid hdirty
  · intro issuer held hheld
    obtain ⟨hbefore, hway⟩ := ha.reservations issuer held hheld
    obtain ⟨hlt, hinvalid⟩ := h.reserved hbefore
    refine ⟨hc.ways_eq ▸ hlt, ?_⟩
    intro other htag hv
    rcases hcases htag with ⟨hset, rfl, hheldtag⟩ | ⟨hn, hold⟩
    · rw [after.lineAt_congr hset, hc.valid_eq] at hv
      exact (hway hv hheldtag).symm
    · rw [(hc.others _ _ hn).2.1] at hv
      exact hinvalid other hold hv

-- The line that leaves the way is no loss if memory has it too.
theorem Admits.viewLine (h : Coherent before) (ha : Admits before after tag way line valid dirty)
    (hold : (before.lineAt tag way).dirty = false ∨ (before.lineAt tag way).tag = some tag)
    (address : Nat) :
    after.viewLine address =
      if before.memory.lineStart address = tag then
        if valid then line.words else after.memory.peekWords tag
      else before.viewLine address := by
  have hc := ha.changes
  have hafter := ha.coherent h
  have hstart : after.memory.lineStart address = before.memory.lineStart address :=
    lineStart_congr ha.lineCount_eq address
  by_cases haddress : before.memory.lineStart address = tag
  · rw [if_pos haddress]
    cases hv : valid with
    | true =>
        rw [if_pos rfl, hafter.viewLine_of_valid (hstart.trans haddress) ha.tag_eq
          (hc.valid_eq.trans hv), hc.line_eq]
    | false =>
        rw [if_neg (by simp)]
        have hpeek : after.memory.peekWords address = after.memory.peekWords tag :=
          after.memory.peekWords_congr
            (by rw [hstart, haddress, lineStart_congr ha.lineCount_eq, ha.aligned])
        rw [← hpeek]
        apply viewLine_of_absent (hstart.trans haddress)
        intro other htag
        rw [hafter.unique htag ha.tag_eq, hc.valid_eq, hv]
  · rw [if_neg haddress]
    generalize hu : before.memory.lineStart address = u at haddress hstart
    have haligned : before.memory.lineStart u = u := by
      rw [← hu, before.memory.lineStart_lineStart]
    have hpeek : after.memory.peekWords address = before.memory.peekWords address := by
      rw [← before.memory.peekWords_lineStart, ← after.memory.peekWords_lineStart, hstart, hu]
      exact ha.memory_eq u haligned haddress
    -- neither before nor after does the changed way hold this line
    have hother : ∀ other, (after.lineAt u other).tag = some u →
        ¬(setIndex u = setIndex tag ∧ other = way) := by
      rintro other htag ⟨hset, rfl⟩
      rw [after.lineAt_congr hset, ha.tag_eq] at htag
      exact haddress (Option.some.inj htag).symm
    by_cases hpresent : ∃ w, (before.lineAt u w).tag = some u ∧ (before.lineAt u w).valid = true
    · obtain ⟨w, htag, hvalid⟩ := hpresent
      rw [h.viewLine_of_valid hu htag hvalid]
      by_cases hat : setIndex u = setIndex tag ∧ w = way
      · obtain ⟨hset, rfl⟩ := hat
        have hclean : (before.lineAt u w).dirty = false := by
          rw [before.lineAt_congr hset] at htag ⊢
          rcases hold with hd | ht
          · exact hd
          · exact absurd (Option.some.inj (ht.symm.trans htag)).symm haddress
        rw [h.clean htag hvalid hclean, ← hu, before.memory.peekWords_lineStart, ← hpeek]
        apply viewLine_of_absent (hstart.trans hu.symm)
        intro other htag'
        have hn := hother other (by rw [← hu]; exact htag')
        have hbefore : (before.lineAt u other).tag = some u := by
          rw [CacheLine.tag, ← (hc.others u other hn).1]
          rw [← hu]
          exact htag'
        exact absurd ⟨hset, h.unique hbefore htag⟩ hn
      · obtain ⟨hl, hv, -⟩ := hc.others u w hat
        rw [hafter.viewLine_of_valid hstart (by rw [CacheLine.tag, hl]; exact htag)
          (hv.trans hvalid), hl]
    · have habsent : ∀ w, (before.lineAt u w).tag = some u → (before.lineAt u w).valid = false := by
        intro w htag
        exact Bool.eq_false_iff.mpr fun hv => hpresent ⟨w, htag, hv⟩
      rw [viewLine_of_absent hu habsent, ← hpeek]
      apply viewLine_of_absent hstart
      intro w htag
      obtain ⟨hl, hv, -⟩ := hc.others u w (hother w htag)
      rw [hv]
      exact habsent w (by rw [CacheLine.tag, ← hl]; exact htag)

end Change

end PipelinedProcessor.Cache
