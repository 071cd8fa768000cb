import PipelinedProcessor.Proofs.Cache.Flushing

namespace PipelinedProcessor

-- What of a line has a say in where others go.
structure Mark where
  tag : Option Nat
  valid : Bool
  rank : Option Nat

def CacheLine.mark (line : CacheLine) : Mark := ⟨line.tag, line.valid, line.rank⟩

theorem CacheLine.mark_cleanedLine (line : CacheLine) :
    (Cache.cleanedLine line).mark = line.mark := by
  unfold Cache.cleanedLine
  split <;> rfl

namespace CacheSet

def marks (set : CacheSet) : List Mark := set.map CacheLine.mark

theorem length_of_marks {before after : CacheSet} (h : after.marks = before.marks) :
    after.length = before.length := by
  have hlength := congrArg List.length h
  rwa [marks, marks, List.length_map, List.length_map] at hlength

theorem mark_of_marks {before after : CacheSet} (h : after.marks = before.marks) (way : Nat) :
    (after.lineAt way).mark = (before.lineAt way).mark := by
  have hmark (set : CacheSet) :
      (set.lineAt way).mark = (set.marks[way]?).getD CacheLine.empty.mark := by
    rw [lineAt, marks, List.getElem?_map]
    cases set[way]? <;> rfl
  rw [hmark, hmark, h]

theorem marks_clean (set : CacheSet) (way : Nat) :
    CacheSet.marks (List.modify set way fun line => { line with dirty := false }) = set.marks := by
  apply List.ext_getElem
  · simp [marks]
  · intro i h₁ h₂
    simp only [marks, List.getElem_map, List.getElem_modify]
    split <;> rfl

-- The rank of another line when one is used, and when one is dropped, that had a rank of its own.

def grown (own : Option Nat) (rank : Nat) : Nat := if own.all (rank < ·) then rank + 1 else rank

def sunk (own : Option Nat) (rank : Nat) : Nat := if own.any (· < rank) then rank - 1 else rank

-- A way has the line of a tag, and is the one used last.
structure Used (before after : CacheSet) (tag way : Nat) : Prop where
  length_eq : after.length = before.length
  mark_eq : (after.lineAt way).mark = ⟨some tag, true, some 0⟩
  others : ∀ other, other ≠ way → (after.lineAt other).mark =
    { (before.lineAt other).mark with
      rank := (before.lineAt other).rank.map (grown (before.lineAt way).rank) }

structure Dropped (before after : CacheSet) (way : Nat) : Prop where
  length_eq : after.length = before.length
  mark_eq : (after.lineAt way).mark = ⟨(before.lineAt way).tag, false, none⟩
  others : ∀ other, other ≠ way → (after.lineAt other).mark =
    { (before.lineAt other).mark with
      rank := (before.lineAt other).rank.map (sunk (before.lineAt way).rank) }

theorem lineAt_of_rank {set : CacheSet} {way rank : Nat} (h : (set.lineAt way).rank = some rank) :
    way < set.length := by
  by_contra hle
  rw [lineAt_of_le (Nat.le_of_not_lt hle)] at h
  cases h

theorem mark_touch_self {set : CacheSet} {way : Nat} (h : way < set.length) :
    ((set.touch way).lineAt way).mark = { (set.lineAt way).mark with rank := some 0 } := by
  rw [touch, lineAt_mapIdx set _ h, if_pos rfl]
  rfl

theorem mark_touch (set : CacheSet) {way other : Nat} (hne : other ≠ way) :
    ((set.touch way).lineAt other).mark =
      { (set.lineAt other).mark with
        rank := (set.lineAt other).rank.map (grown (set.lineAt way).rank) } := by
  by_cases h : other < set.length
  · rw [touch, lineAt_mapIdx set _ h, if_neg hne]
    cases hrank : (set.lineAt other).rank with
    | none => simp only [aged, hrank, CacheLine.mark, Option.map_none]
    | some rank =>
        simp only [aged, hrank, CacheLine.mark, Option.map_some, grown]
        split
        · rfl
        · rw [hrank]
  · have hle := Nat.le_of_not_lt h
    rw [lineAt_of_le (by simpa using hle), lineAt_of_le hle]
    rfl

theorem used_touch (set : CacheSet) {tag way : Nat} (htag : (set.lineAt way).tag = some tag)
    (hvalid : (set.lineAt way).valid = true) : Used set (set.touch way) tag way := by
  refine ⟨set.length_touch way, ?_, fun other hne => set.mark_touch hne⟩
  rw [mark_touch_self (lt_length_of_tag htag), CacheLine.mark, htag, hvalid]

-- What is put into a way before it is touched is no matter to the other ways.
theorem used_touch_modify (set : CacheSet) {tag way : Nat} (f : CacheLine → CacheLine)
    (hway : way < set.length) (htag : (f (set.lineAt way)).tag = some tag)
    (hvalid : (f (set.lineAt way)).valid = true)
    (hrank : (f (set.lineAt way)).rank = (set.lineAt way).rank) :
    Used set (CacheSet.touch (List.modify set way f) way) tag way := by
  have hself : CacheSet.lineAt (List.modify set way f) way = f (set.lineAt way) := by
    rw [lineAt_modify, if_pos ⟨rfl, hway⟩]
  obtain ⟨hlength, hmark, hothers⟩ := used_touch (List.modify set way f) (by rw [hself, htag])
    (by rw [hself, hvalid])
  refine ⟨hlength.trans (List.length_modify ..), hmark, ?_⟩
  intro other hne
  have hother : CacheSet.lineAt (List.modify set way f) other = set.lineAt other := by
    rw [lineAt_modify, if_neg fun h => hne h.1.symm]
  rw [hothers other hne, hother, hself, hrank]

theorem used_install (set : CacheSet) {tag way : Nat} (line : Line) (dirty : Bool)
    (hway : way < set.length) (hstart : line.start = some tag) :
    Used set (set.install way line dirty) tag way :=
  set.used_touch_modify _ hway hstart rfl rfl

theorem used_overwrite {set : CacheSet} {tag way : Nat} (words : Vector Word lineLength)
    (htag : (set.lineAt way).tag = some tag) (hvalid : (set.lineAt way).valid = true) :
    Used set (set.overwrite way words) tag way :=
  set.used_touch_modify _ (lt_length_of_tag htag) htag hvalid rfl

theorem dropped_withdraw {set : CacheSet} {way : Nat} (h : way < set.length) :
    Dropped set (set.withdraw way) way := by
  refine ⟨set.length_withdraw way, ?_, ?_⟩
  · rw [withdraw, lineAt_mapIdx set _ h, if_pos rfl]
    rfl
  · intro other hne
    by_cases hlt : other < set.length
    · rw [withdraw, lineAt_mapIdx set _ hlt, if_neg hne]
      cases hown : (set.lineAt way).rank with
      | none =>
          cases hrank : (set.lineAt other).rank <;>
            simp [closedUp, hrank, CacheLine.mark, sunk]
      | some own =>
          cases hrank : (set.lineAt other).rank with
          | none => simp only [closedUp, hrank, CacheLine.mark, Option.map_none]
          | some rank =>
              simp only [closedUp, hrank, CacheLine.mark, Option.map_some, sunk,
                Option.any_some, decide_eq_true_eq]
              split
              · rfl
              · rw [hrank]
    · have hle := Nat.le_of_not_lt hlt
      rw [lineAt_of_le (by simpa using hle), lineAt_of_le hle]
      rfl

theorem Used.of_marks {before middle after : CacheSet} {tag way : Nat}
    (h : Used middle after tag way) (hmarks : middle.marks = before.marks) :
    Used before after tag way := by
  have hrank (other : Nat) : (middle.lineAt other).rank = (before.lineAt other).rank :=
    congrArg Mark.rank (mark_of_marks hmarks other)
  refine ⟨h.length_eq.trans (length_of_marks hmarks), h.mark_eq, ?_⟩
  intro other hne
  rw [h.others other hne, mark_of_marks hmarks, hrank, hrank]

-- To use a way twice is to use it once.
theorem Used.again {before middle after : CacheSet} {tag way : Nat} (h : Used before middle tag way)
    (h' : Used middle after tag way) : Used before after tag way := by
  refine ⟨h'.length_eq.trans h.length_eq, h'.mark_eq, ?_⟩
  intro other hne
  have hself : (middle.lineAt way).rank = some 0 := congrArg Mark.rank h.mark_eq
  have hsame : grown (some 0) = id := by
    funext rank
    simp [grown]
  have hrank : (middle.lineAt other).rank =
      (before.lineAt other).rank.map (grown (before.lineAt way).rank) :=
    congrArg Mark.rank (h.others other hne)
  rw [h'.others other hne, hself, hsame, Option.map_id, id, hrank, h.others other hne]

end CacheSet

namespace Cache

-- The same lines in all ways, by what has a say in where others go.
structure SameMarks (before after : Cache) : Prop where
  ways_eq : after.ways = before.ways
  lineCount_eq : after.memory.lineCount = before.memory.lineCount
  marks_eq : ∀ address, (after.setOf address).marks = (before.setOf address).marks

theorem SameMarks.refl (cache : Cache) : SameMarks cache cache := ⟨rfl, rfl, fun _ => rfl⟩

theorem SameMarks.trans {before middle after : Cache} (h : SameMarks before middle)
    (h' : SameMarks middle after) : SameMarks before after :=
  ⟨h'.ways_eq.trans h.ways_eq, h'.lineCount_eq.trans h.lineCount_eq,
    fun address => (h'.marks_eq address).trans (h.marks_eq address)⟩

theorem SameMarks.mark_eq {before after : Cache} (h : SameMarks before after) (address way : Nat) :
    (after.lineAt address way).mark = (before.lineAt address way).mark :=
  CacheSet.mark_of_marks (h.marks_eq address) way

theorem SameMarks.length_eq {before after : Cache} (h : SameMarks before after)
    (hlength : ∀ address, (before.setOf address).length = before.ways) (address : Nat) :
    (after.setOf address).length = after.ways := by
  rw [CacheSet.length_of_marks (h.marks_eq address), h.ways_eq, hlength]

-- A change of one set by `Change`, which leaves the other sets alone.
structure ChangesSet (before after : Cache) (tag : Nat) (Change : CacheSet → CacheSet → Prop) :
    Prop where
  ways_eq : after.ways = before.ways
  lineCount_eq : after.memory.lineCount = before.memory.lineCount
  changed : Change (before.setOf tag) (after.setOf tag)
  others : ∀ address, setIndex tag ≠ setIndex address →
    (after.setOf address).marks = (before.setOf address).marks

theorem ChangesSet.length_eq {before after : Cache} {tag : Nat}
    {Change : CacheSet → CacheSet → Prop} (h : ChangesSet before after tag Change)
    (hlength : ∀ address, (before.setOf address).length = before.ways)
    (hchange : Change (before.setOf tag) (after.setOf tag) →
      (after.setOf tag).length = (before.setOf tag).length) (address : Nat) :
    (after.setOf address).length = after.ways := by
  rw [h.ways_eq, ← hlength address]
  by_cases hindex : setIndex tag = setIndex address
  · rw [← after.setOf_congr hindex, ← before.setOf_congr hindex]
    exact hchange h.changed
  · exact CacheSet.length_of_marks (h.others address hindex)

def UsesWay (before after : Cache) (tag way : Nat) : Prop :=
  ChangesSet before after tag fun set set' => CacheSet.Used set set' tag way

theorem changesSet_of_modifySet {before middle after : Cache} {tag : Nat}
    {Change : CacheSet → CacheSet → Prop} (hsame : SameMarks before middle)
    (f : CacheSet → CacheSet) (hsets : after.sets = (middle.modifySet tag f).sets)
    (hways : after.ways = middle.ways) (hcount : after.memory.lineCount = middle.memory.lineCount)
    (hchange : Change (before.setOf tag) (f (middle.setOf tag))) :
    ChangesSet before after tag Change := by
  have hset (address : Nat) : after.setOf address = (middle.modifySet tag f).setOf address := by
    simp only [setOf, hsets]
  refine ⟨hways.trans hsame.ways_eq, hcount.trans hsame.lineCount_eq, ?_, ?_⟩
  · rw [hset, setOf_modifySet, if_pos rfl]
    exact hchange
  · intro address hne
    rw [hset, setOf_modifySet, if_neg hne, hsame.marks_eq]

theorem UsesWay.again {before middle after : Cache} {tag way : Nat}
    (h : UsesWay before middle tag way) (h' : UsesWay middle after tag way) :
    UsesWay before after tag way :=
  ⟨h'.ways_eq.trans h.ways_eq, h'.lineCount_eq.trans h.lineCount_eq, h.changed.again h'.changed,
    fun address hne => (h'.others address hne).trans (h.others address hne)⟩

-- All ways that are spoken of are there.
structure Sized (cache : Cache) : Prop where
  ways_pos : 0 < cache.ways
  length_eq : ∀ address, (cache.setOf address).length = cache.ways
  held_lt : ∀ issuer held, cache.reservation issuer = some held → held.way < cache.ways

-- An access that is done leaves no reservation of its issuer and those of all others.
def Releases (before after : Cache) (issuer : Stage) : Prop :=
  ∀ other, after.reservation other = if issuer = other then none else before.reservation other

theorem releases_finish {before after : Cache} (issuer : Stage)
    (h : ∀ other, issuer ≠ other → after.reservation other = before.reservation other) :
    Releases before (after.finish issuer) issuer := by
  intro other
  have hother : (after.finish issuer).reservation other =
      (after.setReservation issuer none).reservation other := rfl
  rw [hother, reservation_setReservation]
  split
  · rfl
  · rename_i hne
    exact h other hne

theorem lineCount_finish (cache : Cache) (issuer : Stage) :
    (cache.finish issuer).memory.lineCount = cache.memory.lineCount := by
  obtain ⟨pending, hpending⟩ := cache.memory.release_eq issuer
  show (cache.memory.release issuer).lineCount = _
  rw [hpending]

end Cache

end PipelinedProcessor
