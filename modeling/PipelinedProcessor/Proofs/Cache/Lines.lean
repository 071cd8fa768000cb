import PipelinedProcessor.Cache.Set
import Mathlib.Tactic.Common

namespace PipelinedProcessor.CacheSet

theorem lineAt_of_le {set : CacheSet} {way : Nat} (h : set.length ≤ way) :
    set.lineAt way = .empty := by
  simp [lineAt, h]

theorem lt_length_of_tag {set : CacheSet} {way tag : Nat} (h : (set.lineAt way).tag = some tag) :
    way < set.length := by
  by_contra hle
  rw [lineAt_of_le (Nat.le_of_not_lt hle)] at h
  simp [CacheLine.tag, CacheLine.empty, Line.empty] at h

theorem lineAt_modify (set : CacheSet) (way other : Nat) (f : CacheLine → CacheLine) :
    CacheSet.lineAt (List.modify set way f) other =
      if way = other ∧ other < set.length then f (set.lineAt other) else set.lineAt other := by
  unfold lineAt
  rw [List.getElem?_modify]
  by_cases hlt : other < set.length
  · by_cases heq : way = other <;> simp [heq, hlt]
  · simp [hlt]

theorem lineAt_mapIdx (set : CacheSet) (f : Nat → CacheLine → CacheLine) {other : Nat}
    (h : other < set.length) :
    CacheSet.lineAt (List.mapIdx f set) other = f other (set.lineAt other) := by
  simp [lineAt, h]

-- A use of a way changes ranks and nothing else.
theorem lineAt_touch (set : CacheSet) (way other : Nat) :
    ∃ rank, (set.touch way).lineAt other = { set.lineAt other with rank := rank } := by
  by_cases h : other < set.length
  · unfold touch
    rw [lineAt_mapIdx set _ h]
    split
    · exact ⟨some 0, rfl⟩
    · unfold aged
      split
      · exact ⟨(set.lineAt other).rank, rfl⟩
      · split
        · exact ⟨_, rfl⟩
        · exact ⟨(set.lineAt other).rank, rfl⟩
  · refine ⟨(set.lineAt other).rank, ?_⟩
    have hle := Nat.le_of_not_lt h
    rw [lineAt_of_le hle, lineAt_of_le (by simpa [touch] using hle)]

@[simp] theorem length_touch (set : CacheSet) (way : Nat) :
    (set.touch way).length = set.length := by
  simp [touch]

@[simp] theorem line_touch (set : CacheSet) (way other : Nat) :
    ((set.touch way).lineAt other).line = (set.lineAt other).line := by
  obtain ⟨rank, h⟩ := lineAt_touch set way other
  rw [h]

@[simp] theorem valid_touch (set : CacheSet) (way other : Nat) :
    ((set.touch way).lineAt other).valid = (set.lineAt other).valid := by
  obtain ⟨rank, h⟩ := lineAt_touch set way other
  rw [h]

@[simp] theorem dirty_touch (set : CacheSet) (way other : Nat) :
    ((set.touch way).lineAt other).dirty = (set.lineAt other).dirty := by
  obtain ⟨rank, h⟩ := lineAt_touch set way other
  rw [h]

@[simp] theorem length_install (set : CacheSet) (way : Nat) (line : Line) (dirty : Bool) :
    (set.install way line dirty).length = set.length := by
  simp [install]

@[simp] theorem length_overwrite (set : CacheSet) (way : Nat) (words : Vector Word lineLength) :
    (set.overwrite way words).length = set.length := by
  simp [overwrite]

@[simp] theorem length_withdraw (set : CacheSet) (way : Nat) :
    (set.withdraw way).length = set.length := by
  simp [withdraw]

-- A dropped line keeps its tag.
theorem lineAt_withdraw (set : CacheSet) (way other : Nat) :
    ((set.withdraw way).lineAt other).line = (set.lineAt other).line ∧
      ((set.withdraw way).lineAt other).valid = (decide (way ≠ other) && (set.lineAt other).valid) ∧
      ((set.withdraw way).lineAt other).dirty =
        (decide (way ≠ other) && (set.lineAt other).dirty) := by
  by_cases h : other < set.length
  · unfold withdraw
    rw [lineAt_mapIdx set _ h]
    by_cases heq : other = way
    · simp [heq]
    · simp only [heq, if_false, ne_eq, Ne.symm heq, not_false_eq_true, decide_true, Bool.true_and]
      unfold closedUp
      split
      · split <;> exact ⟨rfl, rfl, rfl⟩
      · exact ⟨rfl, rfl, rfl⟩
  · have hle := Nat.le_of_not_lt h
    rw [lineAt_of_le hle, lineAt_of_le (by simpa using hle)]
    simp [CacheLine.empty]

-- Looking up a tag.

theorem tag_of_way? {set : CacheSet} {tag way : Nat} (h : set.way? tag = some way) :
    (set.lineAt way).tag = some tag := by
  obtain ⟨hlt, hp, -⟩ := List.findIdx?_eq_some_iff_getElem.mp h
  simpa [lineAt, hlt] using hp

theorem tag_ne_of_way? {set : CacheSet} {tag : Nat} (h : set.way? tag = none) (way : Nat) :
    (set.lineAt way).tag ≠ some tag := by
  intro htag
  have hlt := lt_length_of_tag htag
  have hn := List.findIdx?_eq_none_iff.mp h set[way] (List.getElem_mem hlt)
  simp [lineAt, hlt] at htag
  simp [htag] at hn

theorem way?_of_hit? {set : CacheSet} {tag way : Nat} (h : set.hit? tag = some way) :
    set.way? tag = some way ∧ (set.lineAt way).valid = true := by
  simpa [hit?, Option.filter_eq_some_iff] using h

-- The way that a line goes to.

private def InRange (set : CacheSet) (found : Option (Nat × Nat)) : Prop :=
  ∀ entry ∈ found, entry.2 < set.length

private theorem inRange_foldl (set : CacheSet) (entries : List (CacheLine × Nat))
    (best : Option (Nat × Nat)) (hbest : InRange set best)
    (hentries : ∀ entry ∈ entries, entry.2 < set.length) :
    InRange set (entries.foldl older best) := by
  induction entries generalizing best with
  | nil => exact hbest
  | cons entry entries ih =>
      apply ih _ _ (fun e he => hentries e (List.mem_cons_of_mem _ he))
      have hentry := hentries entry List.mem_cons_self
      unfold older
      intro e he
      split at he
      · simp only [Option.mem_some_iff] at he
        exact he ▸ hentry
      · split at he <;> simp only [Option.mem_some_iff] at he
        · exact he ▸ hentry
        · exact he ▸ hbest _ rfl

private theorem oldest?_lt {set : CacheSet} {free : Nat → Bool} {way : Nat}
    (h : set.oldest? free = some way) : way < set.length := by
  obtain ⟨entry, he, rfl⟩ := Option.map_eq_some_iff.mp h
  refine inRange_foldl set _ none (by simp [InRange]) ?_ entry he
  intro e he
  have hm := (List.mem_filter.mp he).1
  simpa using (List.mem_zipIdx hm).2.1

private theorem unused?_lt {set : CacheSet} {free : Nat → Bool} {way : Nat}
    (h : set.unused? free = some way) : way < set.length := by
  obtain ⟨entry, he, rfl⟩ := Option.map_eq_some_iff.mp h
  simpa using (List.mem_zipIdx (List.mem_of_find?_eq_some he)).2.1

theorem victim_lt {set : CacheSet} (tag : Nat) (free : Nat → Bool) (hpos : 0 < set.length) :
    set.victim tag free < set.length := by
  unfold victim
  cases htag : set.way? tag with
  | some way => exact lt_length_of_tag (tag_of_way? htag)
  | none =>
      cases hunused : set.unused? free with
      | some way => exact unused?_lt hunused
      | none =>
          cases hfree : set.oldest? free with
          | some way => exact oldest?_lt hfree
          | none =>
              cases hany : set.oldest? fun _ => true with
              | some way => exact oldest?_lt hany
              | none => exact hpos

theorem victim_of_way? {set : CacheSet} {tag way : Nat} (free : Nat → Bool)
    (h : set.way? tag = some way) : set.victim tag free = way := by
  simp [victim, h]

end PipelinedProcessor.CacheSet
