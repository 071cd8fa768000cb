import PipelinedProcessor.Proofs.Cache.Moves

namespace PipelinedProcessor.Cache

-- A tag stands in the set of its line, whatever happens.
def Home (cache : Cache) : Prop :=
  ∀ address way tag, (cache.lineAt address way).tag = some tag →
    cache.memory.lineStart tag = tag ∧ setIndex tag = setIndex address

-- A tag stands in one way, and who waits for a line that was dropped waits for the way that kept
-- its tag.
structure Single (cache : Cache) : Prop where
  unique : ∀ {tag way other}, (cache.lineAt tag way).tag = some tag →
    (cache.lineAt tag other).tag = some tag → other = way
  reserved : ∀ {issuer held way}, cache.reservation issuer = some held →
    (cache.lineAt held.tag way).tag = some held.tag →
    (cache.lineAt held.tag way).valid = false → way = held.way

section

variable {before after : Cache} {tag way : Nat}

theorem SameMarks.tag_eq (h : SameMarks before after) (address way : Nat) :
    (after.lineAt address way).tag = (before.lineAt address way).tag :=
  congrArg Mark.tag (h.mark_eq address way)

theorem SameMarks.valid_eq (h : SameMarks before after) (address way : Nat) :
    (after.lineAt address way).valid = (before.lineAt address way).valid :=
  congrArg Mark.valid (h.mark_eq address way)

-- What a tag after a use says about the tags before it.
theorem UsesWay.tag_cases (h : UsesWay before after tag way) {address other found : Nat}
    (htag : (after.lineAt address other).tag = some found) :
    (setIndex tag = setIndex address ∧ other = way ∧ found = tag) ∨
      ¬(setIndex tag = setIndex address ∧ other = way) ∧
      (before.lineAt address other).tag = some found ∧
        (after.lineAt address other).valid = (before.lineAt address other).valid := by
  by_cases hindex : setIndex tag = setIndex address
  · rw [← after.lineAt_congr hindex] at htag ⊢
    rw [← before.lineAt_congr hindex]
    by_cases hway : other = way
    · subst hway
      have hmark : (after.lineAt tag other).tag = some tag := congrArg Mark.tag h.changed.mark_eq
      exact .inl ⟨hindex, rfl, Option.some.inj (htag.symm.trans hmark)⟩
    · have hmark := h.changed.others other hway
      right
      exact ⟨fun hat => hway hat.2, (congrArg Mark.tag hmark).symm.trans htag,
        congrArg Mark.valid hmark⟩
  · have hmark : (after.lineAt address other).mark = (before.lineAt address other).mark :=
      CacheSet.mark_of_marks (h.others address hindex) other
    exact .inr ⟨fun hat => hindex hat.1, (congrArg Mark.tag hmark).symm.trans htag,
      congrArg Mark.valid hmark⟩

theorem Drops.tag_eq (h : Drops before after tag way) (address other : Nat) :
    (after.lineAt address other).tag = (before.lineAt address other).tag := by
  by_cases hindex : setIndex tag = setIndex address
  · rw [lineAt, lineAt, ← after.setOf_congr hindex, ← before.setOf_congr hindex]
    by_cases hway : other = way
    · subst hway
      exact congrArg Mark.tag h.changes.changed.mark_eq
    · exact congrArg Mark.tag (h.changes.changed.others other hway)
  · exact congrArg Mark.tag (CacheSet.mark_of_marks (h.changes.others address hindex) other)

-- A line is good after the drop only if it was before and is not the one that is dropped.
theorem Drops.valid_cases (h : Drops before after tag way) {address other : Nat}
    (hvalid : (after.lineAt address other).valid = false) :
    (setIndex tag = setIndex address ∧ other = way) ∨
    (before.lineAt address other).valid = false := by
  by_cases hindex : setIndex tag = setIndex address
  · by_cases hway : other = way
    · exact .inl ⟨hindex, hway⟩
    · right
      rw [lineAt, ← after.setOf_congr hindex] at hvalid
      rw [lineAt, ← before.setOf_congr hindex]
      exact (congrArg Mark.valid (h.changes.changed.others other hway)).symm.trans hvalid
  · have hmark := CacheSet.mark_of_marks (h.changes.others address hindex) other
    exact .inr ((congrArg Mark.valid hmark).symm.trans hvalid)

theorem Moved.home {used : Option (Fin 4 × Nat)} (h : Home before)
    (hmoved : Moved before after used) :
    Home after := by
  have hsame (hsame : SameMarks before after) : Home after := by
    intro address way tag htag
    rw [lineStart_congr hsame.lineCount_eq]
    exact h address way tag ((hsame.tag_eq address way).symm.trans htag)
  cases hmoved with
  | rests hmarks _ => exact hsame hmarks
  | reserves _ _ _ _ hmarks _ => exact hsame hmarks
  | uses issuer tag way haligned hplace huses hheld =>
      intro address other found htag
      rw [lineStart_congr huses.lineCount_eq]
      rcases huses.tag_cases htag with ⟨hindex, rfl, rfl⟩ | ⟨-, hold, -⟩
      · exact ⟨haligned, hindex⟩
      · exact h address other found hold

theorem Step.home {cache : Cache} (hsized : Sized cache) (h : Home cache) (step : Step) :
    Home (step.perform cache) := by
  rcases step.cases hsized with hmoved | ⟨dropped, way, -, hdrops⟩
  · exact hmoved.home h
  · intro address other tag htag
    rw [lineStart_congr hdrops.changes.lineCount_eq]
    exact h address other tag ((hdrops.tag_eq address other).symm.trans htag)

-- Who misses a line takes the way that carries its tag, if one does.
theorem Single.alone (h : Single before) (issuer : Stage)
    (hmiss : (before.setOf tag).hit? tag = none) {other : Nat}
    (htag : (before.lineAt tag other).tag = some tag) : other = (before.reserve issuer tag).1 := by
  have hway : (before.setOf tag).way? tag = some other := by
    cases hfound : (before.setOf tag).way? tag with
    | none => exact absurd htag (CacheSet.tag_ne_of_way? hfound other)
    | some found => rw [h.unique htag (CacheSet.tag_of_way? hfound)]
  have hinvalid : (before.lineAt tag other).valid = false := by
    rw [CacheSet.hit?, hway, Option.filter_some] at hmiss
    cases hvalid : (before.lineAt tag other).valid with
    | false => rfl
    | true =>
        rw [lineAt] at hvalid
        simp [hvalid] at hmiss
  have hchoose : other = (reserve.choose before issuer tag).1 :=
    (CacheSet.victim_of_way? _ hway).symm
  unfold reserve
  split
  · rename_i held hheld
    split
    · rename_i heq
      subst heq
      exact h.reserved hheld htag hinvalid
    · exact hchoose
  · exact hchoose

theorem Moved.single {used : Option (Fin 4 × Nat)} (h : Single before)
    (hmoved : Moved before after used) :
    Single after := by
  have hunique (hsame : SameMarks before after) {tag way other : Nat}
      (htag : (after.lineAt tag way).tag = some tag)
      (hother : (after.lineAt tag other).tag = some tag) : other = way :=
    h.unique ((hsame.tag_eq tag way).symm.trans htag) ((hsame.tag_eq tag other).symm.trans hother)
  cases hmoved with
  | rests hsame hheld =>
      refine ⟨hunique hsame, ?_⟩
      intro issuer held way hissuer htag hvalid
      exact h.reserved (hheld issuer held hissuer) ((hsame.tag_eq _ way).symm.trans htag)
        ((hsame.valid_eq _ way).symm.trans hvalid)
  | reserves issuer tag haligned hmiss hsame hheld =>
      refine ⟨hunique hsame, ?_⟩
      intro other held way hother htag hvalid
      have hbefore := (hsame.tag_eq _ way).symm.trans htag
      obtain ⟨chosen, hreserve, -⟩ := before.reserve_eq issuer tag
      rw [hreserve] at hheld
      rw [reservation_congr hheld, reservation_setReservation] at hother
      split at hother
      · obtain rfl := Option.some.inj hother
        have halone := h.alone issuer hmiss hbefore
        rwa [hreserve] at halone
      · exact h.reserved hother hbefore ((hsame.valid_eq _ way).symm.trans hvalid)
  | uses issuer tag way haligned hplace huses hheld =>
      -- whoever carried the tag before was the way that is used
      have halone {other : Nat} (htag : (before.lineAt tag other).tag = some tag) :
          other = way := by
        rcases hplace with hway | ⟨hmiss, rfl⟩
        · exact h.unique (CacheSet.tag_of_way? hway) htag
        · exact h.alone issuer hmiss htag
      refine ⟨?_, ?_⟩
      · intro found first second hfirst hsecond
        rcases huses.tag_cases hfirst with ⟨-, rfl, rfl⟩ | ⟨hn, hold, -⟩
        · rcases huses.tag_cases hsecond with ⟨-, rfl, -⟩ | ⟨-, hold', -⟩
          · rfl
          · exact halone hold'
        · rcases huses.tag_cases hsecond with ⟨-, rfl, rfl⟩ | ⟨-, hold', -⟩
          · exact (halone hold).symm
          · exact h.unique hold hold'
      · intro other held found hother htag hvalid
        rw [hheld] at hother
        split at hother
        · cases hother
        · rcases huses.tag_cases htag with ⟨hindex, rfl, heq⟩ | ⟨-, hold, hsame⟩
          · have hused : (after.lineAt tag found).valid = true :=
              congrArg Mark.valid huses.changed.mark_eq
            rw [heq, hused] at hvalid
            cases hvalid
          · exact h.reserved hother hold (hsame.symm.trans hvalid)

theorem Drops.single (h : Single before) (hdrops : Drops before after tag way)
    (hharmless : ∀ issuer held, before.reservation issuer = some held →
      held.tag = tag → held.way = way) :
    Single after := by
  refine ⟨?_, ?_⟩
  · intro found first second hfirst hsecond
    exact h.unique ((hdrops.tag_eq found first).symm.trans hfirst)
      ((hdrops.tag_eq found second).symm.trans hsecond)
  · intro issuer held other hheld htag hvalid
    rw [reservation_congr hdrops.reservations_eq] at hheld
    have hbefore := (hdrops.tag_eq held.tag other).symm.trans htag
    rcases hdrops.valid_cases hvalid with ⟨hindex, rfl⟩ | hinvalid
    · have hcarried : (before.lineAt held.tag other).tag = some tag := by
        rw [lineAt, ← before.setOf_congr hindex]
        exact CacheSet.tag_of_way? hdrops.way_eq
      exact (hharmless issuer held hheld (Option.some.inj (hbefore.symm.trans hcarried))).symm
    · exact h.reserved hheld hbefore hinvalid

end

-- A line may be dropped if all who wait for it wait for the way that carries its tag.
def Step.Harmless (cache : Cache) : Step → Prop
  | .invalidate address => ∀ issuer, ∀ held ∈ cache.reservation issuer,
      held.tag = cache.memory.lineStart address →
      ∀ way ∈ (cache.setOf held.tag).way? held.tag, held.way = way
  | _ => True

def AllHarmless : List Step → Cache → Prop
  | [], _ => True
  | step :: rest, cache => step.Harmless cache ∧ AllHarmless rest (step.perform cache)

theorem Step.single {cache : Cache} (hsized : Sized cache) (h : Single cache) {step : Step}
    (hharmless : step.Harmless cache) : Single (step.perform cache) := by
  rcases step.cases hsized with hmoved | ⟨address, way, rfl, hdrops⟩
  · exact hmoved.single h
  · refine hdrops.single h ?_
    intro issuer held hheld htag
    exact hharmless issuer held hheld htag way (htag ▸ hdrops.way_eq)

theorem home_performSteps {cache : Cache} (hsized : Sized cache) (h : Home cache)
    (steps : List Step) :
    Home (cache.performSteps steps) := by
  induction steps generalizing cache with
  | nil => exact h
  | cons step rest ih => exact ih (step.sized hsized) (step.home hsized h)

theorem single_performSteps {cache : Cache} (hsized : Sized cache) (h : Single cache)
    {steps : List Step} (hharmless : AllHarmless steps cache) :
    Single (cache.performSteps steps) := by
  induction steps generalizing cache with
  | nil => exact h
  | cons step rest ih => exact ih (step.sized hsized) (step.single hsized h hharmless.1) hharmless.2

-- A tag never leaves the set of its line. It stands in one way alone, the one that is found for it,
-- as long as no line is dropped for which somebody waits in another way.
theorem single_performSteps_of_build {lineCount : Nat} {writeAllocate : Bool} {memory : MainMemory}
    {cache : Cache} (hbuild : Cache.build lineCount writeAllocate memory = .ok cache)
    (steps : List Step) {address way tag : Nat}
    (htag : ((cache.performSteps steps).lineAt address way).tag = some tag) :
    setIndex tag = setIndex address ∧ (AllHarmless steps cache →
      ((cache.performSteps steps).setOf tag).way? tag = some way ∧
        ∀ other, ((cache.performSteps steps).lineAt address other).tag = some tag →
        other = way) := by
  obtain ⟨ways, hways, rfl⟩ := build_eq_empty hbuild
  have hsized := sized_empty hways writeAllocate memory
  have hnone (address way : Nat) :
      ((empty ways writeAllocate memory).lineAt address way).tag = none := by
    rw [lineAt_empty]
    rfl
  have hhome : Home (empty ways writeAllocate memory) := by
    intro address way tag htag
    rw [hnone] at htag
    cases htag
  have hsingle : Single (empty ways writeAllocate memory) := by
    refine ⟨?_, ?_⟩
    · intro tag way other htag
      rw [hnone] at htag
      cases htag
    · intro issuer held way hheld htag
      rw [hnone] at htag
      cases htag
  have hindex := (home_performSteps hsized hhome steps address way tag htag).2
  refine ⟨hindex, ?_⟩
  intro hharmless
  have hafter := single_performSteps hsized hsingle hharmless
  rw [lineAt_congr _ hindex.symm] at htag
  refine ⟨?_, ?_⟩
  · cases hfound : (((empty ways writeAllocate memory).performSteps steps).setOf tag).way? tag with
    | none => exact absurd htag (CacheSet.tag_ne_of_way? hfound way)
    | some found => rw [hafter.unique htag (CacheSet.tag_of_way? hfound)]
  · intro other hother
    rw [lineAt_congr _ hindex.symm] at hother
    exact hafter.unique htag hother

-- A line is dropped that an issuer waits for again after it was dropped before.
theorem single_performSteps_of_dropped :
    let cache := empty 2 false (.zeroed 4 1 (by decide))
    let steps : List Step :=
  [.asked (.poll .memory (.read 5)), .asked (.poll .memory (.read 5)), .invalidate 5,
      .asked (.poll .memory (.read 5)), .invalidate 5]
    AllHarmless steps cache ∧ ((cache.performSteps steps).setOf 4).way? 4 = some 0 := by
  intro cache steps
  have hbuild : Cache.build 8 false (.zeroed 4 1 (by decide)) = .ok cache := rfl
  have htag : ((cache.performSteps steps).lineAt 4 0).tag = some 4 := by decide
  have hharmless : AllHarmless steps cache := by
    refine ⟨trivial, trivial, ?_, trivial, ?_, trivial⟩
    · intro issuer
      cases issuer <;> decide
    · intro issuer
      cases issuer <;> decide
  exact ⟨hharmless, ((single_performSteps_of_build hbuild steps htag).2 hharmless).1⟩

-- An issuer waits for a line in one way. Another puts the line into the other way, where it is
-- dropped, and then the first goes on to the way that it had chosen.
theorem two_ways_of_invalidate :
    let cache := (empty 2 false (.zeroed 16 1 (by decide))).performSteps
      [.asked (.poll .memory (.read 0)), .putLine .fetch 0 #v[1, 2, 3, 4] true, .invalidate 0,
        .asked (.poll .memory (.read 0))]
    (cache.lineAt 0 0).tag = some 0 ∧ (cache.lineAt 0 1).tag = some 0 := by
  decide

end PipelinedProcessor.Cache
