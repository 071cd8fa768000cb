import PipelinedProcessor.Proofs.Cache.Coherence

namespace PipelinedProcessor

namespace CacheSet

-- The set is as before but for one way.
structure Changes (before after : CacheSet) (way : Nat) (line : Line) (valid dirty : Bool) :
    Prop where
  length_eq : after.length = before.length
  line_eq : (after.lineAt way).line = line
  valid_eq : (after.lineAt way).valid = valid
  dirty_eq : (after.lineAt way).dirty = dirty
  others : ∀ other, other ≠ way → (after.lineAt other).line = (before.lineAt other).line ∧
    (after.lineAt other).valid = (before.lineAt other).valid ∧
    (after.lineAt other).dirty = (before.lineAt other).dirty

theorem install_changes (set : CacheSet) {way : Nat} (h : way < set.length) (line : Line)
    (dirty : Bool) : Changes set (set.install way line dirty) way line true dirty := by
  refine ⟨by simp, ?_, ?_, ?_, ?_⟩
  · simp [install, lineAt_modify, h]
  · simp [install, lineAt_modify, h]
  · simp [install, lineAt_modify, h]
  · intro other hne
    simp [install, lineAt_modify, Ne.symm hne]

theorem overwrite_changes (set : CacheSet) {way : Nat} (h : way < set.length)
    (words : Vector Word lineLength) :
    Changes set (set.overwrite way words) way { (set.lineAt way).line with words := words }
      (set.lineAt way).valid true := by
  refine ⟨by simp, ?_, ?_, ?_, ?_⟩
  · simp [overwrite, lineAt_modify, h]
  · simp [overwrite, lineAt_modify, h]
  · simp [overwrite, lineAt_modify, h]
  · intro other hne
    simp [overwrite, lineAt_modify, Ne.symm hne]

theorem clean_changes (set : CacheSet) {way : Nat} (h : way < set.length) :
    Changes set (List.modify set way fun line => { line with dirty := false }) way
      (set.lineAt way).line (set.lineAt way).valid false := by
  refine ⟨by simp, ?_, ?_, ?_, ?_⟩
  · simp [lineAt_modify, h]
  · simp [lineAt_modify, h]
  · simp [lineAt_modify, h]
  · intro other hne
    simp [lineAt_modify, Ne.symm hne]

theorem withdraw_changes (set : CacheSet) (way : Nat) :
    Changes set (set.withdraw way) way (set.lineAt way).line false false := by
  refine ⟨by simp, (lineAt_withdraw set way way).1, ?_, ?_, ?_⟩
  · simp [(lineAt_withdraw set way way).2.1]
  · simp [(lineAt_withdraw set way way).2.2]
  · intro other hne
    simp [(lineAt_withdraw set way other).1, (lineAt_withdraw set way other).2.1,
      (lineAt_withdraw set way other).2.2, Ne.symm hne]

end CacheSet

namespace Cache

theorem changesWay_of_sets {before after : Cache} {tag way : Nat} {line : Line} {valid dirty : Bool}
    (f : CacheSet → CacheSet) (hsets : after.sets = (before.modifySet tag f).sets)
    (hways : after.ways = before.ways)
    (hf : CacheSet.Changes (before.setOf tag) (f (before.setOf tag)) way line valid dirty) :
    ChangesWay before after tag way line valid dirty := by
  have hset (address : Nat) : after.setOf address = (before.modifySet tag f).setOf address := by
    simp only [setOf, hsets]
  have hline (address other : Nat) :
      after.lineAt address other = (before.modifySet tag f).lineAt address other := by
    simp only [lineAt, hset]
  refine ⟨hways, ?_, ?_, ?_, ?_, ?_⟩
  · intro address
    rw [hset, setOf_modifySet]
    split
    · rename_i hindex
      rw [before.setOf_congr hindex.symm, hf.length_eq]
    · rfl
  · rw [hline, lineAt_modifySet, if_pos rfl, hf.line_eq]
  · rw [hline, lineAt_modifySet, if_pos rfl, hf.valid_eq]
  · rw [hline, lineAt_modifySet, if_pos rfl, hf.dirty_eq]
  · intro address other hn
    rw [hline, lineAt_modifySet]
    split
    · rename_i hindex
      rw [before.setOf_congr hindex.symm, before.lineAt_congr hindex.symm]
      exact hf.others other fun he => hn ⟨hindex.symm, he⟩
    · exact ⟨rfl, rfl, rfl⟩

-- What memory is busy with is no part of what a cache shows.
def withPending (cache : Cache) (pending : Option Pending) : Cache :=
  { cache with memory := { cache.memory with pending := pending } }

theorem sameLines_withPending (cache : Cache) (pending : Option Pending) :
    SameLines cache (cache.withPending pending) :=
  ⟨rfl, fun _ => rfl, fun _ _ => rfl, fun _ _ => rfl, fun _ _ => rfl, ⟨pending, rfl⟩, id⟩

-- Reservations.

theorem reservation_setReservation (cache : Cache) (issuer other : Stage)
    (reservation : Option Reservation) :
    (cache.setReservation issuer reservation).reservation other =
      if issuer = other then reservation else cache.reservation other := by
  by_cases h : issuer = other
  · subst h
    simp [setReservation, Cache.reservation]
  · have hne : issuer.order.val ≠ other.order.val :=
      fun he => h (Stage.order_injective (Fin.ext he))
    simp [setReservation, Cache.reservation, h, hne]

theorem setReservation_self (cache : Cache) (issuer : Stage) :
    cache.setReservation issuer (cache.reservation issuer) = cache := by
  simp [setReservation, Cache.reservation]

-- An issuer that missed a line holds a way for it, the one that carries the tag if one does.
theorem reserve_spec {cache after : Cache} (h : Coherent cache) {issuer : Stage} {tag way : Nat}
    (hmiss : (cache.setOf tag).hit? tag = none)
    (hresult : cache.reserve issuer tag = (way, after)) :
    after = cache.setReservation issuer (some ⟨tag, way⟩) ∧ way < cache.ways ∧
      ∀ other, (cache.lineAt tag other).tag = some tag → other = way := by
  have hchoose : reserve.choose cache issuer tag = (way, after) →
      after = cache.setReservation issuer (some ⟨tag, way⟩) ∧ way < cache.ways ∧
        ∀ other, (cache.lineAt tag other).tag = some tag → other = way := by
    intro hc
    simp only [reserve.choose, Prod.mk.injEq] at hc
    obtain ⟨hway, rfl⟩ := hc
    refine ⟨by rw [hway], ?_, ?_⟩
    · rw [← hway, ← h.length_eq tag]
      exact CacheSet.victim_lt tag _ (by rw [h.length_eq]; exact h.ways_pos)
    · intro other htag
      rw [← hway, CacheSet.victim_of_way? _ (h.way?_eq htag)]
  unfold reserve at hresult
  split at hresult
  · rename_i held hheld
    split at hresult
    · rename_i htag
      simp only [Prod.mk.injEq] at hresult
      obtain ⟨rfl, rfl⟩ := hresult
      obtain ⟨hlt, hinvalid⟩ := h.reserved hheld
      refine ⟨?_, hlt, ?_⟩
      · rw [← htag, ← hheld, setReservation_self]
      · intro other hother
        subst htag
        exact hinvalid other hother (h.not_valid_of_miss hmiss hother)
    · exact hchoose hresult
  · exact hchoose hresult

theorem Coherent.setReservation {cache : Cache} (h : Coherent cache) (issuer : Stage)
    (reservation : Option Reservation)
    (hheld : ∀ held, reservation = some held → held.way < cache.ways ∧
      ∀ way, (cache.lineAt held.tag way).tag = some held.tag → way = held.way) :
    Coherent (cache.setReservation issuer reservation) := by
  refine ⟨h.ways_pos, h.length_eq, h.home, h.unique, h.tagged, h.valid, h.clean, ?_⟩
  intro other held hother
  rw [reservation_setReservation] at hother
  split at hother
  · obtain ⟨hlt, hway⟩ := hheld held hother
    exact ⟨hlt, fun way htag _ => hway way htag⟩
  · exact h.reserved hother

-- Counting and the end of an access change nothing that a cache shows.
theorem sameLines_stats (cache : Cache) (stats : CacheStats) :
    SameLines cache { cache with stats := stats } :=
  ⟨rfl, fun _ => rfl, fun _ _ => rfl, fun _ _ => rfl, fun _ _ => rfl, ⟨_, rfl⟩, id⟩

theorem sameLines_finish (cache : Cache) (stats : CacheStats) (issuer : Stage) :
    SameLines cache ({ cache with stats := stats }.finish issuer) := by
  refine ⟨rfl, fun _ => rfl, fun _ _ => rfl, fun _ _ => rfl, fun _ _ => rfl, ?_, ?_⟩
  · exact cache.memory.release_eq issuer
  · intro other held hheld
    have hother : (cache.setReservation issuer none).reservation other = some held := hheld
    rw [reservation_setReservation] at hother
    split at hother
    · cases hother
    · exact hother

theorem sameLines_touch (cache : Cache) (tag way : Nat) :
    SameLines cache (cache.modifySet tag fun set => set.touch way) := by
  refine ⟨rfl, ?_, ?_, ?_, ?_, ⟨_, rfl⟩, id⟩
  · intro address
    rw [setOf_modifySet]
    split <;> simp
  · intro address other
    rw [lineAt_modifySet]
    split <;> simp [lineAt]
  · intro address other
    rw [lineAt_modifySet]
    split <;> simp [lineAt]
  · intro address other
    rw [lineAt_modifySet]
    split <;> simp [lineAt]

-- Writing back.

-- A cache that has written the line of a way back to memory.
def cleaned (cache : Cache) (tag way old : Nat) : Cache :=
  { (cache.modifySet tag fun set => set.modify way fun line => { line with dirty := false }) with
    memory := { cache.memory.putLine old (cache.lineAt tag way).line.words with pending := none }
    stats := { cache.stats with writeBacks := cache.stats.writeBacks + 1 } }

theorem writeBack_cases (cache : Cache) (issuer : Stage) (tag way : Nat) :
    ((cache.lineAt tag way).owed? = none ∧ cache.writeBack issuer tag way = (.done (), cache)) ∨
      ∃ old, (cache.lineAt tag way).owed? = some old ∧
        ((∃ pending, cache.writeBack issuer tag way = (.wait, cache.withPending pending)) ∨
          cache.writeBack issuer tag way = (.done (), cache.cleaned tag way old)) := by
  cases howed : (cache.lineAt tag way).owed? with
  | none => exact .inl ⟨rfl, by simp only [writeBack, howed]⟩
  | some old =>
      refine .inr ⟨old, rfl, ?_⟩
      simp only [writeBack, howed, onMemory_eq, MainMemory.writeLine]
      rcases cache.memory.renewed_access_cases issuer old
          (fun memory => ((), memory.putLine old (cache.lineAt tag way).line.words)) with
        ⟨pending, ha⟩ | ha
      · exact .inl ⟨pending, by simp only [ha]; rfl⟩
      · exact .inr (by simp only [ha]; rfl)

-- What a try to write a way back leaves as it was.
structure KeepsLines (before after : Cache) : Prop where
  ways_eq : after.ways = before.ways
  writeAllocate_eq : after.writeAllocate = before.writeAllocate
  reservations_eq : after.reservations = before.reservations
  line_eq : ∀ address way, (after.lineAt address way).line = (before.lineAt address way).line
  valid_eq : ∀ address way, (after.lineAt address way).valid = (before.lineAt address way).valid

theorem KeepsLines.tag_eq {before after : Cache} (h : KeepsLines before after) (address way : Nat) :
    (after.lineAt address way).tag = (before.lineAt address way).tag := by
  rw [CacheLine.tag, h.line_eq, CacheLine.tag]

theorem owed?_eq_some {line : CacheLine} {old : Nat} (h : line.owed? = some old) :
    line.dirty = true ∧ line.tag = some old := by
  unfold CacheLine.owed? at h
  split at h
  · rename_i hdirty
    exact ⟨hdirty, h⟩
  · cases h

theorem Coherent.dirty_of_owed? {cache : Cache} (h : Coherent cache) {address way : Nat}
    (howed : (cache.lineAt address way).owed? = none) :
    (cache.lineAt address way).dirty = false := by
  cases hd : (cache.lineAt address way).dirty with
  | false => rfl
  | true =>
      obtain ⟨tag, htag⟩ := h.tagged (h.valid hd)
      simp [CacheLine.owed?, hd, htag] at howed

theorem cleaned_admits {cache : Cache} (h : Coherent cache) {tag way old : Nat}
    (howed : (cache.lineAt tag way).owed? = some old) :
    setIndex old = setIndex tag ∧
      Admits cache (cache.cleaned tag way old) old way (cache.lineAt tag way).line true false := by
  obtain ⟨hdirty, htag⟩ := owed?_eq_some howed
  obtain ⟨haligned, hindex⟩ := h.home htag
  have hlookup : cache.lineAt old way = cache.lineAt tag way := cache.lineAt_congr hindex way
  have hlt : way < (cache.setOf old).length := by
    rw [cache.setOf_congr hindex]
    exact CacheSet.lt_length_of_tag htag
  refine ⟨hindex, ?_, ?_, htag, haligned, ?_, ?_, ?_, rfl, ?_, ?_⟩
  · have hsets : (cache.cleaned tag way old).sets = (cache.modifySet old fun set =>
        List.modify set way fun line => { line with dirty := false }).sets := by
      simp only [cleaned, modifySet, hindex, cache.setOf_congr hindex]
    have hc := changesWay_of_sets _ hsets rfl (CacheSet.clean_changes (cache.setOf old) hlt)
    have hvalid : ((cache.setOf old).lineAt way).valid = true := by
      have hv := h.valid hdirty
      rw [← hlookup] at hv
      exact hv
    have hline : ((cache.setOf old).lineAt way).line = (cache.lineAt tag way).line :=
      congrArg CacheLine.line hlookup
    rw [hvalid, hline] at hc
    exact hc
  · rw [← h.length_eq old]
    exact hlt
  · intro other hother
    rw [cache.lineAt_congr hindex] at hother
    exact h.unique hother htag
  · simp
  · intro _ _
    simp only [cleaned]
    rw [show ({ cache.memory.putLine old (cache.lineAt tag way).line.words with pending := none } :
      MainMemory).peekWords old = _ from MainMemory.peekWords_putLine' _ _ _ _, if_pos rfl]
  · intro other haligned' hne
    simp only [cleaned]
    rw [show ({ cache.memory.putLine old (cache.lineAt tag way).line.words with pending := none } :
      MainMemory).peekWords other = _ from MainMemory.peekWords_putLine' _ _ _ _,
      if_neg (by rw [haligned, haligned']; exact Ne.symm hne)]
  · intro issuer held hheld
    exact ⟨hheld, by simp⟩

theorem writeBack_spec {cache after : Cache} (h : Coherent cache) {issuer : Stage} {tag way : Nat}
    {answer : Poll Unit} (hresult : cache.writeBack issuer tag way = (answer, after)) :
    Shows after cache.memory.lineCount cache.viewLine ∧ KeepsLines cache after ∧
      (answer = .done () → (after.lineAt tag way).dirty = false) := by
  rcases cache.writeBack_cases issuer tag way with ⟨howed, hw⟩ | ⟨old, howed, ⟨pending, hw⟩ | hw⟩
  · rw [hw] at hresult
    obtain ⟨rfl, rfl⟩ := Prod.mk.inj hresult
    exact ⟨h.shows, ⟨rfl, rfl, rfl, fun _ _ => rfl, fun _ _ => rfl⟩,
      fun _ => h.dirty_of_owed? howed⟩
  · rw [hw] at hresult
    obtain ⟨rfl, rfl⟩ := Prod.mk.inj hresult
    exact ⟨h.shows.of_same (cache.sameLines_withPending pending),
      ⟨rfl, rfl, rfl, fun _ _ => rfl, fun _ _ => rfl⟩, nofun⟩
  · rw [hw] at hresult
    obtain ⟨rfl, rfl⟩ := Prod.mk.inj hresult
    obtain ⟨hindex, ha⟩ := cleaned_admits h howed
    obtain ⟨hdirty, htag⟩ := owed?_eq_some howed
    have hlookup : cache.lineAt old way = cache.lineAt tag way := cache.lineAt_congr hindex way
    refine ⟨⟨ha.coherent h, rfl, ?_⟩, ⟨rfl, rfl, rfl, ?_, ?_⟩, ?_⟩
    · intro address
      rw [ha.viewLine h (.inr (hlookup ▸ htag))]
      split
      · rename_i haddress
        rw [if_pos rfl, h.viewLine_of_valid haddress (hlookup ▸ htag)
          (hlookup ▸ h.valid hdirty), hlookup]
      · rfl
    · intro address other
      by_cases hat : setIndex address = setIndex old ∧ other = way
      · obtain ⟨hset, rfl⟩ := hat
        rw [lineAt_congr _ hset, ha.changes.line_eq, lineAt_congr _ hset, hlookup]
      · exact (ha.changes.others address other hat).1
    · intro address other
      by_cases hat : setIndex address = setIndex old ∧ other = way
      · obtain ⟨hset, rfl⟩ := hat
        rw [lineAt_congr _ hset, ha.changes.valid_eq, lineAt_congr _ hset, hlookup, h.valid hdirty]
      · exact (ha.changes.others address other hat).2.1
    · intro _
      rw [lineAt_congr _ hindex.symm, ha.changes.dirty_eq]

-- A new line in a way whose own line is not owed to memory.
theorem install_admits {cache : Cache} (h : Coherent cache) {tag way : Nat} (line : Line)
    (dirty : Bool) (hway : way < cache.ways) (hstart : line.start = some tag)
    (haligned : cache.memory.lineStart tag = tag)
    (halone : ∀ other, (cache.lineAt tag other).tag = some tag → other = way)
    (hclean : dirty = false → line.words = cache.memory.peekWords tag) :
    Admits cache (cache.modifySet tag fun set => set.install way line dirty) tag
      way line true dirty := by
  refine ⟨?_, hway, hstart, haligned, halone, fun _ => rfl, fun _ => hclean, rfl, fun _ _ _ => rfl,
    fun _ _ hheld => ⟨hheld, nofun⟩⟩
  exact changesWay_of_sets _ rfl rfl
    (CacheSet.install_changes _ (by rw [h.length_eq]; exact hway) _ _)

-- Where the good line of a tag is.
def Holds (cache : Cache) (tag way : Nat) : Prop :=
  (cache.lineAt tag way).tag = some tag ∧ (cache.lineAt tag way).valid = true

theorem Holds.of_same {before after : Cache} {tag way : Nat} (h : Holds before tag way)
    (hs : SameLines before after) : Holds after tag way :=
  ⟨(hs.tag_eq tag way).trans h.1, (hs.valid_eq tag way).trans h.2⟩

theorem holds_of_hit? {cache : Cache} {tag way : Nat} (h : (cache.setOf tag).hit? tag = some way) :
    Holds cache tag way :=
  ⟨CacheSet.tag_of_way? (CacheSet.way?_of_hit? h).1, (CacheSet.way?_of_hit? h).2⟩

-- Other words in a good line.
theorem overwrite_admits {cache : Cache} (h : Coherent cache) {tag way : Nat}
    (haligned : cache.memory.lineStart tag = tag) (hholds : Holds cache tag way)
    (words : Vector Word lineLength) :
    Admits cache (cache.modifySet tag fun set => set.overwrite way words) tag way
      { start := some tag, words := words } true true := by
  obtain ⟨htag, hvalid⟩ := hholds
  have hlt : way < (cache.setOf tag).length := CacheSet.lt_length_of_tag htag
  have hline : { ((cache.setOf tag).lineAt way).line with words := words } =
      ({ start := some tag, words := words } : Line) := by
    rw [← htag]
    rfl
  have hset := CacheSet.overwrite_changes (cache.setOf tag) hlt words
  rw [hline, show ((cache.setOf tag).lineAt way).valid = true from hvalid] at hset
  exact ⟨changesWay_of_sets _ rfl rfl hset, h.length_eq tag ▸ hlt, rfl, haligned,
    fun other hother => h.unique hother htag, fun _ => rfl, nofun, rfl, fun _ _ _ => rfl,
    fun _ _ hheld => ⟨hheld, nofun⟩⟩

section

variable {cache after : Cache} {lineCount : Nat} {content : Nat → Vector Word lineLength}
  (hcontent : Shows cache lineCount content)

include hcontent

-- A line of memory may come into a clean way without anybody noticing.
theorem Shows.broughtIn {tag way : Nat} (hway : way < cache.ways)
    (haligned : cache.memory.lineStart tag = tag)
    (halone : ∀ other, (cache.lineAt tag other).tag = some tag → other = way)
    (hdirty : (cache.lineAt tag way).dirty = false)
    (habsent : ∀ other, (cache.lineAt tag other).tag = some tag →
      (cache.lineAt tag other).valid = false) :
    Shows (cache.modifySet tag fun set => set.install way (cache.memory.peekLine tag) false)
        lineCount content ∧
      Holds (cache.modifySet tag fun set => set.install way (cache.memory.peekLine tag) false)
        tag way := by
  have ha := install_admits hcontent.coherent (cache.memory.peekLine tag) false hway
    (congrArg some haligned) haligned halone (fun _ => rfl)
  refine ⟨⟨ha.coherent hcontent.coherent, hcontent.lineCount_eq, ?_⟩,
    ha.tag_eq, ha.changes.valid_eq⟩
  intro address
  rw [ha.viewLine hcontent.coherent (.inl hdirty), ← hcontent.viewLine_eq]
  split
  · rename_i haddress
    rw [if_pos rfl, viewLine_of_absent haddress habsent]
    exact cache.memory.peekWords_congr (haligned.trans haddress.symm)
  · rfl

theorem Shows.writeBack {issuer : Stage} {tag way : Nat} {answer : Poll Unit}
    (hresult : cache.writeBack issuer tag way = (answer, after)) :
    Shows after lineCount content ∧ KeepsLines cache after ∧
      (answer = .done () → (after.lineAt tag way).dirty = false) := by
  obtain ⟨hshows, hkeeps, hclean⟩ := writeBack_spec hcontent.coherent hresult
  refine ⟨⟨hshows.coherent, hshows.lineCount_eq.trans hcontent.lineCount_eq, ?_⟩, hkeeps, hclean⟩
  intro address
  rw [hshows.viewLine_eq, hcontent.viewLine_eq]

theorem Shows.setReservation (issuer : Stage) (reservation : Option Reservation)
    (hheld : ∀ held, reservation = some held → held.way < cache.ways ∧
      ∀ way, (cache.lineAt held.tag way).tag = some held.tag → way = held.way) :
    Shows (cache.setReservation issuer reservation) lineCount content :=
  ⟨hcontent.coherent.setReservation issuer reservation hheld, hcontent.lineCount_eq,
    hcontent.viewLine_eq⟩

theorem Shows.fill {issuer : Stage} {tag : Nat} {answer : Poll Nat}
    (haligned : cache.memory.lineStart tag = tag) (hmiss : (cache.setOf tag).hit? tag = none)
    (hresult : cache.fill issuer tag = (answer, after)) :
    Shows after lineCount content ∧ after.writeAllocate = cache.writeAllocate ∧
      ∀ way, answer = .done way → Holds after tag way := by
  rcases hreserve : cache.reserve issuer tag with ⟨way, reserved⟩
  obtain ⟨rfl, hlt, halone⟩ := reserve_spec hcontent.coherent hmiss hreserve
  have hreserved := hcontent.setReservation issuer (some ⟨tag, way⟩) (by
    intro held hheld
    obtain rfl := Option.some.inj hheld
    exact ⟨hlt, halone⟩)
  rcases hwrite : (cache.setReservation issuer (some ⟨tag, way⟩)).writeBack issuer tag way with
    ⟨answer', written⟩
  obtain ⟨hwritten, hkeeps, hclean⟩ := hreserved.writeBack hwrite
  cases answer' with
  | wait =>
      simp only [Cache.fill, hreserve, hwrite] at hresult
      obtain ⟨rfl, rfl⟩ := Prod.mk.inj hresult
      exact ⟨hwritten, hkeeps.writeAllocate_eq, nofun⟩
  | done _ =>
      simp only [Cache.fill, hreserve, hwrite, onMemory_eq, MainMemory.readLine] at hresult
      rcases written.memory.renewed_access_cases issuer tag
          (fun memory => (memory.peekLine tag, memory)) with ⟨pending, ha⟩ | ha
      · simp only [ha] at hresult
        obtain ⟨rfl, rfl⟩ := Prod.mk.inj hresult
        exact ⟨hwritten.of_same (written.sameLines_withPending pending),
          hkeeps.writeAllocate_eq, nofun⟩
      · simp only [ha] at hresult
        obtain ⟨rfl, rfl⟩ := Prod.mk.inj hresult
        have hstart : written.memory.lineStart tag = tag := by
          rw [lineStart_congr (hwritten.lineCount_eq.trans hcontent.lineCount_eq.symm)]
          exact haligned
        have habsent : ∀ other, (written.lineAt tag other).tag = some tag →
            (written.lineAt tag other).valid = false := by
          intro other htag
          rw [hkeeps.valid_eq]
          exact hcontent.coherent.not_valid_of_miss hmiss
            ((hkeeps.tag_eq tag other).symm.trans htag)
        have hway : way < (written.withPending none).ways := hkeeps.ways_eq.symm ▸ hlt
        obtain ⟨hfilled, hholds⟩ :=
          (hwritten.of_same (written.sameLines_withPending none)).broughtIn hway
          hstart (fun other htag => halone other ((hkeeps.tag_eq tag other).symm.trans htag))
          (hclean rfl) habsent
        have hfinish := sameLines_finish
          ((written.withPending none).modifySet tag fun set =>
            set.install way (written.memory.peekLine tag) false)
          { written.stats with misses := written.stats.misses + 1 } issuer
        refine ⟨hfilled.of_same hfinish, hkeeps.writeAllocate_eq, ?_⟩
        intro w hw
        obtain rfl := Poll.done.inj hw
        exact hholds.of_same hfinish

theorem Shows.resolve {issuer : Stage} {tag : Nat} {answer : Poll Nat}
    (haligned : cache.memory.lineStart tag = tag)
    (hresult : cache.resolve issuer tag = (answer, after)) :
    Shows after lineCount content ∧ after.writeAllocate = cache.writeAllocate ∧
      ∀ way, answer = .done way → Holds after tag way := by
  unfold Cache.resolve at hresult
  split at hresult
  · rename_i way hhit
    obtain ⟨rfl, rfl⟩ := Prod.mk.inj hresult
    have htouch := cache.sameLines_touch tag way
    have hfinish := sameLines_finish (cache.modifySet tag fun set => set.touch way)
      { cache.stats with hits := cache.stats.hits + 1 } issuer
    refine ⟨(hcontent.of_same htouch).of_same hfinish, rfl, ?_⟩
    intro w hw
    obtain rfl := Poll.done.inj hw
    exact ((holds_of_hit? hhit).of_same htouch).of_same hfinish
  · rename_i hmiss
    exact hcontent.fill haligned hmiss hresult

omit hcontent in
-- Memory is left as it is by what changes one way.
theorem Admits.shows {tag way : Nat} {line : Line} {dirty : Bool}
    (h : Shows cache lineCount content) (ha : Admits cache after tag way line true dirty)
    (hold : (cache.lineAt tag way).dirty = false ∨ (cache.lineAt tag way).tag = some tag) :
    Shows after lineCount fun address =>
      if cache.memory.lineStart address = tag then line.words else content address := by
  refine ⟨ha.coherent h.coherent, ha.lineCount_eq.trans h.lineCount_eq, ?_⟩
  intro address
  rw [ha.viewLine h.coherent hold, if_pos rfl, h.viewLine_eq]

theorem Shows.writePresent {issuer : Stage} {tag way : Nat} {offset : Nat} {data : List Word}
    {answer : Poll Nat} (haligned : cache.memory.lineStart tag = tag) (hholds : Holds cache tag way)
    (hresult : cache.writePresent issuer tag way offset data = (answer, after)) :
    (answer = .wait ∧ Shows after lineCount content) ∨
      answer = .done (fitting offset data) ∧ Shows after lineCount fun address =>
        if cache.memory.lineStart address = tag then patch (content address) offset data
        else content address := by
  rcases hwrite : cache.writeBack issuer tag way with ⟨answer', written⟩
  obtain ⟨hwritten, hkeeps, -⟩ := hcontent.writeBack hwrite
  cases answer' with
  | wait =>
      simp only [Cache.writePresent, hwrite] at hresult
      obtain ⟨rfl, rfl⟩ := Prod.mk.inj hresult
      exact .inl ⟨rfl, hwritten⟩
  | done _ =>
      simp only [Cache.writePresent, hwrite] at hresult
      obtain ⟨rfl, rfl⟩ := Prod.mk.inj hresult
      refine .inr ⟨rfl, ?_⟩
      have hlineCount := hwritten.lineCount_eq.trans hcontent.lineCount_eq.symm
      have htag : (written.lineAt tag way).tag = some tag := (hkeeps.tag_eq tag way).trans hholds.1
      have hvalid : (written.lineAt tag way).valid = true :=
        (hkeeps.valid_eq tag way).trans hholds.2
      have hstart : written.memory.lineStart tag = tag :=
        (lineStart_congr hlineCount tag).trans haligned
      have ha := overwrite_admits hwritten.coherent hstart ⟨htag, hvalid⟩
        (patch (written.lineAt tag way).line.words offset data)
      have hchanged := (ha.shows hwritten (.inr htag)).of_same (sameLines_finish
        (written.modifySet tag fun set =>
          set.overwrite way (patch (written.lineAt tag way).line.words offset data))
        written.stats issuer)
      refine ⟨hchanged.coherent, hchanged.lineCount_eq, ?_⟩
      intro address
      have hview := hchanged.viewLine_eq address
      rw [lineStart_congr hlineCount] at hview
      refine hview.trans ?_
      split
      · rename_i haddress
        rw [← hwritten.coherent.viewLine_of_valid
          ((lineStart_congr hlineCount address).trans haddress) htag hvalid, hwritten.viewLine_eq]
      · rfl

end

end Cache

end PipelinedProcessor
