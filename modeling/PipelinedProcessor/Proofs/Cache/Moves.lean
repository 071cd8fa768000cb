import PipelinedProcessor.Proofs.Cache.LiveStorage
import PipelinedProcessor.Proofs.Cache.Loading
import PipelinedProcessor.Proofs.Cache.Marks
import PipelinedProcessor.Proofs.Cache.Transparency

namespace PipelinedProcessor

-- The value of an access that is done.
def Poll.value? {α : Type} : Poll α → Option α
  | .wait => none
  | .done value => some value

def Poll.ifDone {α β : Type} (answer : Poll α) (used : Option β) : Option β :=
  answer.value?.bind fun _ => used

theorem Poll.ifDone_map {α β γ : Type} (answer : Poll α) (f : α → β) (used : Option γ) :
    (answer.map f).ifDone used = answer.ifDone used := by
  cases answer <;> rfl

namespace Cache

-- The way for a line that is missing, and the reservation of it.

section

variable {cache after : Cache} {issuer : Stage} {tag way : Nat}

theorem reserve_lt (h : Sized cache) (issuer : Stage) (tag : Nat) :
    (cache.reserve issuer tag).1 < cache.ways := by
  have hchoose : (reserve.choose cache issuer tag).1 < cache.ways := by
    rw [← h.length_eq tag]
    exact CacheSet.victim_lt tag _ (h.length_eq tag ▸ h.ways_pos)
  unfold reserve
  split
  · rename_i held hheld
    split
    · exact h.held_lt issuer held hheld
    · exact hchoose
  · exact hchoose

theorem sameMarks_withPending (cache : Cache) (pending : Option Pending) :
    SameMarks cache (cache.withPending pending) := ⟨rfl, rfl, fun _ => rfl⟩

theorem sameMarks_setReservation (cache : Cache) (issuer : Stage)
    (reservation : Option Reservation) :
    SameMarks cache (cache.setReservation issuer reservation) := ⟨rfl, rfl, fun _ => rfl⟩

theorem sameMarks_cleaned (cache : Cache) (tag way old : Nat) :
    SameMarks cache (cache.cleaned tag way old) := by
  refine ⟨rfl, rfl, ?_⟩
  intro address
  show ((cache.modifySet tag fun set =>
    List.modify set way fun line => { line with dirty := false }).setOf address).marks = _
  rw [setOf_modifySet]
  split
  · exact CacheSet.marks_clean _ _
  · rfl

theorem sameMarks_writeBack {answer : Poll Unit}
    (hresult : cache.writeBack issuer tag way = (answer, after)) :
    SameMarks cache after ∧ after.reservations = cache.reservations := by
  rcases cache.writeBack_cases issuer tag way with ⟨-, hw⟩ | ⟨old, -, ⟨pending, hw⟩ | hw⟩
  · rw [hw] at hresult
    obtain ⟨-, rfl⟩ := Prod.mk.inj hresult
    exact ⟨.refl _, rfl⟩
  · rw [hw] at hresult
    obtain ⟨-, rfl⟩ := Prod.mk.inj hresult
    exact ⟨cache.sameMarks_withPending pending, rfl⟩
  · rw [hw] at hresult
    obtain ⟨-, rfl⟩ := Prod.mk.inj hresult
    exact ⟨cache.sameMarks_cleaned tag way old, rfl⟩

theorem reservation_congr {before after : Cache} (h : after.reservations = before.reservations)
    (issuer : Stage) :
    after.reservation issuer = before.reservation issuer := by
  simp only [reservation, h]

-- A line that is brought in goes to the way that is reserved for it.
theorem fill_uses (h : Sized cache) (haligned : cache.memory.lineStart tag = tag)
    {answer : Poll Nat} (hresult : cache.fill issuer tag = (answer, after)) :
    (answer = .wait ∧ SameMarks cache after ∧
      after.reservations = (cache.reserve issuer tag).2.reservations) ∨
      answer = .done (cache.reserve issuer tag).1 ∧
      UsesWay cache after tag (cache.reserve issuer tag).1 ∧
        Releases cache after issuer := by
  have hlt := cache.reserve_lt h issuer tag
  obtain ⟨way, hreserve, -⟩ := cache.reserve_eq issuer tag
  rw [fill_eq, hreserve] at hresult
  rw [hreserve] at hlt ⊢
  have hreserved := cache.sameMarks_setReservation issuer (some ⟨tag, way⟩)
  unfold fillInto at hresult
  split at hresult
  · rename_i written hwrite
    obtain ⟨rfl, rfl⟩ := Prod.mk.inj hresult
    obtain ⟨hsame, hheld⟩ := sameMarks_writeBack hwrite
    exact .inl ⟨rfl, hreserved.trans hsame, hheld⟩
  · rename_i written hwrite
    obtain ⟨hsame, hheld⟩ := sameMarks_writeBack hwrite
    have hwritten := hreserved.trans hsame
    simp only [onMemory_eq, MainMemory.readLine] at hresult
    rcases written.memory.renewed_access_cases issuer tag
        (fun memory => (memory.peekLine tag, memory)) with ⟨pending, ha⟩ | ha
    · rw [ha] at hresult
      obtain ⟨rfl, rfl⟩ := Prod.mk.inj hresult
      exact .inl ⟨rfl, hwritten.trans (written.sameMarks_withPending pending), hheld⟩
    · rw [ha] at hresult
      obtain ⟨rfl, rfl⟩ := Prod.mk.inj hresult
      have hstart : (written.memory.peekLine tag).start = some tag :=
        congrArg some ((lineStart_congr hwritten.lineCount_eq tag).trans haligned)
      have hlength : (written.setOf tag).length = cache.ways :=
        (CacheSet.length_of_marks (hwritten.marks_eq tag)).trans (h.length_eq tag)
      have hused := (CacheSet.used_install (written.setOf tag) (written.memory.peekLine tag) false
        (hlength.symm ▸ hlt) hstart).of_marks
        (hwritten.marks_eq tag)
      refine .inr ⟨rfl, changesSet_of_modifySet hwritten
        (fun set => set.install way (written.memory.peekLine tag) false) rfl rfl ?_ hused, ?_⟩
      · exact lineCount_finish _ issuer
      · apply releases_finish
        intro other hne
        have hother := cache.reservation_setReservation issuer other (some ⟨tag, way⟩)
        rw [if_neg hne] at hother
        exact (reservation_congr hheld other).trans hother

theorem writePresent_uses {offset : Nat} {data : List Word} {answer : Poll Nat}
    (hholds : Holds cache tag way)
    (hresult : cache.writePresent issuer tag way offset data = (answer, after)) :
    (answer = .wait ∧ SameMarks cache after ∧ after.reservations = cache.reservations) ∨
      answer = .done (fitting offset data) ∧ UsesWay cache after tag way ∧
      Releases cache after issuer := by
  unfold writePresent at hresult
  split at hresult
  · rename_i written hwrite
    obtain ⟨rfl, rfl⟩ := Prod.mk.inj hresult
    exact .inl ⟨rfl, sameMarks_writeBack hwrite⟩
  · rename_i written hwrite
    obtain ⟨rfl, rfl⟩ := Prod.mk.inj hresult
    obtain ⟨hsame, hheld⟩ := sameMarks_writeBack hwrite
    have hmark := hsame.mark_eq tag way
    have htag : (written.lineAt tag way).tag = some tag := (congrArg Mark.tag hmark).trans hholds.1
    have hvalid : (written.lineAt tag way).valid = true :=
      (congrArg Mark.valid hmark).trans hholds.2
    have hused :=
      (CacheSet.used_overwrite (patch (written.lineAt tag way).line.words offset data) htag
      hvalid).of_marks (hsame.marks_eq tag)
    refine .inr ⟨rfl, changesSet_of_modifySet hsame
      (fun set => set.overwrite way (patch (written.lineAt tag way).line.words offset data)) rfl
        rfl ?_ hused, ?_⟩
    · exact lineCount_finish _ issuer
    · apply releases_finish
      intro other _
      exact reservation_congr hheld other

-- What is in a way after its use.
theorem UsesWay.holds (h : UsesWay cache after tag way) : Holds after tag way :=
  ⟨congrArg Mark.tag h.changed.mark_eq, congrArg Mark.valid h.changed.mark_eq⟩

end

-- What one try of a call does to the ways, and which way it uses. Nothing moves, a way is reserved
-- for a line that is missing, or a way is used.
inductive Moved (before after : Cache) : Option (Fin 4 × Nat) → Prop where
  | rests (hsame : SameMarks before after)
      (hheld : ∀ issuer held, after.reservation issuer = some held →
        before.reservation issuer = some held) :
      Moved before after none
  | reserves (issuer : Stage) (tag : Nat) (haligned : before.memory.lineStart tag = tag)
      (hmiss : (before.setOf tag).hit? tag = none) (hsame : SameMarks before after)
      (hheld : after.reservations = (before.reserve issuer tag).2.reservations) :
        Moved before after none
  | uses (issuer : Stage) (tag way : Nat) (haligned : before.memory.lineStart tag = tag)
      (hplace : (before.setOf tag).way? tag = some way ∨
        (before.setOf tag).hit? tag = none ∧ (before.reserve issuer tag).1 = way)
      (huses : UsesWay before after tag way) (hheld : Releases before after issuer) :
      Moved before after (some (setIndex tag, way))

-- The line of a tag is dropped from the way that carries it.
structure Drops (before after : Cache) (tag way : Nat) : Prop where
  way_eq : (before.setOf tag).way? tag = some way
  changes : ChangesSet before after tag fun set set' => CacheSet.Dropped set set' way
  reservations_eq : after.reservations = before.reservations

theorem Moved.rests_of_reservations {before after : Cache} (hsame : SameMarks before after)
    (hheld : after.reservations = before.reservations) : Moved before after none :=
  .rests hsame fun issuer _ h => (reservation_congr hheld issuer).symm.trans h

theorem Moved.of_stats {before after : Cache} {used : Option (Fin 4 × Nat)}
    (h : Moved before after used) (stats : CacheStats) :
    Moved before { after with stats := stats } used := by
  cases h with
  | rests hsame hheld => exact .rests ⟨hsame.ways_eq, hsame.lineCount_eq, hsame.marks_eq⟩ hheld
  | reserves issuer tag haligned hmiss hsame hheld =>
      exact .reserves issuer tag haligned hmiss ⟨hsame.ways_eq, hsame.lineCount_eq,
        hsame.marks_eq⟩ hheld
  | uses issuer tag way haligned hplace huses hheld =>
      exact .uses issuer tag way haligned hplace
        ⟨huses.ways_eq, huses.lineCount_eq, huses.changed, huses.others⟩ hheld

-- A way among those of all sets.
def inSet (tag : Nat) (way : Option Nat) : Option (Fin 4 × Nat) := way.map (setIndex tag, ·)

section

variable {cache after : Cache} {issuer : Stage} {tag : Nat}

theorem fill_moved (h : Sized cache) (haligned : cache.memory.lineStart tag = tag)
    (hmiss : (cache.setOf tag).hit? tag = none) {answer : Poll Nat}
    (hresult : cache.fill issuer tag = (answer, after)) :
    Moved cache after (inSet tag answer.value?) := by
  rcases fill_uses h haligned hresult with ⟨rfl, hsame, hheld⟩ | ⟨rfl, huses, hheld⟩
  · exact .reserves issuer tag haligned hmiss hsame hheld
  · exact .uses issuer tag _ haligned (.inr ⟨hmiss, rfl⟩) huses hheld

theorem resolve_moved (h : Sized cache) (haligned : cache.memory.lineStart tag = tag)
    {answer : Poll Nat} (hresult : cache.resolve issuer tag = (answer, after)) :
    Moved cache after (inSet tag answer.value?) := by
  unfold resolve at hresult
  split at hresult
  · rename_i way hhit
    obtain ⟨rfl, rfl⟩ := Prod.mk.inj hresult
    obtain ⟨htag, hvalid⟩ := holds_of_hit? hhit
    have hchanges :
        UsesWay cache
          ((cache.modifySet tag fun set => set.touch way).countHit.finish issuer) tag way :=
      changesSet_of_modifySet (.refl cache) (fun set => set.touch way) rfl rfl
        (lineCount_finish _ issuer) (CacheSet.used_touch _ htag hvalid)
    exact .uses issuer tag way haligned (.inl (CacheSet.way?_of_hit? hhit).1) hchanges
      (releases_finish issuer fun _ _ => rfl)
  · rename_i hmiss
    exact fill_moved h haligned hmiss hresult

theorem writePresent_moved {way offset : Nat} {data : List Word} {answer : Poll Nat}
    (haligned : cache.memory.lineStart tag = tag) (hhit : (cache.setOf tag).hit? tag = some way)
    (hresult : cache.writePresent issuer tag way offset data = (answer, after)) :
    Moved cache after (answer.ifDone (inSet tag (some way))) := by
  rcases writePresent_uses (holds_of_hit? hhit) hresult with
    ⟨rfl, hsame, hheld⟩ | ⟨rfl, huses, hheld⟩
  · exact .rests_of_reservations hsame hheld
  · exact .uses issuer tag way haligned (.inl (CacheSet.way?_of_hit? hhit).1) huses hheld

theorem writePartial_moved {address : Nat} {data : List Word} {answer : Poll Nat}
    (hresult : cache.writePartial issuer address data = (answer, after)) :
    Moved cache after (answer.ifDone (inSet (cache.memory.lineStart address)
      ((cache.setOf (cache.memory.lineStart address)).hit? (cache.memory.lineStart address)))) := by
  have haligned := cache.memory.lineStart_lineStart address
  unfold writePartial at hresult
  simp only at hresult
  split at hresult
  · rename_i way hhit
    rcases hwrite : cache.writePresent issuer (cache.memory.lineStart address) way
      (cache.memory.offset address) data with ⟨answer', written⟩
    have hmoved := writePresent_moved haligned hhit hwrite
    rw [hwrite] at hresult
    rw [hhit]
    cases answer' with
    | wait =>
        obtain ⟨rfl, rfl⟩ := Prod.mk.inj hresult
        exact hmoved
    | done count =>
        obtain ⟨rfl, rfl⟩ := Prod.mk.inj hresult
        exact hmoved.of_stats _
  · rename_i hmiss
    have hnone : answer.ifDone (inSet (cache.memory.lineStart address) none) = none := by
      cases answer <;> rfl
    rw [hmiss, hnone]
    simp only [onMemory_eq, MainMemory.writePartial] at hresult
    obtain ⟨-, rfl⟩ := Prod.mk.inj hresult
    refine .rests_of_reservations ⟨rfl, ?_, fun _ => rfl⟩ rfl
    rcases cache.memory.renewed_access_cases issuer (cache.memory.wrap address) (fun memory =>
        (fitting (memory.offset (cache.memory.wrap address)) data,
          memory.putLine (cache.memory.wrap address)
            (patch (memory.peekWords (cache.memory.wrap address))
            (memory.offset (cache.memory.wrap address)) data))) with ⟨pending, ha⟩ | ha
    · rw [ha]
    · rw [ha]
      rfl

theorem write_moved {address : Nat} {w : Word} {answer : Poll Unit}
    (hresult : cache.write issuer address w = (answer, after)) :
    Moved cache after (answer.ifDone (inSet (cache.memory.lineStart address)
      ((cache.setOf (cache.memory.lineStart address)).hit? (cache.memory.lineStart address)))) := by
  rcases hpartial : cache.writePartial issuer address [w] with ⟨answer', written⟩
  simp only [write, hpartial] at hresult
  obtain ⟨rfl, rfl⟩ := Prod.mk.inj hresult
  rw [Poll.ifDone_map]
  exact writePartial_moved hpartial

-- A line that was just brought in is clean, so that the store goes into it at once.
theorem store_moved (h : Sized cache) {address : Nat} {w : Word} {answer : Poll Unit}
    (hresult : cache.store issuer address w = (answer, after)) :
    Moved cache after (answer.ifDone (inSet (cache.memory.lineStart address)
      (if cache.writeAllocate then (cache.bringIn issuer (cache.memory.lineStart address)).1.value?
        else (cache.setOf (cache.memory.lineStart address)).hit?
          (cache.memory.lineStart address)))) := by
  have haligned := cache.memory.lineStart_lineStart address
  rw [store_eq] at hresult
  by_cases hallocate : cache.writeAllocate = true
  · rw [if_pos hallocate] at hresult ⊢
    rcases hplace : cache.bringIn issuer (cache.memory.lineStart address) with ⟨found, broughtIn⟩
    rw [hplace] at hresult
    unfold bringIn at hplace
    split at hplace
    · rename_i way hhit
      obtain ⟨rfl, rfl⟩ := Prod.mk.inj hplace
      obtain ⟨rfl, rfl⟩ := Prod.mk.inj hresult
      rw [Poll.ifDone_map]
      exact writePresent_moved haligned hhit rfl
    · rename_i hmiss
      cases found with
      | wait =>
          obtain ⟨rfl, rfl⟩ := Prod.mk.inj hresult
          exact fill_moved h haligned hmiss hplace
      | done way =>
          obtain ⟨-, hclean⟩ := fill_done hplace
          obtain ⟨changed, hwrite, -⟩ :=
            writePresent_of_clean issuer (cache.memory.offset address) [w] hclean
          simp only [hwrite] at hresult
          obtain ⟨rfl, rfl⟩ := Prod.mk.inj hresult
          rcases fill_uses h haligned hplace with ⟨hwait, -⟩ | ⟨hway, huses, hheld⟩
          · cases hwait
          · obtain rfl := Poll.done.inj hway
            rcases writePresent_uses huses.holds hwrite with ⟨hwait, -⟩ | ⟨-, huses', hheld'⟩
            · cases hwait
            · refine .uses issuer _ _ haligned (.inr ⟨hmiss, rfl⟩) (huses.again huses') ?_
              intro other
              rw [hheld', hheld]
              split <;> rfl
  · rw [if_neg hallocate] at hresult ⊢
    exact write_moved hresult

-- A way that is looked up needs no reservation.
theorem placeFor_cases (h : Sized cache) {way : Nat} {chosen : Cache}
    (hchoice : cache.placeFor issuer tag = (way, chosen)) :
    SameMarks cache chosen ∧ way < cache.ways ∧
      (∀ other, issuer ≠ other → chosen.reservation other = cache.reservation other) ∧
      ((cache.setOf tag).way? tag = some way ∧ chosen = cache ∨
        (cache.setOf tag).hit? tag = none ∧ cache.reserve issuer tag = (way, chosen)) := by
  unfold placeFor at hchoice
  split at hchoice
  · rename_i found hway
    obtain ⟨rfl, rfl⟩ := Prod.mk.inj hchoice
    exact ⟨.refl _, h.length_eq tag ▸ CacheSet.lt_length_of_tag (CacheSet.tag_of_way? hway),
      fun _ _ => rfl, .inl ⟨hway, rfl⟩⟩
  · rename_i hway
    have hlt := cache.reserve_lt h issuer tag
    obtain ⟨other, hreserve, -⟩ := cache.reserve_eq issuer tag
    rw [hchoice] at hlt hreserve
    obtain ⟨rfl, rfl⟩ := Prod.mk.inj hreserve
    refine ⟨cache.sameMarks_setReservation _ _, hlt, ?_,
      .inr ⟨by simp [CacheSet.hit?, hway], hchoice⟩⟩
    intro other hne
    rw [reservation_setReservation, if_neg hne]

theorem putLine_moved (h : Sized cache) {address : Nat} {words : Vector Word lineLength}
    {dirty : Bool} {answer : Poll Unit}
    (hresult : cache.putLine issuer address words dirty = (answer, after)) :
    Moved cache after (answer.ifDone (inSet (cache.memory.lineStart address)
      (some (cache.placeFor issuer (cache.memory.lineStart address)).1))) := by
  have haligned := cache.memory.lineStart_lineStart address
  rw [putLine_eq] at hresult
  generalize cache.memory.lineStart address = tag at *
  simp only at hresult
  rcases hchoice : cache.placeFor issuer tag with ⟨way, chosen⟩
  obtain ⟨hchosen, hlt, hothers, hplace⟩ := placeFor_cases h hchoice
  rw [hchoice] at hresult
  simp only at hresult
  rcases hwrite : chosen.writeBack issuer tag way with ⟨answer', written⟩
  obtain ⟨hsame, hheld⟩ := sameMarks_writeBack hwrite
  rw [hwrite] at hresult
  cases answer' with
  | wait =>
      obtain ⟨rfl, rfl⟩ := Prod.mk.inj hresult
      rcases hplace with ⟨-, rfl⟩ | ⟨hmiss, hreserve⟩
      · exact .rests_of_reservations hsame hheld
      · exact .reserves issuer tag haligned hmiss (hchosen.trans hsame)
          (by rw [hreserve]; exact hheld)
  | done _ =>
      obtain ⟨rfl, rfl⟩ := Prod.mk.inj hresult
      have hwritten := hchosen.trans hsame
      have hlength : (written.setOf tag).length = cache.ways :=
        (CacheSet.length_of_marks (hwritten.marks_eq tag)).trans (h.length_eq tag)
      have hused :=
        (CacheSet.used_install (written.setOf tag) { start := some tag, words := words } dirty
        (hlength.symm ▸ hlt) rfl).of_marks (hwritten.marks_eq tag)
      refine .uses issuer tag way haligned ?_ (changesSet_of_modifySet hwritten
        (fun set => set.install way { start := some tag, words := words } dirty) rfl rfl
        (lineCount_finish _ issuer) hused) ?_
      · rcases hplace with ⟨hway, -⟩ | ⟨hmiss, hreserve⟩
        · exact .inl hway
        · exact .inr ⟨hmiss, by rw [hreserve]⟩
      · apply releases_finish
        intro other hne
        exact (reservation_congr hheld other).trans (hothers other hne)

theorem invalidate_drops {address way : Nat}
    (hway : (cache.setOf (cache.memory.lineStart address)).way? (cache.memory.lineStart address) =
      some way) :
    Drops cache (cache.invalidate address) (cache.memory.lineStart address) way := by
  rw [invalidate_of_way? address hway]
  generalize cache.memory.lineStart address = tag at hway
  obtain ⟨hsets, hways, hheld, hcount⟩ := cache.sets_saved tag way
  have hset (other : Nat) : (cache.saved tag way).setOf other = cache.setOf other := by
    simp only [setOf, hsets]
  have hsaved : SameMarks cache (cache.saved tag way) := ⟨hways, hcount, fun other => by rw [hset]⟩
  have hdropped : CacheSet.Dropped (cache.setOf tag)
      (((cache.saved tag way).setOf tag).withdraw way) way := by
    rw [hset tag]
    exact CacheSet.dropped_withdraw (CacheSet.lt_length_of_tag (CacheSet.tag_of_way? hway))
  exact ⟨hway, changesSet_of_modifySet hsaved (fun set => set.withdraw way) rfl
    rfl rfl hdropped, hheld⟩

theorem flush_moved (cache : Cache) : Moved cache cache.flush none := by
  refine .rests_of_reservations ⟨rfl, ?_, ?_⟩ rfl
  · rw [memory_flush, lineCount_saveLines]
  · intro address
    rw [setOf_flush, CacheSet.marks, List.map_map]
    exact List.map_congr_left fun line _ => line.mark_cleanedLine

theorem releaseAll_moved (cache : Cache) : Moved cache cache.releaseAll none := by
  refine .rests ⟨rfl, rfl, fun _ => rfl⟩ ?_
  intro issuer held hheld
  rw [reservation_releaseAll] at hheld
  cases hheld

end

-- The way that a call finds its line in, or brings it into.

def Call.address : Call → Nat
  | .read address => address
  | .readLine address => address
  | .write address _ => address
  | .store address _ => address
  | .writePartial address _ => address
  | .putLine address _ => address

def Call.way? (call : Call) (issuer : Stage) (cache : Cache) : Option Nat :=
  let tag := cache.memory.lineStart call.address
  match call with
  | .read _ => (cache.resolve issuer tag).1.value?
  | .readLine _ => (cache.resolve issuer tag).1.value?
  | .write _ _ => (cache.setOf tag).hit? tag
  | .store _ _ =>
    if cache.writeAllocate then (cache.bringIn issuer tag).1.value? else (cache.setOf tag).hit? tag
  | .writePartial _ _ => (cache.setOf tag).hit? tag
  | .putLine _ _ => some (cache.placeFor issuer tag).1

-- Only a call that is done uses its way. One that goes to memory alone uses none.
def Call.used? (call : Call) (issuer : Stage) (cache : Cache) : Option (Fin 4 × Nat) :=
  (call.poll issuer cache).1.ifDone (inSet (cache.memory.lineStart call.address)
    (call.way? issuer cache))

theorem Call.poll_moved {cache : Cache} (h : Sized cache) (issuer : Stage) (call : Call) :
    Moved cache (call.poll issuer cache).2 (call.used? issuer cache) := by
  have hread (address : Nat) {answer : Poll Line} {after : Cache}
      (hresult : cache.readLine issuer address = (answer, after)) :
      Moved cache after (answer.ifDone (inSet (cache.memory.lineStart address)
        (cache.resolve issuer (cache.memory.lineStart address)).1.value?)) := by
    rcases hresolve : cache.resolve issuer (cache.memory.lineStart address) with ⟨found, resolved⟩
    have hmoved := resolve_moved h (cache.memory.lineStart_lineStart address) hresolve
    simp only [Cache.readLine, hresolve] at hresult
    cases found with
    | wait =>
        obtain ⟨rfl, rfl⟩ := Prod.mk.inj hresult
        exact hmoved
    | done way =>
        obtain ⟨rfl, rfl⟩ := Prod.mk.inj hresult
        exact hmoved
  cases call with
  | read address =>
      have hmoved := hread address rfl
      simp only [used?, poll, read_eq, Poll.ifDone_map]
      exact hmoved
  | readLine address =>
      simp only [used?, poll, Poll.ifDone_map]
      exact hread address rfl
  | write address w =>
      simp only [used?, poll, Poll.ifDone_map]
      exact write_moved rfl
  | store address w =>
      simp only [used?, poll, Poll.ifDone_map]
      exact store_moved h rfl
  | writePartial address data =>
      simp only [used?, poll, Poll.ifDone_map]
      exact writePartial_moved rfl
  | putLine address words =>
      simp only [used?, poll, Poll.ifDone_map]
      exact putLine_moved h rfl

-- All that can happen to a cache. Besides what a processor asks for, a line may be put in that
-- memory has as well, and a line may be dropped.
inductive Step where
  | asked (event : Event)
  | putLine (issuer : Stage) (address : Nat) (words : Vector Word lineLength) (dirty : Bool)
  | invalidate (address : Nat)
deriving DecidableEq

def Step.perform (cache : Cache) : Step → Cache
  | .asked event => event.perform cache
  | .putLine issuer address words dirty => (cache.putLine issuer address words dirty).2
  | .invalidate address => cache.invalidate address

def performSteps (cache : Cache) (steps : List Step) : Cache := steps.foldl Step.perform cache

def Step.used? (cache : Cache) : Step → Option (Fin 4 × Nat)
  | .asked (.poll issuer call) => call.used? issuer cache
  | .asked _ => none
  | .putLine issuer address words dirty =>
    let tag := cache.memory.lineStart address
    (cache.putLine issuer address words dirty).1.ifDone
      (inSet tag (some (cache.placeFor issuer tag).1))
  | .invalidate _ => none

theorem Step.cases {cache : Cache} (h : Sized cache) (step : Step) :
    Moved cache (step.perform cache) (step.used? cache) ∨
      ∃ address way, step = .invalidate address ∧
        Drops cache (step.perform cache) (cache.memory.lineStart address) way := by
  cases step with
  | asked event =>
      left
      cases event with
      | poll issuer call => exact call.poll_moved h issuer
      | flush => exact cache.flush_moved
      | releaseAll => exact cache.releaseAll_moved
  | putLine issuer address words dirty => exact .inl (putLine_moved h rfl)
  | invalidate address =>
      cases hway :
        (cache.setOf (cache.memory.lineStart address)).way? (cache.memory.lineStart address) with
      | none =>
          left
          simp only [perform, invalidate_of_none address hway]
          exact .rests_of_reservations (.refl cache) rfl
      | some way => exact .inr ⟨address, way, rfl, invalidate_drops hway⟩

-- What moves stays within the ways that there are.

theorem Moved.sized {before after : Cache} {used : Option (Fin 4 × Nat)} (h : Sized before)
    (hmoved : Moved before after used) : Sized after := by
  cases hmoved with
  | rests hsame hheld =>
      exact ⟨hsame.ways_eq ▸ h.ways_pos, hsame.length_eq h.length_eq, fun issuer held hissuer =>
        hsame.ways_eq ▸ h.held_lt issuer held (hheld issuer held hissuer)⟩
  | reserves issuer tag haligned hmiss hsame hheld =>
      refine ⟨hsame.ways_eq ▸ h.ways_pos, hsame.length_eq h.length_eq, ?_⟩
      intro other held hother
      rw [hsame.ways_eq]
      have hlt := before.reserve_lt h issuer tag
      obtain ⟨way, hreserve, -⟩ := before.reserve_eq issuer tag
      rw [hreserve] at hheld hlt
      rw [reservation_congr hheld, reservation_setReservation] at hother
      split at hother
      · obtain rfl := Option.some.inj hother
        exact hlt
      · exact h.held_lt other held hother
  | uses issuer tag way haligned hplace huses hheld =>
      refine ⟨huses.ways_eq ▸ h.ways_pos, huses.length_eq h.length_eq fun hu => hu.length_eq, ?_⟩
      intro other held hother
      rw [huses.ways_eq]
      rw [hheld] at hother
      split at hother
      · cases hother
      · exact h.held_lt other held hother

theorem Drops.sized {before after : Cache} {tag way : Nat} (h : Sized before)
    (hdrops : Drops before after tag way) : Sized after := by
  refine ⟨hdrops.changes.ways_eq ▸ h.ways_pos, hdrops.changes.length_eq h.length_eq fun hd =>
    hd.length_eq, ?_⟩
  intro issuer held hheld
  rw [reservation_congr hdrops.reservations_eq] at hheld
  rw [hdrops.changes.ways_eq]
  exact h.held_lt issuer held hheld

theorem Step.sized {cache : Cache} (h : Sized cache) (step : Step) :
    Sized (step.perform cache) := by
  rcases step.cases h with hmoved | ⟨address, way, -, hdrops⟩
  · exact hmoved.sized h
  · exact hdrops.sized h

theorem build_eq_empty {lineCount : Nat} {writeAllocate : Bool} {memory : MainMemory}
    {cache : Cache} (h : Cache.build lineCount writeAllocate memory = .ok cache) :
    ∃ ways, 0 < ways ∧ cache = empty ways writeAllocate memory := by
  unfold Cache.build at h
  split at h
  · cases h
  · rename_i hcount
    refine ⟨lineCount / setCount, ?_, (Except.ok.inj h).symm⟩
    simp only [setCount] at hcount ⊢
    omega

theorem sized_empty {ways : Nat} (h : 0 < ways) (writeAllocate : Bool) (memory : MainMemory) :
    Sized (empty ways writeAllocate memory) :=
  ⟨h, (coherent_empty h writeAllocate memory).length_eq, fun issuer held hheld => by
    simp [reservation, empty] at hheld⟩

end Cache

end PipelinedProcessor
