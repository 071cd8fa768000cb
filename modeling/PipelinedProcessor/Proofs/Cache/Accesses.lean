import PipelinedProcessor.Proofs.Cache.Polls
import PipelinedProcessor.Proofs.Memory.View

namespace PipelinedProcessor.Cache

theorem view_eq_wordsOf (cache : Cache) : cache.view = cache.memory.wordsOf cache.viewLine :=
  funext cache.view_eq

theorem wordsOf_congr (memory other : MainMemory) (content : Nat → Vector Word lineLength) :
    other.wordsOf content = memory.wordsOf content := by
  funext address
  have hoffset : other.offset address = memory.offset address := Fin.ext (by
    rw [MainMemory.offset_val, MainMemory.offset_val])
  simp only [MainMemory.wordsOf, hoffset]

theorem viewLine_eq_ofFn (cache : Cache) (address : Nat) :
    cache.viewLine address = .ofFn fun i => cache.view (cache.memory.lineStart address + i) := by
  rw [view_eq_wordsOf]
  exact cache.memory.eq_ofFn_wordsOf cache.viewLine_congr address

-- A cache in good order, of the size of another and with these words at its addresses.
structure Presents (before after : Cache) (view : MemoryView) : Prop where
  coherent : Coherent after
  lineCount_eq : after.memory.lineCount = before.memory.lineCount
  view_eq : after.view = view

section

variable {cache after : Cache} {content : Nat → Vector Word lineLength}

theorem Shows.presents (hshows : Shows after cache.memory.lineCount content) :
    Presents cache after (cache.memory.wordsOf content) := by
  refine ⟨hshows.coherent, hshows.lineCount_eq, ?_⟩
  rw [view_eq_wordsOf, wordsOf_congr cache.memory]
  exact congrArg _ (funext hshows.viewLine_eq)

theorem Shows.presents_view (hshows : Shows after cache.memory.lineCount cache.viewLine) :
    Presents cache after cache.view := by
  rw [view_eq_wordsOf]
  exact hshows.presents

variable (h : Coherent cache) {issuer : Stage} {address : Nat}

include h

theorem readLine_spec {answer : Poll Line}
    (hresult : cache.readLine issuer address = (answer, after)) :
    Presents cache after cache.view ∧
      ∀ line, answer = .done line → line.words = cache.viewLine address ∧
        line.start = some (cache.memory.lineStart address) := by
  rcases hresolve : cache.resolve issuer (cache.memory.lineStart address) with ⟨answer', resolved⟩
  obtain ⟨hshows, -, hholds⟩ := h.shows.resolve (cache.memory.lineStart_lineStart address) hresolve
  cases answer' with
  | wait =>
      simp only [readLine, hresolve] at hresult
      obtain ⟨rfl, rfl⟩ := Prod.mk.inj hresult
      exact ⟨hshows.presents_view, nofun⟩
  | done way =>
      simp only [readLine, hresolve] at hresult
      obtain ⟨rfl, rfl⟩ := Prod.mk.inj hresult
      obtain ⟨htag, hvalid⟩ := hholds way rfl
      refine ⟨hshows.presents_view, ?_⟩
      intro line hline
      obtain rfl := Poll.done.inj hline
      refine ⟨?_, htag⟩
      rw [← hshows.viewLine_eq,
        hshows.coherent.viewLine_of_valid (lineStart_congr hshows.lineCount_eq _) htag hvalid]

-- A read is the read of a line of which one word is used.
omit h in
theorem read_eq (cache : Cache) (issuer : Stage) (address : Nat) :
    cache.read issuer address =
      ((cache.readLine issuer address).1.map (·.words.get (cache.memory.offset address)),
        (cache.readLine issuer address).2) := by
  simp only [read, readLine]
  split <;> rfl

theorem read_spec {answer : Poll Word} (hresult : cache.read issuer address = (answer, after)) :
    Presents cache after cache.view ∧ ∀ w, answer = .done w → w = cache.view address := by
  rcases hline : cache.readLine issuer address with ⟨answer', resolved⟩
  rw [read_eq, hline] at hresult
  obtain ⟨rfl, rfl⟩ := Prod.mk.inj hresult
  obtain ⟨hpresents, hanswer⟩ := readLine_spec h hline
  refine ⟨hpresents, ?_⟩
  intro w hw
  cases answer' with
  | wait => cases hw
  | done line =>
      obtain rfl := Poll.done.inj hw
      show line.words.get (cache.memory.offset address) = cache.view address
      rw [view_eq, (hanswer line rfl).1]

end

-- Words of a line that is not in the cache can change behind its back.
theorem Shows.memoryLine {cache : Cache} {lineCount : Nat} {content : Nat → Vector Word lineLength}
    (h : Shows cache lineCount content) (address : Nat) (words : Vector Word lineLength)
    (pending : Option Pending)
    (hmiss : (cache.setOf (cache.memory.lineStart address)).hit?
      (cache.memory.lineStart address) = none) :
    Shows { cache with memory := { cache.memory.putLine address words with pending := pending } }
      lineCount fun other =>
        if cache.memory.lineStart other = cache.memory.lineStart address then words
        else content other := by
  have hcoherent := h.coherent
  have hpeek (other : Nat) :
      ({ cache.memory.putLine address words with pending := pending } : MainMemory).peekWords
        other =
        if cache.memory.lineStart address = cache.memory.lineStart other then words
        else cache.memory.peekWords other :=
    cache.memory.peekWords_putLine' address other words
  have habsent {other way tag : Nat} (htag : (cache.lineAt other way).tag = some tag)
      (hvalid : (cache.lineAt other way).valid = true) : cache.memory.lineStart address ≠ tag := by
    rintro rfl
    have hsame := cache.lineAt_congr (hcoherent.home htag).2.symm way
    rw [hsame] at htag hvalid
    rw [hcoherent.not_valid_of_miss hmiss htag] at hvalid
    cases hvalid
  refine ⟨⟨hcoherent.ways_pos, hcoherent.length_eq, hcoherent.home,
    hcoherent.unique, hcoherent.tagged,
    hcoherent.valid, ?_, hcoherent.reserved⟩, h.lineCount_eq, ?_⟩
  · intro other way tag htag hvalid hdirty
    refine (hcoherent.clean htag hvalid hdirty).trans ((hpeek tag).trans (if_neg ?_)).symm
    rw [(hcoherent.home htag).1]
    exact habsent htag hvalid
  · intro other
    rw [← h.viewLine_eq]
    split
    · rename_i hline
      have hmiss' :
          (cache.setOf (cache.memory.lineStart other)).hit? (cache.memory.lineStart other) = none :=
        hline ▸ hmiss
      exact Eq.trans (viewLine_of_miss hmiss') ((hpeek other).trans (if_pos hline.symm))
    · rename_i hline
      have hsame := (hpeek other).trans (if_neg (Ne.symm hline))
      cases hhit :
        (cache.setOf (cache.memory.lineStart other)).hit? (cache.memory.lineStart other) with
      | none => exact Eq.trans (viewLine_of_miss hhit) (hsame.trans (viewLine_of_miss hhit).symm)
      | some way => exact Eq.trans (viewLine_of_hit hhit) (viewLine_of_hit hhit).symm

-- Where an allocating store finds its line, which is brought in if it is missing.
def bringIn (cache : Cache) (issuer : Stage) (tag : Nat) : Poll Nat × Cache :=
  match (cache.setOf tag).hit? tag with
  | some way => (.done way, cache)
  | none => cache.fill issuer tag

theorem store_eq (cache : Cache) (issuer : Stage) (address : Nat) (w : Word) :
    cache.store issuer address w =
      if cache.writeAllocate then
        match cache.bringIn issuer (cache.memory.lineStart address) with
        | (.wait, placed) => (.wait, placed)
        | (.done way, placed) =>
          let written := placed.writePresent issuer (cache.memory.lineStart address) way
            (cache.memory.offset address) [w]
          (written.1.map fun _ => (), written.2)
      else cache.write issuer address w := rfl

-- Where a whole line goes: to the way that carries the tag already, or to one that is kept for it.
def placeFor (cache : Cache) (issuer : Stage) (tag : Nat) : Nat × Cache :=
  match (cache.setOf tag).way? tag with
  | some way => (way, cache)
  | none => cache.reserve issuer tag

theorem putLine_eq (cache : Cache) (issuer : Stage) (address : Nat) (words : Vector Word lineLength)
    (dirty : Bool) :
    cache.putLine issuer address words dirty =
      let tag := cache.memory.lineStart address
      let (way, chosen) := cache.placeFor issuer tag
      match chosen.writeBack issuer tag way with
      | (.wait, written) => (.wait, written)
      | (.done _, written) =>
        (.done (), (written.modifySet tag fun set =>
          set.install way { start := some tag, words := words } dirty).finish issuer) := rfl

theorem Shows.bringIn {cache placed : Cache} {lineCount : Nat}
    {content : Nat → Vector Word lineLength} (h : Shows cache lineCount content) {issuer : Stage}
    {tag : Nat} {found : Poll Nat} (haligned : cache.memory.lineStart tag = tag)
    (hplace : cache.bringIn issuer tag = (found, placed)) :
    Shows placed lineCount content ∧ ∀ way, found = .done way → Holds placed tag way := by
  unfold Cache.bringIn at hplace
  split at hplace
  · rename_i way hhit
    obtain ⟨rfl, rfl⟩ := Prod.mk.inj hplace
    refine ⟨h, ?_⟩
    intro other hother
    obtain rfl := Poll.done.inj hother
    exact holds_of_hit? hhit
  · rename_i hmiss
    obtain ⟨hshows, -, hholds⟩ := h.fill haligned hmiss hplace
    exact ⟨hshows, hholds⟩

theorem Shows.placeFor {cache chosen : Cache} {lineCount : Nat}
    {content : Nat → Vector Word lineLength} (h : Shows cache lineCount content)
    {issuer : Stage} {tag way : Nat} (hchoice : cache.placeFor issuer tag = (way, chosen)) :
    Shows chosen lineCount content ∧ way < chosen.ways ∧
      ∀ other, (chosen.lineAt tag other).tag = some tag → other = way := by
  unfold Cache.placeFor at hchoice
  split at hchoice
  · rename_i found hway
    obtain ⟨rfl, rfl⟩ := Prod.mk.inj hchoice
    have htag := CacheSet.tag_of_way? hway
    refine ⟨h, ?_, fun other hother => h.coherent.unique hother htag⟩
    rw [← h.coherent.length_eq tag]
    exact CacheSet.lt_length_of_tag htag
  · rename_i hway
    obtain ⟨rfl, hlt, halone⟩ := reserve_spec h.coherent (by simp [CacheSet.hit?, hway]) hchoice
    refine ⟨h.setReservation issuer _ ?_, hlt, halone⟩
    intro held hheld
    obtain rfl := Option.some.inj hheld
    exact ⟨hlt, halone⟩

theorem fitting_one (memory : MainMemory) (address : Nat) (w : Word) :
    fitting (memory.offset address) [w] = 1 := by
  have hlt := (memory.offset address).isLt
  simp only [fitting, List.length_singleton, lineLength] at hlt ⊢
  omega

section

variable {cache after : Cache} (h : Coherent cache) {issuer : Stage} {address : Nat}

include h

-- What is asked of a write that reports how many of the data it has written.
theorem writePartial_spec {data : List Word} {answer : Poll Nat}
    (hresult : cache.writePartial issuer address data = (answer, after)) :
    (answer = .wait ∧ Presents cache after cache.view) ∨
      answer = .done (fitting (cache.memory.offset address) data) ∧
        Presents cache after (MemoryView.putAll cache.memory.capacity cache.view address
          (data.take (fitting (cache.memory.offset address) data))) := by
  rw [view_eq_wordsOf, ← MainMemory.wordsOf_patch]
  unfold writePartial at hresult
  simp only at hresult
  split at hresult
  · rename_i way hhit
    rcases hwrite : cache.writePresent issuer (cache.memory.lineStart address) way
      (cache.memory.offset address) data with ⟨answer', written⟩
    have hspec := h.shows.writePresent (cache.memory.lineStart_lineStart address)
      (holds_of_hit? hhit) hwrite
    rcases hspec with ⟨rfl, hshows⟩ | ⟨rfl, hshows⟩
    · simp only [hwrite] at hresult
      obtain ⟨rfl, rfl⟩ := Prod.mk.inj hresult
      exact .inl ⟨rfl, hshows.presents⟩
    · simp only [hwrite] at hresult
      obtain ⟨rfl, rfl⟩ := Prod.mk.inj hresult
      exact .inr ⟨rfl, (hshows.of_same (written.sameLines_stats _)).presents⟩
  · rename_i hmiss
    simp only [onMemory_eq, MainMemory.writePartial] at hresult
    rcases cache.memory.renewed_access_cases issuer (cache.memory.wrap address) (fun memory =>
        (fitting (memory.offset (cache.memory.wrap address)) data,
          memory.putLine (cache.memory.wrap address)
            (patch (memory.peekWords (cache.memory.wrap address))
            (memory.offset (cache.memory.wrap address)) data))) with ⟨pending, ha⟩ | ha
    · simp only [ha] at hresult
      obtain ⟨rfl, rfl⟩ := Prod.mk.inj hresult
      exact .inl ⟨rfl, (h.shows.of_same (cache.sameLines_withPending pending)).presents⟩
    · simp only [ha] at hresult
      obtain ⟨rfl, rfl⟩ := Prod.mk.inj hresult
      have hoffset : MainMemory.offset { cache.memory with pending := none }
          (cache.memory.wrap address) =
          cache.memory.offset address := cache.memory.offset_wrap address
      rw [hoffset]
      refine .inr ⟨rfl, ?_⟩
      have hshows := h.shows.memoryLine (cache.memory.wrap address)
        (patch (cache.memory.peekWords (cache.memory.wrap address))
          (cache.memory.offset address) data) none
        (by rw [MainMemory.lineStart_wrap]; exact hmiss)
      have hcontent (other : Nat)
          (hline : cache.memory.lineStart other = cache.memory.lineStart address) :
          cache.memory.peekWords (cache.memory.wrap address) = cache.viewLine other := by
        simp only [viewLine, hline, hmiss]
        exact cache.memory.peekWords_congr ((cache.memory.lineStart_wrap address).trans hline.symm)
      refine Shows.presents ⟨hshows.coherent, rfl, ?_⟩
      intro other
      refine (hshows.viewLine_eq other).trans ?_
      rw [MainMemory.lineStart_wrap]
      split
      · rename_i hline
        rw [hcontent other hline]
      · rfl

theorem write_spec {w : Word} {answer : Poll Unit}
    (hresult : cache.write issuer address w = (answer, after)) :
    (answer = .wait ∧ Presents cache after cache.view) ∨
      answer = .done () ∧
        Presents cache after (MemoryView.put cache.memory.capacity cache.view address w) := by
  rcases hpartial : cache.writePartial issuer address [w] with ⟨answer', written⟩
  simp only [write, hpartial] at hresult
  obtain ⟨rfl, rfl⟩ := Prod.mk.inj hresult
  rcases writePartial_spec h hpartial with ⟨rfl, hpresents⟩ | ⟨rfl, hpresents⟩
  · exact .inl ⟨rfl, hpresents⟩
  · rw [fitting_one] at hpresents
    exact .inr ⟨rfl, hpresents⟩

theorem store_spec {w : Word} {answer : Poll Unit}
    (hresult : cache.store issuer address w = (answer, after)) :
    (answer = .wait ∧ Presents cache after cache.view) ∨
      answer = .done () ∧
        Presents cache after (MemoryView.put cache.memory.capacity cache.view address w) := by
  rw [store_eq] at hresult
  split at hresult
  · rcases hplace : cache.bringIn issuer (cache.memory.lineStart address) with ⟨found, placed⟩
    rw [hplace] at hresult
    have haligned := cache.memory.lineStart_lineStart address
    obtain ⟨hshows, hholds⟩ := h.shows.bringIn haligned hplace
    cases found with
    | wait =>
        obtain ⟨rfl, rfl⟩ := Prod.mk.inj hresult
        exact .inl ⟨rfl, hshows.presents_view⟩
    | done way =>
        rcases hwrite : placed.writePresent issuer (cache.memory.lineStart address) way
          (cache.memory.offset address) [w] with ⟨answer', written⟩
        simp only [hwrite] at hresult
        obtain ⟨rfl, rfl⟩ := Prod.mk.inj hresult
        rcases hshows.writePresent ((lineStart_congr hshows.lineCount_eq _).trans haligned)
          (hholds way rfl) hwrite with ⟨rfl, hwritten⟩ | ⟨rfl, hwritten⟩
        · exact .inl ⟨rfl, hwritten.presents_view⟩
        · refine .inr ⟨rfl, ?_⟩
          simp only [lineStart_congr hshows.lineCount_eq] at hwritten
          have hpresents := hwritten.presents
          rw [MainMemory.wordsOf_patch, fitting_one, ← view_eq_wordsOf] at hpresents
          exact hpresents
  · exact write_spec h hresult

theorem putLine_spec {words : Vector Word lineLength} {answer : Poll Unit}
    (hresult : cache.putLine issuer address words true = (answer, after)) :
    (answer = .wait ∧ Presents cache after cache.view) ∨
      answer = .done () ∧ Presents cache after (MemoryView.putAll cache.memory.capacity cache.view
        (cache.memory.lineStart address) words.toList) := by
  have haligned := cache.memory.lineStart_lineStart address
  rw [view_eq_wordsOf, ← MainMemory.wordsOf_line]
  rw [putLine_eq] at hresult
  generalize cache.memory.lineStart address = tag at haligned hresult ⊢
  rcases hchoice : cache.placeFor issuer tag with ⟨way, chosen⟩
  simp only [hchoice] at hresult
  obtain ⟨hshows, hlt, halone⟩ := h.shows.placeFor hchoice
  rcases hwrite : chosen.writeBack issuer tag way with ⟨answer', written⟩
  obtain ⟨hwritten, hkeeps, hclean⟩ := hshows.writeBack hwrite
  cases answer' with
  | wait =>
      simp only [hwrite] at hresult
      obtain ⟨rfl, rfl⟩ := Prod.mk.inj hresult
      exact .inl ⟨rfl, hwritten.presents⟩
  | done _ =>
      simp only [hwrite] at hresult
      obtain ⟨rfl, rfl⟩ := Prod.mk.inj hresult
      refine .inr ⟨rfl, ?_⟩
      have ha := install_admits hwritten.coherent { start := some tag, words := words } true
        (hkeeps.ways_eq.symm ▸ hlt) rfl
        ((lineStart_congr hwritten.lineCount_eq tag).trans haligned)
        (fun other hother => halone other ((hkeeps.tag_eq tag other).symm.trans hother)) nofun
      have hplaced := (ha.shows hwritten (.inl (hclean rfl))).of_same (sameLines_finish
        (written.modifySet tag fun set =>
          set.install way { start := some tag, words := words } true)
        written.stats issuer)
      simp only [lineStart_congr hwritten.lineCount_eq] at hplaced
      exact hplaced.presents

end

end PipelinedProcessor.Cache
