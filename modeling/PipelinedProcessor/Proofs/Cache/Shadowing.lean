import PipelinedProcessor.Proofs.Cache.Flushing
import PipelinedProcessor.Proofs.Memory.View

namespace PipelinedProcessor.Cache

-- Whether a good line of the cache has the word of an address, so that what is written to memory
-- behind it is not seen.
def shadows (cache : Cache) (address : Nat) : Bool :=
  ((cache.setOf (cache.memory.lineStart address)).hit? (cache.memory.lineStart address)).isSome

-- Whether that line was written to, so that what memory has is out of date.
def outdates (cache : Cache) (address : Nat) : Bool :=
  ((cache.setOf (cache.memory.lineStart address)).hit? (cache.memory.lineStart address)).any
    fun way =>
    (cache.lineAt (cache.memory.lineStart address) way).dirty

theorem shadows_of_outdates {cache : Cache} {address : Nat} (h : cache.outdates address = true) :
    cache.shadows address = true := by
  rw [outdates, Option.any_eq_true] at h
  obtain ⟨way, hway, -⟩ := h
  rw [shadows, hway]
  rfl

theorem shadows_of_invalid {cache : Cache} (h : ∀ line way, (cache.lineAt line way).valid = false)
    (address : Nat) :
    cache.shadows address = false := by
  rw [shadows, Option.isSome_eq_false_iff, Option.isNone_iff_eq_none]
  cases hhit :
    (cache.setOf (cache.memory.lineStart address)).hit? (cache.memory.lineStart address) with
  | none => rfl
  | some way => exact absurd (CacheSet.way?_of_hit? hhit).2 (Bool.eq_false_iff.mp (h _ way))

theorem shadows_congr (cache : Cache) {a b : Nat}
    (h : a % cache.memory.capacity = b % cache.memory.capacity) :
    cache.shadows a = cache.shadows b := by
  have hline : cache.memory.lineStart a = cache.memory.lineStart b := by
    rw [← cache.memory.lineStart_wrap a, ← cache.memory.lineStart_wrap b]
    exact congrArg cache.memory.lineStart h
  rw [shadows, shadows, hline]

-- The same lines with another memory behind them.
def backedBy (cache : Cache) (memory : MainMemory) : Cache := { cache with memory := memory }

variable {cache : Cache} {memory : MainMemory}

theorem view_backedBy (hcount : memory.lineCount = cache.memory.lineCount) (address : Nat) :
    (cache.backedBy memory).view address =
      if cache.shadows address then cache.view address else memory.peek address := by
  have hstart : memory.lineStart address = cache.memory.lineStart address :=
    lineStart_congr hcount address
  have hoffset : memory.offset address = cache.memory.offset address := by
    simp only [MainMemory.offset, MainMemory.wrap, MainMemory.capacity, hcount]
  have hpeek : (cache.backedBy memory).peek? address = cache.peek? address := by
    simp only [peek?, backedBy, hstart, hoffset]
    rfl
  rw [view, hpeek, view, shadows, peek?]
  cases (cache.setOf (cache.memory.lineStart address)).hit? (cache.memory.lineStart address) with
  | none => rfl
  | some way => rfl

-- Who looks past a line that was not written to finds the same.
theorem Coherent.view_eq_peek (h : Coherent cache) {address : Nat}
    (hclean : cache.outdates address = false) :
    cache.view address = cache.memory.peek address := by
  rw [view_eq, ← cache.memory.wordsOf_peekWords, MainMemory.wordsOf]
  congr 1
  cases hhit :
    (cache.setOf (cache.memory.lineStart address)).hit? (cache.memory.lineStart address) with
  | none => exact viewLine_of_miss hhit
  | some way =>
      obtain ⟨hway, hvalid⟩ := CacheSet.way?_of_hit? hhit
      rw [outdates, hhit] at hclean
      rw [viewLine_of_hit hhit, h.clean (CacheSet.tag_of_way? hway) hvalid hclean]
      exact cache.memory.peekWords_lineStart address

theorem Coherent.backedBy (h : Coherent cache) (hcount : memory.lineCount = cache.memory.lineCount)
    (hkept : ∀ address, cache.shadows address = true →
      memory.peek address = cache.memory.peek address) :
    Coherent (cache.backedBy memory) where
  ways_pos := h.ways_pos
  length_eq := h.length_eq
  home {address way tag} htag := by
    rw [show (cache.backedBy memory).memory.lineStart tag = _ from lineStart_congr hcount tag]
    exact h.home htag
  unique := h.unique
  tagged := h.tagged
  valid := h.valid
  clean {line way tag} htag hvalid hclean := by
    obtain ⟨haligned, hindex⟩ := h.home htag
    have htag' : (cache.lineAt tag way).tag = some tag :=
      (congrArg CacheLine.tag (cache.lineAt_congr hindex way)).trans htag
    have hvalid' : (cache.lineAt tag way).valid = true :=
      (congrArg CacheLine.valid (cache.lineAt_congr hindex way)).trans hvalid
    have hstart (address : Nat) : memory.lineStart address = cache.memory.lineStart address :=
      lineStart_congr hcount address
    show (cache.lineAt line way).line.words = memory.peekWords tag
    rw [h.clean htag hvalid hclean, cache.memory.peekWords_eq_ofFn,
      memory.peekWords_eq_ofFn, hstart]
    congr 1
    funext i
    refine (hkept _ ?_).symm
    rw [shadows, cache.memory.lineStart_add tag i.isLt, haligned, h.hit?_eq htag' hvalid']
    rfl
  reserved := h.reserved

end PipelinedProcessor.Cache
