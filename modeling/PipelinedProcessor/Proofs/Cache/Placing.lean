import PipelinedProcessor.Proofs.Architecture.Stores
import PipelinedProcessor.Proofs.Cache.MemoryInvariants
import PipelinedProcessor.Proofs.Pipeline.Attempts

namespace PipelinedProcessor

namespace MainMemory

-- How large a memory is and how long it takes to answer, which are given once and for all.
def shape (memory : MainMemory) : Nat × Nat := (memory.lineCount, memory.delay)

theorem shape_kept (shape : Nat × Nat) : Kept fun memory => memory.shape = shape where
  idle hshape := hshape
  lines _ hshape := hshape
  grant {memory} request hshape := by
    rcases memory.grant_cases request with h | ⟨pending, h⟩
    · rw [h]
      exact hshape
    · rw [h]
      exact hshape

theorem tries_shape (shape : Nat × Nat) :
    KeptByTries fun memory : MainMemory => memory.shape = shape := by
  refine .of_attempt fun memory access issuer h => ?_
  cases access with
  | read address => exact (shape_kept shape).access h issuer address _ fun m => ⟨m.lines, rfl⟩
  | store address w => exact (shape_kept shape).access h issuer address _ fun _ => ⟨_, rfl⟩
  | writePartial address data =>
      exact (shape_kept shape).access h issuer address _ fun _ => ⟨_, rfl⟩

-- How often an access has to wait that nobody is in the way of.
theorem timed_access {α : Type} (issuer : Stage) (address : Nat)
    (serve : MainMemory → α × MainMemory) :
    Poll.Timed (fun memory : MainMemory => memory.access issuer address serve)
      (fun memory => ∀ pending, memory.pending = some pending → pending.request = ⟨issuer, address⟩)
      (fun memory => memory.due ⟨issuer, address⟩) where
  wait {memory after} hmine hwait := by
    rcases access_of_turn issuer address serve hmine with ⟨-, hresult⟩ | ⟨r, hdue, hresult⟩
    · rw [hresult] at hwait
      cases (Prod.mk.inj hwait).1
    · rw [hresult] at hwait
      obtain ⟨-, rfl⟩ := Prod.mk.inj hwait
      refine ⟨fun pending hpending => ?_, ?_⟩
      · rw [← Option.some.inj hpending]
      · rw [due_of_pending rfl, hdue]
  done {memory after value} hmine hdone := by
    rcases access_of_turn issuer address serve hmine with ⟨hdue, -⟩ | ⟨r, -, hresult⟩
    · exact hdue
    · rw [hresult] at hdone
      cases (Prod.mk.inj hdone).1

-- An access that begins is served if it is tried more often than it has to wait, and it is not if
-- it is tried no more often than that.
theorem repeated_access_of_idle {α : Type} {memory : MainMemory} (hidle : memory.pending = none)
    (issuer : Stage) (address : Nat) (serve : MainMemory → α × MainMemory) (tries : Nat) :
    (memory.delay < tries →
      ∃ count, Poll.repeated (fun memory => memory.access issuer address serve) tries memory =
        (some ((serve { memory with pending := none }).1, count),
          (serve { memory with pending := none }).2)) ∧
    (tries ≤ memory.delay →
      ∃ pending, Poll.repeated (fun memory => memory.access issuer address serve) tries memory =
        (none, { memory with pending := pending })) := by
  have hmine : ∀ pending, memory.pending = some pending → pending.request = ⟨issuer, address⟩ :=
    fun pending hpending => nomatch hidle.symm.trans hpending
  have hdue := due_of_idle hidle ⟨issuer, address⟩
  have htimed := timed_access issuer address serve
  rcases hresult : Poll.repeated (fun memory => memory.access issuer address serve) tries
    memory with ⟨answer, after⟩
  have hcases := repeated_access_cases issuer address serve tries memory hresult
  constructor
  · intro hlt
    obtain ⟨value, hserved⟩ := htimed.repeated_of_lt hmine (hdue.symm ▸ hlt)
    rw [hresult] at hserved
    obtain ⟨rfl, -⟩ | ⟨count, rfl, rfl⟩ := hcases
    · cases hserved
    · exact ⟨count, hresult⟩
  · intro hle
    have hnone := htimed.repeated_of_le hmine (hdue.symm ▸ hle)
    rw [hresult] at hnone
    obtain ⟨rfl, pending, rfl⟩ | ⟨count, rfl, -⟩ := hcases
    · exact ⟨pending, hresult⟩
    · cases hnone

end MainMemory

namespace Cache

-- No access through the cache gives it another memory.
theorem tries_shape (shape : Nat × Nat) :
    KeptByTries fun cache : Cache => cache.memory.shape = shape := by
  refine .of_attempt fun cache access issuer h => ?_
  have hkept := MainMemory.shape_kept shape
  cases access with
  | read address =>
      simp only [Access.attempt, Storage.read, read_eq]
      exact kept_readLine hkept h issuer address
  | store address w => exact kept_store hkept h issuer address w
  | writePartial address data => exact kept_writePartial hkept h issuer address data

-- Loading a program word by word.

-- The cache has no good copy of the line of an address.
def Misses (cache : Cache) (address : Nat) : Prop :=
  (cache.setOf (cache.memory.lineStart address)).hit? (cache.memory.lineStart address) = none

theorem Coherent.misses_iff {cache : Cache} (h : Coherent cache) {address : Nat} :
    cache.Misses address ↔ ∀ line way, (cache.lineAt line way).tag =
      some (cache.memory.lineStart address) →
      (cache.lineAt line way).valid = false := by
  constructor
  · intro hmiss line way htag
    have hindex := (h.home htag).2
    rw [← cache.lineAt_congr hindex] at htag ⊢
    exact h.not_valid_of_miss hmiss htag
  · intro hinvalid
    cases hhit :
      (cache.setOf (cache.memory.lineStart address)).hit? (cache.memory.lineStart address) with
    | none => exact hhit
    | some way =>
        obtain ⟨hway, hvalid⟩ := CacheSet.way?_of_hit? hhit
        have hnot := hinvalid (cache.memory.lineStart address) way (CacheSet.tag_of_way? hway)
        rw [lineAt, hvalid] at hnot
        cases hnot

theorem Coherent.not_contains_of_misses {cache : Cache} (h : Coherent cache) {address : Nat}
    (hmiss : cache.Misses address) {line : CacheLine} (hline : line ∈ cache.allLines)
    (hvalid : line.valid = true) :
    line.line.contains (cache.memory.wrap address) = false := by
  obtain ⟨set, way, -, rfl⟩ := mem_allLines.mp hline
  obtain ⟨tag, htag⟩ := h.tagged hvalid
  have hstart : (cache.lineAt set way).line.start = some tag := htag
  have haligned : tag % lineLength = 0 := by
    rw [← (h.home htag).1, MainMemory.lineStart_eq]
    exact Nat.mul_mod_right ..
  refine Bool.eq_false_iff.mpr fun hcontains => ?_
  have hrange : tag ≤ cache.memory.wrap address ∧ cache.memory.wrap address < tag + lineLength := by
    simpa [Line.contains, hstart] using hcontains
  have hsame : cache.memory.lineStart address = tag := by
    simp only [MainMemory.lineStart, lineLength] at haligned hrange ⊢
    omega
  have hinvalid := h.misses_iff.mp hmiss set way (hsame ▸ htag)
  rw [hvalid] at hinvalid
  cases hinvalid

-- Words put into memory, behind a cache that then has no good copy of any of them.
structure Placed (before after : Cache) (log : Log) : Prop where
  presents : Presents before after (MemoryView.putLog before.memory.capacity before.view log)
  released : after.Released
  shape_eq : after.memory.shape = before.memory.shape
  misses : ∀ address, before.Misses address → after.Misses address
  missed : ∀ entry ∈ log, after.Misses entry.1

-- What loading that is given up leaves.
structure Unplaced (before after : Cache) : Prop where
  presents : Presents before after before.view
  shape_eq : after.memory.shape = before.memory.shape

section

variable {cache : Cache} (h : Coherent cache) (hreleased : cache.Released) {tries : Nat}

include h hreleased

-- A word is loaded if memory answers within the tries, and nothing has changed if it does not.
theorem Coherent.placed_loadWord (htries : cache.memory.delay < tries) (address : Nat) (w : Word) :
    ∃ after, Machine.loadWord cache address tries w = (some (), after) ∧
    Placed cache after [(address, w)] := by
  obtain ⟨hshows, -, hmiss⟩ := h.invalidate address hreleased.reservation_eq
  obtain ⟨lines, hmemory⟩ := cache.memory_invalidate address
  have hidle : (cache.invalidate address).memory.pending = none := by
    rw [hmemory]
    exact hreleased.pending_eq
  have hdelay : (cache.invalidate address).memory.delay = cache.memory.delay := by rw [hmemory]
  obtain ⟨count, hwrite⟩ := (MainMemory.repeated_access_of_idle hidle .system address
    (fun memory => ((), memory.put address w)) tries).1 (hdelay ▸ htries)
  rcases hresult : Machine.loadWord cache address tries w with ⟨answer, after⟩
  obtain ⟨hidle', hpresents⟩ := h.loadWord hreleased.reservation_eq hresult
  simp only [Machine.loadWord, onMemory_eq, MainMemory.write, hwrite, Option.map_some] at hresult
  obtain ⟨rfl, rfl⟩ := Prod.mk.inj hresult
  refine ⟨_, rfl, hpresents, ⟨rfl, hidle'⟩, ?_, ?_, ?_⟩
  · show (cache.invalidate address).memory.shape = cache.memory.shape
    rw [hmemory]
    rfl
  · intro other hother
    refine hpresents.coherent.misses_iff.mpr fun line way htag => ?_
    obtain ⟨hsame, hvalid⟩ := cache.lineAt_invalidate address line way
    rw [lineStart_congr hpresents.lineCount_eq] at htag
    exact Bool.eq_false_iff.mpr fun hgood =>
      Bool.eq_false_iff.mp (h.misses_iff.mp hother line way (hsame.symm.trans htag)) (hvalid hgood)
  · intro entry hentry
    obtain rfl := List.mem_singleton.mp hentry
    exact hmiss

theorem Coherent.unplaced_loadWord (htries : tries ≤ cache.memory.delay) (address : Nat)
    (w : Word) :
    ∃ after, Machine.loadWord cache address tries w = (none, after) ∧ Unplaced cache after := by
  obtain ⟨lines, hmemory⟩ := cache.memory_invalidate address
  have hidle : (cache.invalidate address).memory.pending = none := by
    rw [hmemory]
    exact hreleased.pending_eq
  have hdelay : (cache.invalidate address).memory.delay = cache.memory.delay := by rw [hmemory]
  obtain ⟨pending, hwrite⟩ := (MainMemory.repeated_access_of_idle hidle .system address
    (fun memory => ((), memory.put address w)) tries).2 (hdelay ▸ htries)
  rcases hresult : Machine.loadWord cache address tries w with ⟨answer, after⟩
  obtain ⟨-, hpresents⟩ := h.loadWord hreleased.reservation_eq hresult
  simp only [Machine.loadWord, onMemory_eq, MainMemory.write, hwrite, Option.map_none] at hresult
  obtain ⟨rfl, rfl⟩ := Prod.mk.inj hresult
  refine ⟨_, rfl, hpresents, ?_⟩
  show (cache.invalidate address).memory.shape = cache.memory.shape
  rw [hmemory]
  rfl

-- So either every word of a program is loaded or none.
theorem Coherent.placed_loadFrom (htries : cache.memory.delay < tries) (start index : Nat)
    (words : List Word) :
    ∃ after, Machine.loadFrom tries start index words cache = (none, after) ∧
      Placed cache after (Log.loaded (start + index) words) := by
  induction words generalizing cache index with
  | nil =>
      exact ⟨cache, rfl, ⟨h, rfl, rfl⟩, hreleased, rfl, fun _ => id,
        fun entry hentry => nomatch hentry⟩
  | cons w rest ih =>
      obtain ⟨next, hword, hplaced⟩ :=
        h.placed_loadWord hreleased htries ((start + index) % unsignedBound) w
      have hdelay : next.memory.delay = cache.memory.delay := congrArg Prod.snd hplaced.shape_eq
      obtain ⟨after, hrest, hplaced'⟩ :=
        ih hplaced.presents.coherent hplaced.released (hdelay ▸ htries) (index + 1)
      refine ⟨after, by simp only [Machine.loadFrom, hword, hrest], ?_⟩
      have hcount := hplaced.presents.lineCount_eq
      refine ⟨⟨hplaced'.presents.coherent, hplaced'.presents.lineCount_eq.trans hcount, ?_⟩,
        hplaced'.released,
        hplaced'.shape_eq.trans hplaced.shape_eq, fun address hmiss => hplaced'.misses address
          (hplaced.misses address hmiss), fun entry hentry => ?_⟩
      · rw [hplaced'.presents.view_eq, hplaced.presents.view_eq, MainMemory.capacity_congr hcount]
        rfl
      · rcases List.mem_cons.mp hentry with rfl | hrest'
        · exact hplaced'.misses _ (hplaced.missed _ List.mem_cons_self)
        · exact hplaced'.missed entry hrest'

theorem Coherent.unplaced_loadFrom (htries : tries ≤ cache.memory.delay) (start index : Nat)
    (w : Word) (rest : List Word) :
    ∃ after, Machine.loadFrom tries start index (w :: rest) cache =
        (some (.unanswered index ((start + index) % unsignedBound) ⟨tries⟩), after) ∧
        Unplaced cache after := by
  obtain ⟨after, hword, hunplaced⟩ :=
    h.unplaced_loadWord hreleased htries ((start + index) % unsignedBound) w
  exact ⟨after, by simp only [Machine.loadFrom, hword], hunplaced⟩

end

end Cache

end PipelinedProcessor
