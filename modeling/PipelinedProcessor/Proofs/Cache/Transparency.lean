import PipelinedProcessor.Proofs.Cache.Flushing

namespace PipelinedProcessor.Cache

-- What can be asked of a cache, by any issuer and in any order. Whole lines are put in as dirty
-- ones, which memory does not have.
inductive Call where
  | read (address : Nat)
  | readLine (address : Nat)
  | write (address : Nat) (w : Word)
  | store (address : Nat) (w : Word)
  | writePartial (address : Nat) (data : List Word)
  | putLine (address : Nat) (words : Vector Word lineLength)
deriving DecidableEq

inductive Answer where
  | word (w : Word)
  | line (line : Line)
  | count (n : Nat)
  | written
deriving DecidableEq

-- One try of a call. Whether an issuer tries again or turns to something else is up to it.
def Call.poll (call : Call) (issuer : Stage) (cache : Cache) : Poll Answer × Cache :=
  match call with
  | .read address => let (answer, cache) := cache.read issuer address; (answer.map .word, cache)
  | .readLine address =>
      let (answer, cache) := cache.readLine issuer address; (answer.map .line, cache)
  | .write address w =>
    let (answer, cache) := cache.write issuer address w
    (answer.map fun _ => .written, cache)
  | .store address w =>
    let (answer, cache) := cache.store issuer address w
    (answer.map fun _ => .written, cache)
  | .writePartial address data =>
    let (answer, cache) := cache.writePartial issuer address data
    (answer.map .count, cache)
  | .putLine address words =>
    let (answer, cache) := cache.putLine issuer address words true
    (answer.map fun _ => .written, cache)

-- Where the line of an address starts in a memory of this capacity.
def lineOrigin (capacity address : Nat) : Nat :=
  address % capacity - address % capacity % lineLength

-- What a call comes to on plain words, one at every address, without a cache and without waiting.

def Call.reply (capacity : Nat) (view : MemoryView) : Call → Answer
  | .read address => .word (view address)
  | .readLine address => .line {
      start := some (lineOrigin capacity address)
      words := .ofFn fun i => view (lineOrigin capacity address + i) }
  | .write _ _ => .written
  | .store _ _ => .written
  | .writePartial address data => .count (min data.length (lineLength - address % lineLength))
  | .putLine _ _ => .written

def Call.effect (capacity : Nat) (view : MemoryView) : Call → MemoryView
  | .read _ => view
  | .readLine _ => view
  | .write address w => view.put capacity address w
  | .store address w => view.put capacity address w
  | .writePartial address data =>
    view.putAll capacity address (data.take (min data.length (lineLength - address % lineLength)))
  | .putLine address words => view.putAll capacity (lineOrigin capacity address) words.toList

-- A call that waits changes nothing that can be seen. One that is done has the answer and the
-- effect that it has on plain words.
theorem Call.poll_spec {cache after : Cache} (h : Coherent cache) {issuer : Stage} {call : Call}
    {answer : Poll Answer} (hresult : call.poll issuer cache = (answer, after)) :
    (answer = .wait ∧ Presents cache after cache.view) ∨
      answer = .done (call.reply cache.memory.capacity cache.view) ∧
        Presents cache after (call.effect cache.memory.capacity cache.view) := by
  cases call with
  | read address =>
      rcases hread : cache.read issuer address with ⟨found, next⟩
      simp only [poll, hread] at hresult
      obtain ⟨rfl, rfl⟩ := Prod.mk.inj hresult
      obtain ⟨hpresents, hanswer⟩ := read_spec h hread
      cases found with
      | wait => exact .inl ⟨rfl, hpresents⟩
      | done w =>
          rw [hanswer w rfl]
          exact .inr ⟨rfl, hpresents⟩
  | readLine address =>
      rcases hread : cache.readLine issuer address with ⟨found, next⟩
      simp only [poll, hread] at hresult
      obtain ⟨rfl, rfl⟩ := Prod.mk.inj hresult
      obtain ⟨hpresents, hanswer⟩ := readLine_spec h hread
      cases found with
      | wait => exact .inl ⟨rfl, hpresents⟩
      | done line =>
          obtain ⟨hwords, hstart⟩ := hanswer line rfl
          have hline : line = {
              start := some (cache.memory.lineStart address)
              words := .ofFn fun i => cache.view (cache.memory.lineStart address + i) } := by
            rw [← viewLine_eq_ofFn, ← hwords, ← hstart]
          rw [hline]
          exact .inr ⟨rfl, hpresents⟩
  | write address w =>
      rcases hwrite : cache.write issuer address w with ⟨found, next⟩
      simp only [poll, hwrite] at hresult
      obtain ⟨rfl, rfl⟩ := Prod.mk.inj hresult
      rcases write_spec h hwrite with ⟨rfl, hpresents⟩ | ⟨rfl, hpresents⟩
      · exact .inl ⟨rfl, hpresents⟩
      · exact .inr ⟨rfl, hpresents⟩
  | store address w =>
      rcases hstore : cache.store issuer address w with ⟨found, next⟩
      simp only [poll, hstore] at hresult
      obtain ⟨rfl, rfl⟩ := Prod.mk.inj hresult
      rcases store_spec h hstore with ⟨rfl, hpresents⟩ | ⟨rfl, hpresents⟩
      · exact .inl ⟨rfl, hpresents⟩
      · exact .inr ⟨rfl, hpresents⟩
  | writePartial address data =>
      rcases hwrite : cache.writePartial issuer address data with ⟨found, next⟩
      simp only [poll, hwrite] at hresult
      obtain ⟨rfl, rfl⟩ := Prod.mk.inj hresult
      have hspec := writePartial_spec h hwrite
      rw [fitting, MainMemory.offset_val] at hspec
      rcases hspec with ⟨rfl, hpresents⟩ | ⟨rfl, hpresents⟩
      · exact .inl ⟨rfl, hpresents⟩
      · exact .inr ⟨rfl, hpresents⟩
  | putLine address words =>
      rcases hput : cache.putLine issuer address words true with ⟨found, next⟩
      simp only [poll, hput] at hresult
      obtain ⟨rfl, rfl⟩ := Prod.mk.inj hresult
      rcases putLine_spec h hput with ⟨rfl, hpresents⟩ | ⟨rfl, hpresents⟩
      · exact .inl ⟨rfl, hpresents⟩
      · exact .inr ⟨rfl, hpresents⟩

-- What happens to a cache: tries of calls, with saving of all lines and forgetting of all that is
-- under way in between.
inductive Event where
  | poll (issuer : Stage) (call : Call)
  | flush
  | releaseAll
deriving DecidableEq

def Event.perform (cache : Cache) : Event → Cache
  | .poll issuer call => (call.poll issuer cache).2
  | .flush => cache.flush
  | .releaseAll => cache.releaseAll

-- The event on plain words. The cache is asked only whether a call has to wait.
def Event.effect (cache : Cache) (capacity : Nat) (view : MemoryView) : Event → MemoryView
  | .poll issuer call =>
    match (call.poll issuer cache).1 with
    | .wait => view
    | .done _ => call.effect capacity view
  | .flush => view
  | .releaseAll => view

def performAll (cache : Cache) (events : List Event) : Cache := events.foldl Event.perform cache

-- All completed calls in their order, on plain words.
def effectOfAll (capacity : Nat) : List Event → Cache → MemoryView → MemoryView
  | [], _, view => view
  | event :: rest, cache, view =>
    effectOfAll capacity rest (event.perform cache) (event.effect cache capacity view)

theorem Event.perform_spec {cache : Cache} (h : Coherent cache) (event : Event) :
    Presents cache (event.perform cache) (event.effect cache cache.memory.capacity cache.view) := by
  cases event with
  | poll issuer call =>
      simp only [perform, effect]
      rcases hresult : call.poll issuer cache with ⟨answer, after⟩
      rcases Call.poll_spec h hresult with ⟨rfl, hpresents⟩ | ⟨rfl, hpresents⟩
      · exact hpresents
      · exact hpresents
  | flush => exact h.flush_spec.1
  | releaseAll => exact (h.shows.of_same cache.sameLines_releaseAll).presents_view

theorem performAll_spec {cache : Cache} (h : Coherent cache) (events : List Event) :
    Presents cache (cache.performAll events)
      (effectOfAll cache.memory.capacity events cache cache.view) := by
  induction events generalizing cache with
  | nil => exact ⟨h, rfl, rfl⟩
  | cons event rest ih =>
      obtain ⟨hcoherent, hcount, hview⟩ := event.perform_spec h
      obtain ⟨hafter, hcount', hview'⟩ := ih hcoherent
      refine ⟨hafter, hcount'.trans hcount, ?_⟩
      rw [MainMemory.capacity, hcount, hview] at hview'
      exact hview'

-- What an event may be relied on to do, whatever has gone before.
def Event.Transparent (cache : Cache) : Event → Prop
  | .poll issuer call =>
    let (answer, after) := call.poll issuer cache
    match answer with
    | .wait => after.view = cache.view
    | .done reply =>
      reply = call.reply cache.memory.capacity cache.view ∧
        after.view = call.effect cache.memory.capacity cache.view
  | .flush => cache.flush.view = cache.view ∧ cache.flush.memory.peek = cache.view
  | .releaseAll => cache.releaseAll.view = cache.view

theorem Event.transparent_of_coherent {cache : Cache} (h : Coherent cache) (event : Event) :
    event.Transparent cache := by
  cases event with
  | poll issuer call =>
      simp only [Transparent]
      rcases hresult : call.poll issuer cache with ⟨answer, after⟩
      rcases Call.poll_spec h hresult with ⟨rfl, hpresents⟩ | ⟨rfl, hpresents⟩
      · exact hpresents.view_eq
      · exact ⟨rfl, hpresents.view_eq⟩
  | flush => exact ⟨h.flush_spec.1.view_eq, h.flush_spec.2⟩
  | releaseAll => exact (h.shows.of_same cache.sameLines_releaseAll).presents_view.view_eq

-- Starting without lines, a cache is never told from the memory that it stands in front of: what is
-- seen through it are the words of that memory with the completed calls applied in their order, and
-- the next event takes its answer and its effect from them.
theorem view_performAll_of_build {lineCount : Nat} {writeAllocate : Bool} {memory : MainMemory}
    {cache : Cache} (hbuild : Cache.build lineCount writeAllocate memory = .ok cache)
    (events : List Event) :
    (cache.performAll events).memory.capacity = memory.capacity ∧
      (cache.performAll events).view = effectOfAll memory.capacity events cache memory.peek ∧
      ∀ event : Event, event.Transparent (cache.performAll events) := by
  unfold Cache.build at hbuild
  split at hbuild
  · cases hbuild
  · rename_i hcount
    obtain rfl := Except.ok.inj hbuild
    have hways : 0 < lineCount / setCount := by
      simp only [setCount] at hcount ⊢
      omega
    obtain ⟨hcoherent, hlineCount, hview⟩ :=
      performAll_spec (coherent_empty hways writeAllocate memory) events
    rw [view_empty] at hview
    refine ⟨?_, hview, fun event => event.transparent_of_coherent hcoherent⟩
    simp only [MainMemory.capacity, hlineCount]
    rfl

-- Two issuers at a cache of four lines, one of which gives its read up.
theorem view_performAll_of_two_issuers :
    Cache.build 4 true (.zeroed 8 1 (by decide)) = .ok (empty 1 true (.zeroed 8 1 (by decide))) ∧
      ∀ event : Event, event.Transparent ((empty 1 true (.zeroed 8 1 (by decide))).performAll
        [.poll .memory (.store 5 7), .poll .fetch (.read 21),
          .poll .memory (.store 5 7), .releaseAll]) :=
  have hbuild : Cache.build 4 true (.zeroed 8 1 (by decide)) =
      .ok (empty 1 true (.zeroed 8 1 (by decide))) := rfl
  ⟨hbuild, (view_performAll_of_build hbuild _).2.2⟩

end PipelinedProcessor.Cache
