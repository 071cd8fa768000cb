import PipelinedProcessor.Proofs.Memory.LineStore
import PipelinedProcessor.Proofs.Pipeline.Attempts
import PipelinedProcessor.Proofs.Pipeline.Transfer

namespace PipelinedProcessor

-- The accesses to main memory whose lines decide whether an access is one to them.

namespace LineStore

def access {α : Type} (store : LineStore) (issuer : Stage) (address : Nat)
    (serve : LineStore → α × LineStore) :
    Poll α × LineStore :=
  match store.grant ⟨issuer, address⟩ with
  | (false, memory) => (.wait, store.withPending memory.pending)
  | (true, memory) =>
    let (value, store) := serve (store.withPending memory.pending)
    (.done value, store)

def read (store : LineStore) (issuer : Stage) (address : Nat) : Poll Word × LineStore :=
  store.access issuer address fun store =>
    (((store.line address).get? (store.wrap address)).getD 0, store)

def readLine (store : LineStore) (issuer : Stage) (address : Nat) : Poll Line × LineStore :=
  store.access issuer address fun store => (store.line address, store)

def writeWord (store : LineStore) (issuer : Stage) (address : Nat) (w : Word) :
    Poll Unit × LineStore :=
  store.access issuer address fun store => ((), store.write address w)

def writeLine (store : LineStore) (issuer : Stage) (address : Nat)
    (words : Vector Word lineLength) :
    Poll Unit × LineStore :=
  store.access issuer address fun store =>
    ((), store.setLine address { start := some (store.lineStart address), words := words })

def writePartial (store : LineStore) (issuer : Stage) (address : Nat) (data : List Word) :
    Poll Nat × LineStore :=
  store.access issuer address fun store =>
    match (store.line address).writePartial (store.wrap address) data with
    | .ok (line, count) => (count, store.setLine address line)
    | .error error => (0, store.refuse error)

def releaseOthers (store : LineStore) (request : Request) : LineStore :=
  store.withPending (store.toMainMemory.releaseOthers request).pending

instance : Storage LineStore where
  read := read
  store := writeWord
  writePartial := writePartial

variable (memory : MainMemory) (issuer : Stage) (address : Nat)

theorem access_of {α : Type} {serve : LineStore → α × LineStore}
    {serve' : MainMemory → α × MainMemory}
    (hserve : ∀ memory, serve (of memory) = ((serve' memory).1, of (serve' memory).2)) :
    (of memory).access issuer address serve =
      ((memory.access issuer address serve').1, of (memory.access issuer address serve').2) := by
  have hgrant : (of memory).grant ⟨issuer, address⟩ = memory.grant ⟨issuer, address⟩ := rfl
  rw [access, hgrant, MainMemory.access]
  rcases memory.grant_cases ⟨issuer, address⟩ with h | ⟨pending, h⟩
  · rw [h]
    exact congrArg (fun served : α × LineStore => (Poll.done served.1, served.2))
      (hserve { memory with pending := none })
  · rw [h]
    rfl

theorem read_of : (of memory).read issuer address =
    ((memory.read issuer address).1, of (memory.read issuer address).2) :=
  access_of memory issuer address fun memory => by
    have hget := memory.peekLine_get? address
    have hwrap : (of memory).wrap address = memory.wrap address := rfl
    rw [line_of, hwrap, hget, Option.getD_some]

theorem readLine_of : (of memory).readLine issuer address =
    ((memory.readLine issuer address).1, of (memory.readLine issuer address).2) :=
  access_of memory issuer address fun memory => by rw [line_of]

theorem writeWord_of (w : Word) : (of memory).writeWord issuer address w =
    ((memory.write issuer address w).1, of (memory.write issuer address w).2) :=
  access_of memory issuer address fun memory => by rw [write_of]

theorem writeLine_of (words : Vector Word lineLength) : (of memory).writeLine issuer address words =
    ((memory.writeLine issuer address words).1, of (memory.writeLine issuer address words).2) :=
  access_of memory issuer address fun memory => by
    have hstart : (of memory).lineStart address = memory.lineStart address := rfl
    rw [hstart, setLine_of]

theorem writePartial_of (data : List Word) : (of memory).writePartial issuer address data =
    ((memory.writePartial issuer address data).1, of (memory.writePartial issuer address data).2) :=
  access_of memory issuer address fun memory => by
    have hwrite := memory.peekLine_writePartial address data
    have hwrap : (of memory).wrap address = memory.wrap address := rfl
    rw [line_of, hwrap, hwrite]
    exact congrArg (Prod.mk _) (setLine_of memory address _)

theorem releaseOthers_of (request : Request) :
    (of memory).releaseOthers request = of (memory.releaseOthers request) := by
  obtain ⟨pending, hrelease⟩ := memory.releaseOthers_eq request
  have hsame : (of memory).toMainMemory.releaseOthers request = memory.releaseOthers request := rfl
  rw [releaseOthers, hsame, hrelease]
  rfl

end LineStore

-- A cache whose lines decide in the same way, in front of such a memory.
structure LineCache extends Cache where
  starts : Nat → Option Nat
  refused : List OutsideLine := []

namespace LineCache

open Cache (Holds)

-- All lines of main memory in their own places.
def of (cache : Cache) : LineCache where
  toCache := cache
  starts i := if i < cache.memory.lineCount then some (lineLength * i) else none

def behind (c : LineCache) : LineStore :=
  { c.memory with starts := .ofFn fun i => c.starts i, refused := c.refused }

def onBehind {α : Type} (c : LineCache) (f : LineStore → α × LineStore) : α × LineCache :=
  let (value, store) := f c.behind
  (value, { c with
    memory := store.toMainMemory
    starts := fun i => store.starts[i]?.join
    refused := store.refused })

-- What concerns the places in the cache alone.
def inFront (c : LineCache) (f : Cache → Cache) : LineCache := { c with toCache := f c.toCache }

def refuse (c : LineCache) (error : OutsideLine) : LineCache :=
  { c with refused := c.refused ++ [error] }

def writeBack (c : LineCache) (issuer : Stage) (tag way : Nat) : Poll Unit × LineCache :=
  let line := c.lineAt tag way
  match line.owed? with
  | none => (.done (), c)
  | some old =>
    match c.onBehind fun store => (store.releaseOthers ⟨issuer, old⟩).writeLine issuer
      old line.line.words with
    | (.wait, c) => (.wait, c)
    | (.done _, c) =>
      (.done (), c.inFront fun cache =>
        (cache.modifySet tag fun set => set.modify way fun line =>
          { line with dirty := false }).countWriteBack)

def fill (c : LineCache) (issuer : Stage) (tag : Nat) : Poll Nat × LineCache :=
  let way := (c.reserve issuer tag).1
  match (c.inFront fun cache => (cache.reserve issuer tag).2).writeBack issuer tag way with
  | (.wait, c) => (.wait, c)
  | (.done _, c) =>
    match c.onBehind fun store => (store.releaseOthers ⟨issuer, tag⟩).readLine issuer tag with
    | (.wait, c) => (.wait, c)
    | (.done line, c) =>
      (.done way, c.inFront fun cache =>
        (cache.modifySet tag fun set => set.install way line false).countMiss.finish issuer)

def resolve (c : LineCache) (issuer : Stage) (tag : Nat) : Poll Nat × LineCache :=
  match (c.setOf tag).hit? tag with
  | some way =>
    (.done way, c.inFront fun cache =>
      (cache.modifySet tag fun set => set.touch way).countHit.finish issuer)
  | none => c.fill issuer tag

-- What the line of a way makes of a write. A write that it refuses changes no word and counts none.
def writeLine (c : LineCache) (tag way address : Nat) (data : List Word) :
    Nat × Vector Word lineLength × LineCache :=
  let line := (c.lineAt tag way).line
  match line.writePartial address data with
  | .ok (line, count) => (count, line.words, c)
  | .error error => (0, line.words, c.refuse error)

def writePresent (c : LineCache) (issuer : Stage) (tag way address : Nat) (data : List Word) :
    Poll Nat × LineCache :=
  match c.writeBack issuer tag way with
  | (.wait, c) => (.wait, c)
  | (.done _, c) =>
    let (count, words, c) := c.writeLine tag way address data
    (.done count, c.inFront fun cache =>
      (cache.modifySet tag fun set => set.overwrite way words).finish issuer)

def read (c : LineCache) (issuer : Stage) (address : Nat) : Poll Word × LineCache :=
  let address := c.memory.wrap address
  let tag := c.memory.lineStart address
  match c.resolve issuer tag with
  | (.wait, c) => (.wait, c)
  | (.done way, c) => (.done (((c.lineAt tag way).line.get? address).getD 0), c)

def writePartial (c : LineCache) (issuer : Stage) (address : Nat) (data : List Word) :
    Poll Nat × LineCache :=
  let address := c.memory.wrap address
  let tag := c.memory.lineStart address
  match (c.setOf tag).hit? tag with
  | some way =>
    match c.writePresent issuer tag way address data with
    | (.wait, c) => (.wait, c)
    | (.done count, c) => (.done count, c.inFront Cache.countHit)
  | none =>
    c.onBehind fun store => (store.releaseOthers ⟨issuer, address⟩).writePartial issuer address data

def write (c : LineCache) (issuer : Stage) (address : Nat) (w : Word) : Poll Unit × LineCache :=
  let address := c.memory.wrap address
  let tag := c.memory.lineStart address
  match (c.setOf tag).hit? tag with
  | some way =>
    match c.writePresent issuer tag way address [w] with
    | (.wait, c) => (.wait, c)
    | (.done _, c) => (.done (), c.inFront Cache.countHit)
  | none =>
    c.onBehind fun store => (store.releaseOthers ⟨issuer, address⟩).writeWord issuer address w

def store (c : LineCache) (issuer : Stage) (address : Nat) (w : Word) : Poll Unit × LineCache :=
  if c.writeAllocate then
    let address := c.memory.wrap address
    let tag := c.memory.lineStart address
    let place : Poll Nat × LineCache := match (c.setOf tag).hit? tag with
      | some way => (.done way, c)
      | none => c.fill issuer tag
    match place with
    | (.wait, c) => (.wait, c)
    | (.done way, c) =>
      match c.writePresent issuer tag way address [w] with
      | (.wait, c) => (.wait, c)
      | (.done _, c) => (.done (), c)
  else c.write issuer address w

instance : Storage LineCache where
  read := read
  store := store
  writePartial := writePartial

end LineCache

namespace LineCache

open Cache

theorem behind_of (cache : Cache) : (of cache).behind = LineStore.of cache.memory := by
  have hstarts : (Vector.ofFn fun i : Fin cache.memory.lineCount => (of cache).starts i) =
      .ofFn fun i => some (lineLength * i) := by
    congr 1
    funext i
    exact if_pos i.isLt
  rw [behind, LineStore.of]
  exact congrArg (fun starts => ({ cache.memory with starts := starts } : LineStore)) hstarts

theorem inFront_of {cache : Cache} {f : Cache → Cache}
    (hcount : (f cache).memory.lineCount = cache.memory.lineCount) :
    (of cache).inFront f = of (f cache) := by
  rw [inFront, of, of, hcount]

theorem starts_of (memory : MainMemory) : (fun i => (LineStore.of memory).starts[i]?.join) =
    fun i => if i < memory.lineCount then some (lineLength * i) else none := by
  funext i
  show (Vector.ofFn fun j : Fin memory.lineCount => some (lineLength * j.val))[i]?.join = _
  by_cases hi : i < memory.lineCount
  · rw [if_pos hi, Vector.getElem?_eq_getElem hi, Vector.getElem_ofFn]
    rfl
  · rw [if_neg hi, Vector.getElem?_eq_none (Nat.le_of_not_lt hi)]
    rfl

theorem onBehind_of {α : Type} {cache : Cache} {f : LineStore → α × LineStore}
    {g : MainMemory → α × MainMemory}
    (h : f (.of cache.memory) = ((g cache.memory).1, .of (g cache.memory).2)) :
    (of cache).onBehind f = ((cache.onMemory g).1, of (cache.onMemory g).2) := by
  rw [onBehind, behind_of, h, onMemory_eq]
  simp only [of, starts_of]
  rfl

variable {cache : Cache} {issuer : Stage} {tag way address : Nat}

theorem writeBack_of : (of cache).writeBack issuer tag way =
    ((cache.writeBack issuer tag way).1, of (cache.writeBack issuer tag way).2) := by
  have hline : (of cache).lineAt tag way = cache.lineAt tag way := rfl
  rw [writeBack, hline, Cache.writeBack]
  cases howed : (cache.lineAt tag way).owed? with
  | none => rfl
  | some old =>
      have hbehind : ((of cache).onBehind fun store =>
          (store.releaseOthers ⟨issuer, old⟩).writeLine issuer old
            (cache.lineAt tag way).line.words) = _ :=
        onBehind_of (g := fun memory =>
          (memory.releaseOthers ⟨issuer, old⟩).writeLine issuer old
            (cache.lineAt tag way).line.words)
          (by rw [LineStore.releaseOthers_of, LineStore.writeLine_of])
      simp only [hbehind]
      rcases cache.onMemory _ with ⟨answer, written⟩
      cases answer with
      | wait => rfl
      | done _ => exact congrArg (Prod.mk _) (inFront_of rfl)

theorem fill_of :
    (of cache).fill issuer tag = ((cache.fill issuer tag).1, of (cache.fill issuer tag).2) := by
  obtain ⟨way, hreserve, -⟩ := cache.reserve_eq issuer tag
  have hsame : (of cache).reserve issuer tag = cache.reserve issuer tag := rfl
  have hfront : ((of cache).inFront fun cache => (cache.reserve issuer tag).2) =
      of (cache.setReservation issuer (some ⟨tag, way⟩)) := by
    rw [inFront_of (by rw [hreserve]; rfl), hreserve]
  rw [fill, hfront, hsame, hreserve, writeBack_of, Cache.fill, hreserve]
  generalize cache.setReservation issuer (some ⟨tag, way⟩) = reserved
  simp only
  rcases reserved.writeBack issuer tag way with ⟨answer, written⟩
  cases answer with
  | wait => rfl
  | done _ =>
      have hbehind : ((of written).onBehind fun store =>
          (store.releaseOthers ⟨issuer, tag⟩).readLine issuer tag) = _ :=
        onBehind_of (g := fun memory => (memory.releaseOthers ⟨issuer, tag⟩).readLine issuer tag)
          (by rw [LineStore.releaseOthers_of, LineStore.readLine_of])
      simp only [hbehind]
      rcases written.onMemory _ with ⟨answer, arrived⟩
      cases answer with
      | wait => rfl
      | done line => exact congrArg (Prod.mk _) (inFront_of (lineCount_finish _ issuer))

theorem resolve_of : (of cache).resolve issuer tag =
    ((cache.resolve issuer tag).1, of (cache.resolve issuer tag).2) := by
  have hsame : (of cache).setOf tag = cache.setOf tag := rfl
  rw [resolve, hsame, Cache.resolve]
  cases (cache.setOf tag).hit? tag with
  | some way => exact congrArg (Prod.mk _) (inFront_of (lineCount_finish _ issuer))
  | none => exact fill_of

-- A write to a line that is present. The line is the one that the address belongs to, and takes it.
theorem writePresent_of {memory : MainMemory} {data : List Word}
    (htag : (cache.lineAt (memory.lineStart address) way).tag = some (memory.lineStart address)) :
    (of cache).writePresent issuer (memory.lineStart address) way (memory.wrap address) data =
      ((cache.writePresent issuer (memory.lineStart address) way (memory.offset address) data).1,
        of (cache.writePresent issuer (memory.lineStart address) way
          (memory.offset address) data).2) := by
  rw [writePresent, writeBack_of, Cache.writePresent]
  rcases hwrite : cache.writeBack issuer (memory.lineStart address) way with ⟨answer, written⟩
  obtain ⟨hsame, -⟩ := sameMarks_writeBack hwrite
  cases answer with
  | wait => rfl
  | done _ =>
      have hstart : (written.lineAt (memory.lineStart address) way).line.start =
          some (memory.lineStart address) :=
        (congrArg Mark.tag (hsame.mark_eq _ way)).trans htag
      have hline : (of written).lineAt (memory.lineStart address) way =
          written.lineAt (memory.lineStart address) way := rfl
      simp only [writeLine, hline, MainMemory.writePartial_of_start hstart data]
      exact congrArg (Prod.mk _) (inFront_of (lineCount_finish _ issuer))

-- Where a line is after it was brought in.
theorem holds_of_bringIn {found : Poll Nat} {placed : Cache} (h : Sized cache)
    (haligned : cache.memory.lineStart tag = tag)
    (hplace : cache.bringIn issuer tag = (found, placed)) :
    ∀ way, found = .done way → Holds placed tag way := by
  rintro way rfl
  unfold bringIn at hplace
  split at hplace
  · rename_i way' hhit
    obtain ⟨hway, rfl⟩ := Prod.mk.inj hplace
    obtain rfl := Poll.done.inj hway
    exact holds_of_hit? hhit
  · rcases fill_uses h haligned hplace with ⟨hwait, -⟩ | ⟨hway, huses, -⟩
    · cases hwait
    · obtain rfl := Poll.done.inj hway
      exact huses.holds

theorem holds_of_resolve {after : Cache} (h : Sized cache)
    (haligned : cache.memory.lineStart tag = tag)
    (hresolve : cache.resolve issuer tag = (.done way, after)) : Holds after tag way := by
  unfold Cache.resolve at hresolve
  split at hresolve
  · rename_i way' hhit
    obtain ⟨hway, rfl⟩ := Prod.mk.inj hresolve
    obtain rfl := Poll.done.inj hway
    obtain ⟨htag, hvalid⟩ := holds_of_hit? hhit
    have hline :
        ((cache.modifySet tag fun set => set.touch way').countHit.finish issuer).lineAt tag way' =
        ((cache.setOf tag).touch way').lineAt way' := by
      have htouched := cache.lineAt_modifySet tag tag way' fun set => set.touch way'
      rw [if_pos rfl] at htouched
      exact htouched
    rw [Holds, hline, CacheLine.tag, CacheSet.line_touch, CacheSet.valid_touch]
    exact ⟨htag, hvalid⟩
  · rename_i hmiss
    have hplace : cache.bringIn issuer tag = (.done way, after) := by
      rw [bringIn, hmiss]
      exact hresolve
    exact holds_of_bringIn h haligned hplace way rfl

theorem read_of (h : Sized cache) : (of cache).read issuer address =
    ((cache.read issuer address).1, of (cache.read issuer address).2) := by
  have hwrap : (of cache).memory.wrap address = cache.memory.wrap address := rfl
  have hstart : (of cache).memory.lineStart (cache.memory.wrap address) =
      cache.memory.lineStart address :=
    cache.memory.lineStart_wrap address
  simp only [read, hwrap, hstart, resolve_of, Cache.read]
  rcases hresolve : cache.resolve issuer (cache.memory.lineStart address) with ⟨answer, resolved⟩
  cases answer with
  | wait => rfl
  | done way =>
      have hholds : Holds resolved (cache.memory.lineStart address) way :=
        holds_of_resolve h (cache.memory.lineStart_lineStart address) hresolve
      have hline : (of resolved).lineAt (cache.memory.lineStart address) way =
          resolved.lineAt (cache.memory.lineStart address) way := rfl
      simp only [hline, MainMemory.get?_of_start hholds.1, Option.getD_some]
      rfl

theorem writePartial_of {data : List Word} : (of cache).writePartial issuer address data =
    ((cache.writePartial issuer address data).1,
      of (cache.writePartial issuer address data).2) := by
  have hwrap : (of cache).memory.wrap address = cache.memory.wrap address := rfl
  have hstart : (of cache).memory.lineStart (cache.memory.wrap address) =
      cache.memory.lineStart address :=
    cache.memory.lineStart_wrap address
  have hset (tag : Nat) : (of cache).setOf tag = cache.setOf tag := rfl
  simp only [writePartial, hwrap, hstart, hset, Cache.writePartial]
  cases hhit :
    (cache.setOf (cache.memory.lineStart address)).hit? (cache.memory.lineStart address) with
  | some way =>
      simp only [writePresent_of (holds_of_hit? hhit).1]
      rcases cache.writePresent issuer _ way _ data with ⟨answer, written⟩
      cases answer with
      | wait => rfl
      | done count => exact congrArg (Prod.mk _) (inFront_of rfl)
  | none =>
      exact onBehind_of (g := fun memory =>
        (memory.releaseOthers ⟨issuer, cache.memory.wrap address⟩).writePartial issuer
          (cache.memory.wrap address) data)
        (by rw [LineStore.releaseOthers_of, LineStore.writePartial_of])

theorem writeWord_eq (memory : MainMemory) (w : Word) : memory.write issuer address w =
    ((memory.writePartial issuer address [w]).1.map fun _ => (),
      (memory.writePartial issuer address [w]).2) := by
  rw [MainMemory.writePartial, memory.access_map fun _ => ()]
  simp only [patch_singleton]
  rfl

theorem write_of {w : Word} : (of cache).write issuer address w =
    ((cache.write issuer address w).1, of (cache.write issuer address w).2) := by
  have hwrap : (of cache).memory.wrap address = cache.memory.wrap address := rfl
  have hstart : (of cache).memory.lineStart (cache.memory.wrap address) =
      cache.memory.lineStart address :=
    cache.memory.lineStart_wrap address
  have hset (tag : Nat) : (of cache).setOf tag = cache.setOf tag := rfl
  simp only [write, hwrap, hstart, hset, Cache.write, Cache.writePartial]
  cases hhit :
    (cache.setOf (cache.memory.lineStart address)).hit? (cache.memory.lineStart address) with
  | some way =>
      simp only [writePresent_of (holds_of_hit? hhit).1]
      rcases cache.writePresent issuer _ way _ [w] with ⟨answer, written⟩
      cases answer with
      | wait => rfl
      | done count => exact congrArg (Prod.mk _) (inFront_of rfl)
  | none =>
      have hbehind : ((of cache).onBehind fun store =>
          (store.releaseOthers ⟨issuer, cache.memory.wrap address⟩).writeWord issuer
            (cache.memory.wrap address) w) =
          _ := onBehind_of (g := fun memory =>
            (memory.releaseOthers ⟨issuer, cache.memory.wrap address⟩).write issuer
              (cache.memory.wrap address) w)
            (by rw [LineStore.releaseOthers_of, LineStore.writeWord_of])
      simp only [hbehind, onMemory_eq, writeWord_eq]

theorem store_of (h : Sized cache) {w : Word} : (of cache).store issuer address w =
    ((cache.store issuer address w).1, of (cache.store issuer address w).2) := by
  have hwrap : (of cache).memory.wrap address = cache.memory.wrap address := rfl
  have hstart : (of cache).memory.lineStart (cache.memory.wrap address) =
      cache.memory.lineStart address :=
    cache.memory.lineStart_wrap address
  have hset (tag : Nat) : (of cache).setOf tag = cache.setOf tag := rfl
  have hallocate : (of cache).writeAllocate = cache.writeAllocate := rfl
  have hplace (tag : Nat) : (match (cache.setOf tag).hit? tag with
      | some way => (Poll.done way, of cache)
      | none => (of cache).fill issuer tag) =
      ((cache.bringIn issuer tag).1, of (cache.bringIn issuer tag).2) := by
    rw [bringIn]
    cases (cache.setOf tag).hit? tag with
    | some way => rfl
    | none => exact fill_of
  rw [store_eq, store, hallocate]
  by_cases hwrites : cache.writeAllocate = true
  · rw [if_pos hwrites, if_pos hwrites]
    simp only [hwrap, hstart, hset, hplace]
    rcases hfound : cache.bringIn issuer (cache.memory.lineStart address) with ⟨found, placed⟩
    have hholds := holds_of_bringIn h (cache.memory.lineStart_lineStart address) hfound
    cases found with
    | wait => rfl
    | done way =>
        simp only [writePresent_of (hholds way rfl).1]
        rcases placed.writePresent issuer _ way _ [w] with ⟨answer, written⟩
        cases answer <;> rfl
  · rw [if_neg hwrites, if_neg hwrites]
    exact write_of

end LineCache

-- Memory that refuses what is not its own may stand for memory that does not ask.

theorem LineStore.standsFor_of : Storage.StandsFor of where
  read := read_of
  store := writeWord_of
  writePartial := writePartial_of

namespace Cache

theorem Sized.attempt {cache : Cache} (h : Sized cache) (access : Access) (issuer : Stage) :
    Sized (access.attempt cache issuer).2 := by
  cases access with
  | read address => exact (Call.poll_moved h issuer (.read address)).sized h
  | store address w => exact (Call.poll_moved h issuer (.store address w)).sized h
  | writePartial address data =>
      exact (Call.poll_moved h issuer (.writePartial address data)).sized h

theorem tries_sized : KeptByTries Sized :=
  .of_attempt fun _ access issuer h => h.attempt access issuer

-- A cache with all its ways.
abbrev WithWays : Type := { cache : Cache // Sized cache }

instance : Storage WithWays where
  read s issuer address :=
    ((s.val.read issuer address).1,
      ⟨(s.val.read issuer address).2, s.property.attempt (.read address) issuer⟩)
  store s issuer address w :=
    ((s.val.store issuer address w).1,
      ⟨(s.val.store issuer address w).2, s.property.attempt (.store address w) issuer⟩)
  writePartial s issuer address data :=
    ((s.val.writePartial issuer address data).1,
      ⟨(s.val.writePartial issuer address data).2,
        s.property.attempt (.writePartial address data) issuer⟩)

theorem standsFor_val : Storage.StandsFor (Subtype.val : WithWays → Cache) where
  read _ _ _ := rfl
  store _ _ _ _ := rfl
  writePartial _ _ _ _ := rfl

theorem standsFor_lines : Storage.StandsFor fun s : WithWays => LineCache.of s.val where
  read s _ _ := LineCache.read_of s.property
  store s _ _ _ := LineCache.store_of s.property
  writePartial _ _ _ _ := LineCache.writePartial_of

theorem step_on_lines (p : Pipeline) {context : Context Cache} (h : Sized context.memory) :
    p.step (context.on LineCache.of) =
      ((p.step context).1, (p.step context).2.1, (p.step context).2.2.on LineCache.of) := by
  let within : Context WithWays := ⟨context.registers, context.vectors, ⟨context.memory, h⟩⟩
  have hplain : p.step context = _ := p.step_on standsFor_val within
  have hlines : p.step (context.on LineCache.of) = _ := p.step_on standsFor_lines within
  rw [hplain, hlines]
  rfl

end Cache

end PipelinedProcessor
