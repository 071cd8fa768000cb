import PipelinedProcessor.Cache.Set
import PipelinedProcessor.Memory.MainMemory

namespace PipelinedProcessor

-- The way that an issuer has chosen for a line, kept until the line has arrived.
structure Reservation where
  tag : Nat
  way : Nat
deriving DecidableEq

structure CacheStats where
  hits : Nat := 0
  misses : Nat := 0
  writeBacks : Nat := 0
deriving DecidableEq

-- Lines of main memory, kept in four sets by their address. Written lines go back to memory only
-- when their place is needed. With `writeAllocate` a store brings a missing line in first.
structure Cache where
  ways : Nat
  writeAllocate : Bool
  sets : Vector CacheSet 4
  reservations : Vector (Option Reservation) 6 := .replicate 6 none
  stats : CacheStats := {}
  memory : MainMemory

namespace Cache

def setCount : Nat := 4

-- Sixteen addresses in a row, four lines, go to the same set.
def setIndex (address : Nat) : Fin 4 := ⟨address / 16 % 4, Nat.mod_lt _ (by decide)⟩

def empty (ways : Nat) (writeAllocate : Bool) (memory : MainMemory) : Cache where
  ways := ways
  writeAllocate := writeAllocate
  sets := .replicate 4 (.replicate ways .empty)
  memory := memory

def build (lineCount : Nat) (writeAllocate : Bool) (memory : MainMemory) :
    Except BuildError Cache :=
  if lineCount = 0 ∨ lineCount % setCount ≠ 0 then .error (.cacheLines lineCount)
  else .ok (empty (lineCount / setCount) writeAllocate memory)

def lineCount (cache : Cache) : Nat := setCount * cache.ways

def setOf (cache : Cache) (address : Nat) : CacheSet := cache.sets[setIndex address]

def lineAt (cache : Cache) (tag way : Nat) : CacheLine := (cache.setOf tag).lineAt way

def modifySet (cache : Cache) (address : Nat) (f : CacheSet → CacheSet) : Cache :=
  { cache with sets := cache.sets.set (setIndex address) (f (cache.setOf address)) }

-- All lines, the ways of the first set before those of the second.
def allLines (cache : Cache) : List CacheLine := cache.sets.toList.flatten

def line? (cache : Cache) (index : Nat) : Option CacheLine := cache.allLines[index]?

-- The memory behind the cache is taken out while it works, and put back in the same step.
def onMemory {α : Type} (cache : Cache) (f : MainMemory → α × MainMemory) : α × Cache :=
  match cache with
  | ⟨ways, writeAllocate, sets, reservations, stats, memory⟩ =>
    let (value, memory) := f memory
    (value, ⟨ways, writeAllocate, sets, reservations, stats, memory⟩)

def changeMemory (cache : Cache) (f : MainMemory → MainMemory) : Cache :=
  (cache.onMemory fun memory => ((), f memory)).2

theorem onMemory_eq {α : Type} (cache : Cache) (f : MainMemory → α × MainMemory) :
    cache.onMemory f = ((f cache.memory).1, { cache with memory := (f cache.memory).2 }) := rfl

theorem changeMemory_eq (cache : Cache) (f : MainMemory → MainMemory) :
    cache.changeMemory f = { cache with memory := f cache.memory } := rfl

def reservation (cache : Cache) (issuer : Stage) : Option Reservation :=
  cache.reservations[issuer.order]

def setReservation (cache : Cache) (issuer : Stage) (reservation : Option Reservation) : Cache :=
  { cache with reservations := cache.reservations.set issuer.order reservation }

-- Whether another issuer is waiting for a line to arrive in this way of the set.
def heldByOther (cache : Cache) (issuer : Stage) (tag way : Nat) : Bool :=
  Stage.all.any fun other => other ≠ issuer && (cache.reservation other).any fun held =>
    setIndex held.tag = setIndex tag && held.way = way

def countHit (cache : Cache) : Cache := { cache with stats.hits := cache.stats.hits + 1 }

def countMiss (cache : Cache) : Cache := { cache with stats.misses := cache.stats.misses + 1 }

def countWriteBack (cache : Cache) : Cache :=
  { cache with stats.writeBacks := cache.stats.writeBacks + 1 }

-- The word of a good line, without any trace of the look.
def peek? (cache : Cache) (address : Nat) : Option Word :=
  let tag := cache.memory.lineStart address
  ((cache.setOf tag).hit? tag).map fun way =>
    (cache.lineAt tag way).word (cache.memory.offset address)

-- The word that an address stands for: what the cache has, or else what memory has.
def view (cache : Cache) (address : Nat) : Word :=
  (cache.peek? address).getD (cache.memory.peek address)

def placedText (ways : Nat) (entry : CacheLine × Nat) : String :=
  "[set " ++ (entry.2 / ways).repr ++ " way " ++ (entry.2 % ways).repr ++
    "] " ++ entry.1.text ++ "\n"

def text (cache : Cache) : String :=
  "Sets: " ++ setCount.repr ++ ", Ways: " ++ cache.ways.repr ++ ", Write allocate: " ++
    (if cache.writeAllocate then "true" else "false") ++
    "\nHits: " ++ cache.stats.hits.repr ++ ", Misses: " ++ cache.stats.misses.repr ++
    ", Writebacks: " ++ cache.stats.writeBacks.repr ++ "\n" ++
    String.join (cache.allLines.zipIdx.map (placedText cache.ways))

end Cache

end PipelinedProcessor
