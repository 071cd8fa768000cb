import PipelinedProcessor.Cache.Basic

namespace PipelinedProcessor.Cache

-- Chooses the way for a line and keeps the choice, so that all tries of an access agree on it.
def reserve (cache : Cache) (issuer : Stage) (tag : Nat) : Nat × Cache :=
  match cache.reservation issuer with
  | some held => if held.tag = tag then (held.way, cache) else choose
  | none => choose
where
  choose : Nat × Cache :=
    let way := (cache.setOf tag).victim tag fun way => !cache.heldByOther issuer tag way
    (way, cache.setReservation issuer (some ⟨tag, way⟩))

-- An access that is done leaves nothing of its issuer behind.
def finish (cache : Cache) (issuer : Stage) : Cache :=
  (cache.setReservation issuer none).changeMemory (·.release issuer)

-- Writes the line of a way back to memory if memory does not have it yet.
def writeBack (cache : Cache) (issuer : Stage) (tag way : Nat) : Poll Unit × Cache :=
  let line := cache.lineAt tag way
  match line.owed? with
  | none => (.done (), cache)
  | some old =>
    match cache.onMemory fun memory =>
        (memory.releaseOthers ⟨issuer, old⟩).writeLine issuer old line.line.words with
    | (.wait, cache) => (.wait, cache)
    | (.done _, cache) =>
      let cleaned := cache.modifySet tag fun set =>
        set.modify way fun line => { line with dirty := false }
      (.done (), cleaned.countWriteBack)

-- Brings a line in from memory, in the place of another that is written back before.
def fill (cache : Cache) (issuer : Stage) (tag : Nat) : Poll Nat × Cache :=
  let (way, cache) := cache.reserve issuer tag
  match cache.writeBack issuer tag way with
  | (.wait, cache) => (.wait, cache)
  | (.done _, cache) =>
    match cache.onMemory fun memory => (memory.releaseOthers ⟨issuer, tag⟩).readLine issuer tag with
    | (.wait, cache) => (.wait, cache)
    | (.done line, cache) =>
      let filled := cache.modifySet tag fun set => set.install way line false
      (.done way, filled.countMiss.finish issuer)

-- The way of a line, which is brought in if it is missing.
def resolve (cache : Cache) (issuer : Stage) (tag : Nat) : Poll Nat × Cache :=
  match (cache.setOf tag).hit? tag with
  | some way =>
    let touched := cache.modifySet tag fun set => set.touch way
    (.done way, touched.countHit.finish issuer)
  | none => cache.fill issuer tag

-- Changes words of a line that is present. Words changed before are written back first.
def writePresent (cache : Cache) (issuer : Stage) (tag way offset : Nat)
    (data : List Word) : Poll Nat × Cache :=
  match cache.writeBack issuer tag way with
  | (.wait, cache) => (.wait, cache)
  | (.done _, cache) =>
    let words := patch (cache.lineAt tag way).line.words offset data
    let changed := cache.modifySet tag fun set => set.overwrite way words
    (.done (fitting offset data), changed.finish issuer)

def read (cache : Cache) (issuer : Stage) (address : Nat) : Poll Word × Cache :=
  let tag := cache.memory.lineStart address
  let offset := cache.memory.offset address
  match cache.resolve issuer tag with
  | (.wait, cache) => (.wait, cache)
  | (.done way, cache) => (.done ((cache.lineAt tag way).word offset), cache)

def readLine (cache : Cache) (issuer : Stage) (address : Nat) : Poll Line × Cache :=
  let tag := cache.memory.lineStart address
  match cache.resolve issuer tag with
  | (.wait, cache) => (.wait, cache)
  | (.done way, cache) => (.done (cache.lineAt tag way).line, cache)

-- Words of a line that is not present go to memory alone, so that a write never brings it in.
def writePartial (cache : Cache) (issuer : Stage) (address : Nat) (data : List Word) :
    Poll Nat × Cache :=
  let tag := cache.memory.lineStart address
  match (cache.setOf tag).hit? tag with
  | some way =>
    match cache.writePresent issuer tag way (cache.memory.offset address) data with
    | (.wait, cache) => (.wait, cache)
    | (.done count, cache) => (.done count, cache.countHit)
  | none =>
    let address := cache.memory.wrap address
    cache.onMemory fun memory =>
      (memory.releaseOthers ⟨issuer, address⟩).writePartial issuer address data

def write (cache : Cache) (issuer : Stage) (address : Nat) (w : Word) : Poll Unit × Cache :=
  let (answer, cache) := cache.writePartial issuer address [w]
  (answer.map fun _ => (), cache)

-- A store that allocates counts a miss for a line it brings in, and no hit for one it finds.
def store (cache : Cache) (issuer : Stage) (address : Nat) (w : Word) : Poll Unit × Cache :=
  if cache.writeAllocate then
    let tag := cache.memory.lineStart address
    let offset := cache.memory.offset address
    let place : Poll Nat × Cache := match (cache.setOf tag).hit? tag with
      | some way => (.done way, cache)
      | none => cache.fill issuer tag
    match place with
    | (.wait, cache) => (.wait, cache)
    | (.done way, cache) =>
      let (answer, cache) := cache.writePresent issuer tag way offset [w]
      (answer.map fun _ => (), cache)
  else cache.write issuer address w

instance : Storage Cache where
  read := read
  store := store
  writePartial := writePartial

-- Puts a whole line into the cache without looking at what memory has there.
def putLine (cache : Cache) (issuer : Stage) (address : Nat) (words : Vector Word lineLength)
    (dirty : Bool) : Poll Unit × Cache :=
  let tag := cache.memory.lineStart address
  let (way, cache) := match (cache.setOf tag).way? tag with
    | some way => (way, cache)
    | none => cache.reserve issuer tag
  match cache.writeBack issuer tag way with
  | (.wait, cache) => (.wait, cache)
  | (.done _, cache) =>
    let line : Line := { start := some tag, words := words }
    let placed := cache.modifySet tag fun set => set.install way line dirty
    (.done (), placed.finish issuer)

-- Drops a line. What memory does not have of it goes there at once.
def invalidate (cache : Cache) (address : Nat) : Cache :=
  let tag := cache.memory.lineStart address
  match (cache.setOf tag).way? tag with
  | none => cache
  | some way =>
    let line := cache.lineAt tag way
    let saved := if line.dirty then
        (cache.changeMemory (·.putLine tag line.line.words)).countWriteBack
      else cache
    saved.modifySet tag fun set => set.withdraw way

def cleanedLine (line : CacheLine) : CacheLine :=
  if line.owed?.isSome then { line with dirty := false } else line

def saveLine (memory : MainMemory) (line : CacheLine) : MainMemory :=
  match line.owed? with
  | none => memory
  | some tag => memory.putLine tag line.line.words

-- Memory gets at once all that it does not have yet.
def flush (cache : Cache) : Cache :=
  let lines := cache.allLines
  let written := cache.changeMemory fun memory => lines.foldl saveLine memory
  { written with
    sets := written.sets.map fun set => set.map cleanedLine
    stats.writeBacks := written.stats.writeBacks + (lines.filter (·.owed?.isSome)).length }

-- Forgets every access that is under way.
def releaseAll (cache : Cache) : Cache :=
  { cache with reservations := .replicate 6 none }.changeMemory (·.releaseAll)

end PipelinedProcessor.Cache
