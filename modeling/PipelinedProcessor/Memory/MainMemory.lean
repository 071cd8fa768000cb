import PipelinedProcessor.Memory.Poll

namespace PipelinedProcessor

-- An attempt belongs to the same access as an earlier one if it has the same issuer and address.
structure Request where
  issuer : Stage
  address : Nat
deriving DecidableEq

-- The one request that memory is busy with, and the tries it still has to wait.
structure Pending where
  request : Request
  remaining : Nat
deriving DecidableEq

-- Why a memory or a cache of the wanted size cannot be built.
inductive BuildError where
  | noMemoryLines
  | cacheLines (count : Nat)
deriving DecidableEq

def BuildError.message : BuildError → String
  | noMemoryLines => "Main memory needs at least one line"
  | cacheLines count => "Cache line count must be a non-zero multiple of 4, got " ++ count.repr

structure MainMemory where
  lineCount : Nat
  lineCount_pos : 0 < lineCount
  delay : Nat
  pending : Option Pending := none
  lines : Vector (Vector Word lineLength) lineCount

namespace MainMemory

def zeroed (lineCount delay : Nat) (h : 0 < lineCount) : MainMemory where
  lineCount := lineCount
  lineCount_pos := h
  delay := delay
  lines := .replicate lineCount (.replicate lineLength 0)

def build (lineCount delay : Nat) : Except BuildError MainMemory :=
  if h : 0 < lineCount then .ok (zeroed lineCount delay h) else .error .noMemoryLines

def capacity (memory : MainMemory) : Nat := memory.lineCount * lineLength

-- Past the end, memory begins again.
def wrap (memory : MainMemory) (address : Nat) : Nat := address % memory.capacity

def lineStart (memory : MainMemory) (address : Nat) : Nat :=
  memory.wrap address - memory.wrap address % lineLength

theorem wrap_lt (memory : MainMemory) (address : Nat) : memory.wrap address < memory.capacity :=
  Nat.mod_lt _ (Nat.mul_pos memory.lineCount_pos (by decide))

def lineIndex (memory : MainMemory) (address : Nat) : Fin memory.lineCount :=
  ⟨memory.wrap address / lineLength,
    Nat.div_lt_of_lt_mul (Nat.mul_comm _ _ ▸ memory.wrap_lt address)⟩

def offset (memory : MainMemory) (address : Nat) : Fin lineLength :=
  ⟨memory.wrap address % lineLength, Nat.mod_lt _ (by decide)⟩

-- The accesses that do not wait.

def peekWords (memory : MainMemory) (address : Nat) : Vector Word lineLength :=
  memory.lines[memory.lineIndex address]

def peek (memory : MainMemory) (address : Nat) : Word :=
  (memory.peekWords address).get (memory.offset address)

def peekLine (memory : MainMemory) (address : Nat) : Line :=
  { start := some (memory.lineStart address), words := memory.peekWords address }

def putLine (memory : MainMemory) (address : Nat) (words : Vector Word lineLength) : MainMemory :=
  { memory with lines := memory.lines.set (memory.lineIndex address) words }

def put (memory : MainMemory) (address : Nat) (w : Word) : MainMemory :=
  memory.putLine address ((memory.peekWords address).set (memory.offset address) w)

-- Two addresses name the same word if they agree after wrapping.
theorem wrap_eq_iff (memory : MainMemory) (a b : Nat) :
    memory.wrap a = memory.wrap b ↔
      memory.lineIndex a = memory.lineIndex b ∧ memory.offset a = memory.offset b := by
  simp only [lineIndex, offset, Fin.mk.injEq, lineLength]
  omega

theorem peekWords_putLine (memory : MainMemory) (a b : Nat) (words : Vector Word lineLength) :
    (memory.putLine a words).peekWords b =
      if memory.lineIndex a = memory.lineIndex b then words else memory.peekWords b := by
  show (memory.lines.set (memory.lineIndex a) words)[memory.lineIndex b] = _
  simp only [Fin.getElem_fin, Vector.getElem_set, Fin.val_inj]
  rfl

theorem peek_put (memory : MainMemory) (a b : Nat) (w : Word) :
    (memory.put a w).peek b = if memory.wrap a = memory.wrap b then w else memory.peek b := by
  show ((memory.put a w).peekWords b).get (memory.offset b) = _
  rw [put, peekWords_putLine, peek, apply_ite (Vector.get · (memory.offset b)), get_set]
  simp only [wrap_eq_iff]
  by_cases hline : memory.lineIndex a = memory.lineIndex b
  · have hwords : memory.peekWords a = memory.peekWords b := by simp only [peekWords, hline]
    simp [hline, hwords]
  · simp [hline]

def allLines (memory : MainMemory) : List Line :=
  (List.range memory.lineCount).map fun i => memory.peekLine (i * lineLength)

-- The lines that hold a word of the range `first`, …, `last - 1`.
def linesInRange (memory : MainMemory) (first last : Nat) : List Line :=
  let low := first / lineLength
  let high := min ((last + lineLength - 1) / lineLength) memory.lineCount
  (List.range' low (high - low)).map fun i => memory.peekLine (i * lineLength)

-- The accesses that wait.

-- Whether a request is served now. An idle memory takes the first request it is asked for and
-- counts its tries down; any other request waits without effect until that one is served.
def grant (memory : MainMemory) (request : Request) : Bool × MainMemory :=
  let pending := memory.pending.getD ⟨request, memory.delay⟩
  if pending.request ≠ request then (false, memory)
  else if pending.remaining = 0 then (true, { memory with pending := none })
  else (false, { memory with pending := some ⟨request, pending.remaining - 1⟩ })

def access {α : Type} (memory : MainMemory) (issuer : Stage) (address : Nat)
    (serve : MainMemory → α × MainMemory) : Poll α × MainMemory :=
  match memory.grant ⟨issuer, address⟩ with
  | (false, memory) => (.wait, memory)
  | (true, memory) =>
    let (value, memory) := serve memory
    (.done value, memory)

def read (memory : MainMemory) (issuer : Stage) (address : Nat) : Poll Word × MainMemory :=
  memory.access issuer address fun memory => (memory.peek address, memory)

def write (memory : MainMemory) (issuer : Stage) (address : Nat) (w : Word) :
    Poll Unit × MainMemory :=
  memory.access issuer address fun memory => ((), memory.put address w)

def readLine (memory : MainMemory) (issuer : Stage) (address : Nat) : Poll Line × MainMemory :=
  memory.access issuer address fun memory => (memory.peekLine address, memory)

def writeLine (memory : MainMemory) (issuer : Stage) (address : Nat)
    (words : Vector Word lineLength) : Poll Unit × MainMemory :=
  memory.access issuer address fun memory => ((), memory.putLine address words)

def writePartial (memory : MainMemory) (issuer : Stage) (address : Nat) (data : List Word) :
    Poll Nat × MainMemory :=
  memory.access issuer address fun memory =>
    let offset := memory.offset address
    (fitting offset data, memory.putLine address (patch (memory.peekWords address) offset data))

instance : Storage MainMemory where
  read := read
  store := write
  writePartial := writePartial

-- Drops what the issuer is waiting for.
def release (memory : MainMemory) (issuer : Stage) : MainMemory :=
  if memory.pending.any (·.request.issuer = issuer) then { memory with pending := none } else memory

-- An issuer waits for one access at a time, so one that asks for another has given up the first.
def releaseOthers (memory : MainMemory) (request : Request) : MainMemory :=
  let abandoned := memory.pending.any fun pending =>
    pending.request.issuer = request.issuer && pending.request ≠ request
  if abandoned then { memory with pending := none } else memory

def releaseAll (memory : MainMemory) : MainMemory := { memory with pending := none }

def pendingText : Option Pending → String
  | none => "None"
  | some pending =>
    "Some(PendingRequest \x7b id: RequestId \x7b issuer: " ++ pending.request.issuer.name ++
      ", address: " ++ pending.request.address.repr ++ " \x7d, remaining: " ++
      pending.remaining.repr ++ " \x7d)"

def linesInUse (memory : MainMemory) : List Line :=
  memory.allLines.filter fun line => line.words.toList.any (· ≠ 0)

def text (memory : MainMemory) : String :=
  "Delay: " ++ memory.delay.repr ++ "\nCurrent Request: " ++ pendingText memory.pending ++
    "\n\nContents (non-zero lines):\n" ++
    String.join (memory.linesInUse.map fun line => line.text ++ "\n")

end MainMemory

end PipelinedProcessor
