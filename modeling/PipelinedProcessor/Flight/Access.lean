import PipelinedProcessor.Flight.Execution
import PipelinedProcessor.Memory.Poll

namespace PipelinedProcessor

-- All that the stages work on.
structure Context (σ : Type) where
  registers : Registers
  vectors : VectorRegisters
  memory : σ

-- How far one try has brought an action.
inductive Progress where
  | waiting
  | finished (writes : List RegisterWrite)
  | faulted (fault : Fault)
deriving DecidableEq

section

variable {σ : Type} [Storage σ]

def Source.resolve (source : Source) (memory : σ) : Source × σ :=
  match source with
  | value w => (value w, memory)
  | deref address =>
    match Storage.read memory .memory address with
    | (.wait, memory) => (deref address, memory)
    | (.done w, memory) => (value w, memory)

namespace Action

-- Reads words one after the other until one has to be waited for, at most so many of them.
def readWords (base : Nat) : Nat → σ → List Slot × σ
  | 0, memory => ([], memory)
  | count + 1, memory =>
    match Storage.read memory .memory base with
    | (.wait, memory) => ([], memory)
    | (.done w, memory) =>
      let (others, memory) := readWords (base + 1) count memory
      (some w :: others, memory)

-- Writes the data that are left, a part of a line at a time, until one has to be waited for. Each
-- part holds a word at least, so that `parts` need not be more than the words that are left.
def writeWords (base : Nat) (data : List Word) : Nat → Nat → σ → Progress × Nat × σ
  | 0, written, memory => (.finished [], written, memory)
  | parts + 1, written, memory =>
    if written < data.length then
      match Storage.writePartial memory .memory (base + written) (data.drop written) with
      | (.wait, memory) => (.waiting, written, memory)
      | (.done 0, memory) => (.faulted (.storeStuck (base + written)), written, memory)
      | (.done count, memory) => writeWords base data parts (written + count) memory
    else (.finished [], written, memory)

def advanceScalar (op : ScalarOp) (rd : Nat) (swapped : Option Nat) (flags : Word)
    (first second : Source) (memory : σ) : Progress × Action × σ :=
  match first.resolve memory with
  | (.deref address, memory) =>
    (.waiting, scalar op rd swapped flags (.deref address) second, memory)
  | (.value a, memory) =>
    match second.resolve memory with
    | (.deref address, memory) =>
      (.waiting, scalar op rd swapped flags (.value a) (.deref address), memory)
    | (.value b, memory) =>
      let progress := match op.results rd swapped flags a b with
        | .ok writes => .finished writes
        | .error fault => .faulted fault
      (progress, scalar op rd swapped flags (.value a) (.value b), memory)

-- One try of an action that concerns memory alone. Branches have nothing to do there.
def advanceMemory (action : Action) (memory : σ) : Progress × Action × σ :=
  match action with
  | scalar op rd swapped flags first second => advanceScalar op rd swapped flags first second memory
  | load rd address =>
    match Storage.read memory .memory address with
    | (.wait, memory) => (.waiting, action, memory)
    | (.done w, memory) => (.finished [.scalar rd w], action, memory)
  | store address w =>
    match Storage.store memory .memory address w with
    | (.wait, memory) => (.waiting, action, memory)
    | (.done _, memory) => (.finished [], action, memory)
  | vectorLoad vd base length loaded =>
    let (more, memory) := readWords (base + loaded.length) (length - loaded.length) memory
    let loaded := loaded ++ more
    let progress := if loaded.length < length then .waiting else .finished [.vector vd loaded]
    (progress, vectorLoad vd base length loaded, memory)
  | vectorStore base data written =>
    let (progress, written, memory) := writeWords base data (data.length - written) written memory
    (progress, vectorStore base data written, memory)
  | branch _ _ _ => (.finished [], action, memory)

-- One try of an action. A branch is decided by the flags as they are now.
def advance (action : Action) (context : Context σ) : Progress × Action × Context σ :=
  match context with
  | ⟨registers, vectors, memory⟩ =>
    match action with
    | branch cond target back =>
      if registers.holds cond then
        let writes := (back.map fun w => RegisterWrite.scalar Register.link w).toList
        (.finished writes, action, ⟨registers.setCounter target, vectors, memory⟩)
      else (.finished [], action, ⟨registers, vectors, memory⟩)
    | _ =>
      let (progress, action, memory) := advanceMemory action memory
      (progress, action, ⟨registers, vectors, memory⟩)

end Action

namespace RegisterWrite

-- Appending to a full register is no error, the word is lost.
def commit (write : RegisterWrite) (context : Context σ) : Context σ :=
  match context with
  | ⟨registers, vectors, memory⟩ =>
    match write with
    | scalar number w => ⟨registers.write number w, vectors, memory⟩
    | vector number slots => ⟨registers, vectors.set number slots, memory⟩
    | append number w => ⟨registers, vectors.append number w, memory⟩

end RegisterWrite

namespace Flight

-- Tries to read the word at the program counter, which then goes on to the next one. The counter
-- is looked at once; it may change before the word arrives. It stays on the word that halts.
def fetch (flight : Flight) (context : Context σ) : Flight × Context σ :=
  match context with
  | ⟨registers, vectors, memory⟩ =>
    let address := flight.address.getD registers.counter
    let flight := { flight with address := some address }
    match Storage.read memory .fetch address with
    | (.wait, memory) => (flight, ⟨registers, vectors, memory⟩)
    | (.done w, memory) =>
      let registers := if w = Word.halt then registers else registers.stepCounter
      ({ flight with raw := some w }.complete, ⟨registers, vectors, memory⟩)

-- Tries the action, if there is one. An action that faults is dropped.
def access (flight : Flight) (context : Context σ) : Option Fault × Flight × Context σ :=
  match flight.action with
  | none => (none, flight.complete, context)
  | some action =>
    match action.advance context with
    | (.waiting, action, context) => (none, { flight with action := some action }, context)
    | (.finished writes, action, context) =>
      let served := { flight with action := some action, results := flight.results ++ writes }
      (none, served.complete, context)
    | (.faulted fault, _, context) => (some fault, { flight with action := none }, context)

-- Makes the changes that were decided on, in their order.
def commit (flight : Flight) (context : Context σ) : Flight × Context σ :=
  ({ flight with results := [] }.complete,
    flight.results.foldl (fun context write => write.commit context) context)

end Flight

end

end PipelinedProcessor
