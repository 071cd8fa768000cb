import Mathlib.Tactic.Common
import PipelinedProcessor.Pipeline.Cycle

namespace PipelinedProcessor

-- A pipeline that keeps its flights under their numbers, and in the slots of its stages the numbers
-- alone.
structure Ledger where
  clock : Nat := 0
  running : Bool := false
  pipelined : Bool := true
  slots : Stage → Option Nat := fun _ => none
  inFlight : Std.TreeMap Nat Flight := ∅
  nextId : Nat := 0
  openBranch : Option Nat := none
  haltId : Option Nat := none
  retired : Nat := 0
  stalls : Nat := 0

namespace Ledger

-- What a ledger has besides its flights.
def run (l : Ledger) : Pipeline where
  clock := l.clock
  running := l.running
  pipelined := l.pipelined
  nextId := l.nextId
  openBranch := l.openBranch
  haltId := l.haltId
  retired := l.retired
  stalls := l.stalls

def put (l : Ledger) (stage : Stage) (id : Option Nat) : Ledger :=
  { l with slots := fun other => if other = stage then id else l.slots other }

def flights (l : Ledger) : List Flight := l.inFlight.toList.map Prod.snd

-- The number in a slot whose flight has finished its stage, and that flight.
def completedIn? (l : Ledger) (stage : Stage) : Option (Nat × Flight) :=
  (l.slots stage).bind fun id => (l.inFlight[id]?.filter (·.state = .completed)).map (id, ·)

section

variable {σ : Type} [Storage σ]

-- What a flight does in its stage, taken out of the ledger for the time.
def process (l : Ledger) (f : Flight) (context : Context σ) :
    Option Fault × Flight × Ledger × Context σ :=
  match f.state with
  | .stalled _ => (none, f, { l with stalls := l.stalls + 1 }, context)
  | .completed => (none, f, l, context)
  | .ready =>
    match f.stage with
    | .fetch =>
      let (f, context) := f.fetch context
      let branches := f.state = .completed && f.raw.any (·.kind = Word.branchKind)
      (none, f, { l with openBranch := if branches then some f.id else l.openBranch }, context)
    | .decode => (none, f.decode l.flights, l, context)
    | .execute =>
      match f.execute context.registers context.vectors with
      | .error fault => (some fault, f, l, context)
      | .ok f => (none, f, l, context)
    | .memory =>
      let (fault, f, context) := f.access context
      let decided := f.state = .completed && l.openBranch = some f.id
      (fault, f, { l with openBranch := if decided then none else l.openBranch }, context)
    | .writeBack =>
      let (f, context) := f.commit context
      (none, f, l, context)
    | .system => (none, f, l, context)

-- The word that halts does not come back.
def putBack (stage : Stage) (id : Nat) : Option Fault × Flight × Ledger × Context σ →
    Option Fault × Ledger × Context σ
  | (fault, f, l, context) =>
    if f.raw = some Word.halt then (fault, { l.put stage none with haltId := some id }, context)
    else (fault, { l with inFlight := l.inFlight.insert id f }, context)

def workAt (l : Ledger) (stage : Stage) (context : Context σ) : Option Fault × Ledger × Context σ :=
  match l.slots stage with
  | none => (none, l, context)
  | some id =>
    match l.inFlight[id]? with
    | none => (none, l.put stage none, context)
    | some f => putBack stage id (process { l with inFlight := l.inFlight.erase id } f context)

def workFrom : List Stage → Ledger → Context σ → Option Fault × Ledger × Context σ
  | [], l, context => (none, l, context)
  | stage :: rest, l, context =>
    match l.workAt stage context with
    | (some fault, l, context) => (some fault, l, context)
    | (none, l, context) => workFrom rest l context

def work (l : Ledger) (context : Context σ) : Option Fault × Ledger × Context σ :=
  workFrom Stage.pipeline.reverse l context

end

def wake (l : Ledger) (producer : Nat) : Ledger :=
  { l with inFlight := l.inFlight.map fun _ => Pipeline.wakeIf producer }

def retire (l : Ledger) : Ledger :=
  match l.completedIn? .writeBack with
  | none => l
  | some (id, _) =>
    wake { l.put .writeBack none with inFlight := l.inFlight.erase id, retired := l.retired + 1 } id

def passOn (l : Ledger) (first second : Stage) : Ledger :=
  match l.slots second, l.completedIn? first with
  | none, some (id, f) =>
    { (l.put first none).put second (some id) with
      inFlight := l.inFlight.insert id (f.enter second) }
  | _, _ => l

def advance (l : Ledger) : Ledger :=
  (((l.retire.passOn .memory .writeBack).passOn .execute .memory).passOn .decode .execute).passOn
    .fetch .decode

def takeIn (l : Ledger) : Ledger :=
  let heldBack := if l.pipelined then l.openBranch.isSome else !l.inFlight.isEmpty
  if l.haltId.isSome || (l.slots .fetch).isSome || heldBack then l
  else { l.put .fetch (some l.nextId) with
    inFlight := l.inFlight.insert l.nextId { id := l.nextId }
    nextId := l.nextId + 1 }

def start (pipelined : Bool) : Ledger := takeIn { running := true, pipelined := pipelined }

def tick (l : Ledger) : Ledger := { l with clock := l.clock + 1 }

def step {σ : Type} [Storage σ] (l : Ledger) (context : Context σ) :
    Except Fault Message × Ledger × Context σ :=
  if l.running then
    match l.tick.work context with
    | (some fault, l, context) => (.error fault, { l with running := false }, context)
    | (none, l, context) =>
      let l := l.advance
      if l.haltId.isSome && l.inFlight.isEmpty
        then (.ok .halted, { l with running := false }, context)
      else (.ok .running, l.takeIn, context)
  else (.ok .idle, l, context)

end Ledger

end PipelinedProcessor
