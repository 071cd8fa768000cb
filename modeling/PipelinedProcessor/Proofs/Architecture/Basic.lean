import PipelinedProcessor.Flight.Execution
import PipelinedProcessor.Register.Scalar
import PipelinedProcessor.Register.Vector

namespace PipelinedProcessor

-- The word at every address. Past the capacity the addresses begin again.
abbrev MemoryView := Nat → Word

namespace MemoryView

def put (capacity : Nat) (memory : MemoryView) (address : Nat) (w : Word) : MemoryView :=
  fun other => if other % capacity = address % capacity then w else memory other

-- The words go to the addresses from the first on, one after the other.
def putAll (capacity : Nat) (memory : MemoryView) (address : Nat) : List Word → MemoryView
  | [] => memory
  | w :: rest => putAll capacity (memory.put capacity address w) (address + 1) rest

end MemoryView

-- What a program can tell of the machine. The instruction set is defined on this alone: an
-- instruction is one step from a state to the next, without stages, waiting or a cache.
structure ArchState where
  registers : Registers
  vectors : VectorRegisters
  memory : MemoryView

namespace ArchState

def address (s : ArchState) : Nat := s.registers.counter

def word (s : ArchState) : Word := s.memory s.address

def instr (s : ArchState) : Instruction := Instruction.ofWord s.word

-- The state in which an instruction reads its operands: the counter is past it already.
def stepped (s : ArchState) : ArchState := { s with registers := s.registers.stepCounter }

def value (s : ArchState) (number : Nat) : Word := s.registers.read number

-- A register as the address of a word.
def place (s : ArchState) (number : Nat) : Nat := (s.value number).toAddress

def write (s : ArchState) (number : Nat) (w : Word) : ArchState :=
  { s with registers := s.registers.write number w }

def writeVector (s : ArchState) (number : Nat) (slots : List Slot) : ArchState :=
  { s with vectors := s.vectors.set number slots }

-- A scalar operation on two words. A comparison and the setting of a flag write the flags; a swap
-- writes its second register, if it has one, and then the destination.
def operate (op : ScalarOp) (rd : Nat) (swapped : Option Nat) (a b : Word) (s : ArchState) :
    Except Fault ArchState :=
  match op with
  | .compare => .ok (s.write Register.flags (Flags.pack (Flags.compare a b)))
  | .setFlag => .ok (s.write Register.flags (s.value Register.flags ||| 1 <<< (b.toInt % 6).toNat))
  | .swap => .ok ((swapped.elim s fun other => s.write other a).write rd b)
  | op => (op.apply a b).map (s.write rd)

-- The target and the address to return to have to be addresses even if the branch is not taken. A
-- target past the last address is the last address.
def branch (cond : Condition) (link : Bool) (offset : Int) (address : Nat) (s : ArchState) :
    Except Fault ArchState :=
  let target : Int := if cond = .ret then s.place Register.link else address + offset
  if target < 0 then .error (.branchOutside address offset)
  else if link ∧ Word.bound ≤ address + 1 then .error .returnOutside
  else if s.registers.holds cond then
    let jumped := { s with registers := s.registers.setCounter target.toNat }
    .ok (if link then jumped.write Register.link (BitVec.ofNat 32 (address + 1)) else jumped)
  else .ok s

-- The words of a vector store. A slot that is empty counts as zero.
def stored (s : ArchState) (vd length : Nat) : List Word :=
  ((s.vectors.get vd).take length).map (·.getD 0)

-- The addresses that an instruction writes to.
def targets (s : ArchState) : Instruction → List Nat
  | .transfer .store rd _ => [s.place rd]
  | .transferImmediate .store rd _ => [s.place rd]
  | .vectorTransfer .store vd r1 length =>
    (List.range (s.stored vd length).length).map (s.place r1 + ·)
  | _ => []

-- What an instruction that was read from the address does. Operands in brackets, those of the
-- indirect forms, are the words that the registers point to.
def effect (capacity : Nat) (instr : Instruction) (address : Nat) (s : ArchState) :
    Except Fault ArchState :=
  match instr with
  | .scalar .direct _ op rd r1 r2 => s.operate op rd (some r2) (s.value r1) (s.value r2)
  | .scalar .indirect _ op rd r1 r2 =>
    s.operate op rd none (s.memory (s.place r1)) (s.memory (s.place r2))
  | .scalar .mixed _ op rd r1 r2 => s.operate op rd none (s.memory (s.place r1)) (s.value r2)
  | .scalarImmediate false op rd r1 immediate =>
    s.operate op rd none (s.value r1) (BitVec.ofNat 32 immediate)
  | .scalarImmediate true op rd r1 immediate =>
    s.operate op rd none (s.memory (s.place r1)) (BitVec.ofNat 32 immediate)
  | .transfer .load rd r1 => .ok (s.write rd (s.memory (s.place r1)))
  | .transfer _ rd r1 => .ok { s with memory := s.memory.put capacity (s.place rd) (s.value r1) }
  | .transferImmediate .load rd immediate => .ok (s.write rd (BitVec.ofNat 32 immediate))
  | .transferImmediate _ rd immediate =>
    .ok { s with memory := s.memory.put capacity (s.place rd) (BitVec.ofNat 32 immediate) }
  | .branch cond link offset => s.branch cond link offset address
  | .vectorTransfer .load vd r1 length =>
    .ok (s.writeVector vd ((List.range length).map fun i => some (s.memory (s.place r1 + i))))
  | .vectorTransfer .store vd r1 length =>
    .ok { s with memory := s.memory.putAll capacity (s.place r1) (s.stored vd length) }
  | .vectorTransfer _ vd r1 _ => .ok { s with vectors := s.vectors.append vd (s.value r1) }
  | .vector _ op vd v1 v2 length =>
    (op.slots (s.vectors.slot v1) (s.vectors.slot v2) length).map (s.writeVector vd)
  | .vectorImmediate _ op vd v1 immediate length =>
    (op.slots (s.vectors.slot v1) (fun _ => some (BitVec.ofNat 32 immediate)) length).map
      (s.writeVector vd)
  | .halt => .ok s
  | .invalid _ => .ok s

-- One instruction, or nothing where the word that halts is next.
def step (capacity : Nat) (s : ArchState) : Except Fault (Option ArchState) :=
  if s.word = Word.halt then .ok none
  else (s.stepped.effect capacity s.instr s.address).map some

-- The addresses that the next instruction writes to.
def storeTargets (s : ArchState) : List Nat := s.stepped.targets s.instr

-- Where a state cannot go on it stays.
def next (capacity : Nat) (s : ArchState) : ArchState :=
  match s.step capacity with
  | .ok (some after) => after
  | _ => s

def after (capacity : Nat) : Nat → ArchState → ArchState
  | 0, s => s
  | n + 1, s => (s.after capacity n).next capacity

-- Whether at least so many instructions are executed.
def Runs (capacity n : Nat) (s : ArchState) : Prop :=
  ∀ i < n, ∃ t, (s.after capacity i).step capacity = .ok (some t)

-- The instructions executed first, as their addresses and words.
def trace (capacity n : Nat) (s : ArchState) : List (Nat × Word) :=
  (List.range n).map fun i => ((s.after capacity i).address, (s.after capacity i).word)

end ArchState

end PipelinedProcessor
