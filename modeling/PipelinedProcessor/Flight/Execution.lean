import PipelinedProcessor.Flight.Basic

namespace PipelinedProcessor

-- The register writes of a scalar operation. Setting a flag leaves the other flags; a swap between
-- two registers writes the second one as well, and before the destination.
def ScalarOp.results (op : ScalarOp) (rd : Nat) (swapped : Option Nat) (flags a b : Word) :
    Except Fault (List RegisterWrite) :=
  match op with
  | .setFlag => .ok [.scalar Register.flags (flags ||| 1 <<< (b.toInt % 6).toNat)]
  | .compare => (op.apply a b).map fun w => [.scalar Register.flags w]
  | .swap => .ok ((swapped.map fun other => .scalar other a).toList ++ [.scalar rd b])
  | _ => (op.apply a b).map fun w => [.scalar rd w]

-- A result slot is empty where an operand slot is.
def VectorOp.slot (op : VectorOp) : Slot → Slot → Except Fault Slot
  | some a, some b => (op.apply a b).map some
  | _, _ => .ok none

def VectorOp.slots (op : VectorOp) (a b : Nat → Slot) (length : Nat) : Except Fault (List Slot) :=
  (List.range length).mapM fun i => op.slot (a i) (b i)

-- The target is counted from the branch itself, and must not fall out of the addresses that a
-- signed number can hold.
def branchTarget (address : Nat) (offset : Int) : Except Fault Nat :=
  let target := (address : Int) + offset
  if address < signedBound ∧ 0 ≤ target ∧ target < signedBound then .ok target.toNat
  else .error (.branchOutside address offset)

-- Where to go on after a call. A register has to hold it.
def returnAddress (address : Nat) : Except Fault Word :=
  if address + 1 < Word.bound then .ok (BitVec.ofNat 32 (address + 1)) else .error .returnOutside

-- What an instruction comes to once its operands are read.
inductive Work where
  | nothing
  | results (writes : List RegisterWrite)
  | action (action : Action)
deriving DecidableEq

namespace Instruction

-- An operand that the operation does not use is not read from memory.
def scalarAction (op : ScalarOp) (rd : Nat) (flags : Word) (first second : Source) : Work :=
  .action (.scalar op rd none flags (if op.usesFirst then first else .value 0)
    (if op.usesSecond then second else .value 0))

-- The work of an instruction at an address. A vector store takes its data from the slots that
-- exist, an empty one counting as zero.
def work (instr : Instruction) (address : Nat) (registers : Registers) (vectors : VectorRegisters) :
    Except Fault Work :=
  let value := registers.read
  let place (number : Nat) := (registers.read number).toAddress
  let flags := registers.read Register.flags
  match instr with
  | scalar .direct _ op rd r1 r2 =>
    (op.results rd (if op = .swap then some r2 else none) flags (value r1) (value r2)).map .results
  | scalar .indirect _ op rd r1 r2 =>
    .ok (scalarAction op rd flags (.deref (place r1)) (.deref (place r2)))
  | scalar .mixed _ op rd r1 r2 =>
    .ok (scalarAction op rd flags (.deref (place r1)) (.value (value r2)))
  | scalarImmediate false op rd r1 immediate =>
    (op.results rd none flags (value r1) (BitVec.ofNat 32 immediate)).map .results
  | scalarImmediate true op rd r1 immediate =>
    .ok (scalarAction op rd flags (.deref (place r1)) (.value (BitVec.ofNat 32 immediate)))
  | transfer .load rd r1 => .ok (.action (.load rd (place r1)))
  | transfer _ rd r1 => .ok (.action (.store (place rd) (value r1)))
  | transferImmediate .load rd immediate => .ok (.results [.scalar rd (BitVec.ofNat 32 immediate)])
  | transferImmediate _ rd immediate =>
    .ok (.action (.store (place rd) (BitVec.ofNat 32 immediate)))
  | branch cond link offset => do
    let target ← if cond = .ret then .ok (place Register.link) else branchTarget address offset
    let back ← if link then (returnAddress address).map some else .ok none
    .ok (.action (.branch cond target back))
  | vectorTransfer .load vd r1 length => .ok (.action (.vectorLoad vd (place r1) length []))
  | vectorTransfer .store vd r1 length =>
    .ok (.action (.vectorStore (place r1) (((vectors.get vd).take length).map (·.getD 0)) 0))
  | vectorTransfer _ vd r1 _ => .ok (.results [.append vd (value r1)])
  | vector _ op vd v1 v2 length =>
    (op.slots (vectors.slot v1) (vectors.slot v2) length).map fun slots =>
      .results [.vector vd slots]
  | vectorImmediate _ op vd v1 immediate length =>
    (op.slots (vectors.slot v1) (fun _ => some (BitVec.ofNat 32 immediate)) length).map fun slots =>
      .results [.vector vd slots]
  | halt => .ok .nothing
  | invalid _ => .ok .nothing

end Instruction

namespace Flight

def take (flight : Flight) : Work → Flight
  | .nothing => flight
  | .results writes => { flight with results := writes }
  | .action action => { flight with action := some action }

-- Reads the operands. An instruction that faults stays as it was.
def execute (flight : Flight) (registers : Registers) (vectors : VectorRegisters) :
    Except Fault Flight :=
  match flight.instr with
  | none => .ok flight.complete
  | some instr =>
    (instr.work (flight.address.getD 0) registers vectors).map fun work =>
      (flight.take work).complete

end Flight

end PipelinedProcessor
