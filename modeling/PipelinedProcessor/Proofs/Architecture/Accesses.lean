import PipelinedProcessor.Proofs.Flight.Follows
import PipelinedProcessor.Proofs.Flight.Requests

namespace PipelinedProcessor

namespace ArchState

-- How often an instruction has to do with memory: once for every word that it reads, and once for
-- every line in which it stores words.
def accessesOf (s : ArchState) : Instruction → Nat
  | .scalar .indirect _ op _ _ _ => op.usesFirst.toNat + op.usesSecond.toNat
  | .scalar .mixed _ op _ _ _ => op.usesFirst.toNat
  | .scalarImmediate true op _ _ _ => op.usesFirst.toNat
  | .transfer _ _ _ => 1
  | .transferImmediate .load _ _ => 0
  | .transferImmediate _ _ _ => 1
  | .vectorTransfer .load _ _ length => length
  | .vectorTransfer .store vd r1 length => lineParts (s.place r1) (s.stored vd length).length
  | _ => 0

-- The same for the next instruction.
def accesses (s : ArchState) : Nat := s.stepped.accessesOf s.instr

end ArchState

def Work.requests : Work → Nat
  | nothing => 0
  | results _ => 0
  | action todo => todo.requests

def Flight.requests (f : Flight) : Nat := f.action.elim 0 Action.requests

theorem Flight.requests_take {f : Flight} (h : f.action = none) (work : Work) :
    (f.take work).requests = work.requests := by
  cases work with
  | nothing =>
      rw [take, requests, h]
      rfl
  | results writes =>
      rw [take, requests, h]
      rfl
  | action todo => rfl

theorem Action.Similar.requests_eq {action other : Action} (h : action.Similar other) :
    action.requests = other.requests := by
  cases h <;> rfl

theorem Work.Alike.requests_eq {work other : Except Fault Work} (h : Alike work other) :
    work.map Work.requests = other.map Work.requests := by
  cases h with
  | same => rfl
  | action hsimilar => exact congrArg Except.ok hsimilar.requests_eq

namespace Instruction

variable {instr : Instruction} {address : Nat} {s : ArchState} {work : Work}

theorem todo_ite_deref (used : Bool) (address : Nat) :
    (if used then Source.deref address else .value 0).todo = used.toNat := by
  cases used <;> rfl

theorem todo_ite_value (used : Bool) (w : Word) :
    (if used then Source.value w else .value 0).todo = 0 := by
  cases used <;> rfl

-- What an instruction has decided to do asks as often.
theorem requests_of_work (h : instr.work address s.registers s.vectors = .ok work) :
    work.requests = s.accessesOf instr := by
  cases instr with
  | scalar operands cond op rd r1 r2 =>
      cases operands with
      | direct =>
          obtain ⟨writes, -, rfl⟩ := ok_of_map h
          rfl
      | indirect =>
          obtain rfl := Except.ok.inj h
          simp only [scalarAction, Work.requests, Action.requests,
            todo_ite_deref, ArchState.accessesOf]
      | mixed =>
          obtain rfl := Except.ok.inj h
          simp only [scalarAction, Work.requests, Action.requests, todo_ite_deref, todo_ite_value,
            ArchState.accessesOf, Nat.add_zero]
  | scalarImmediate indirect op rd r1 immediate =>
      cases indirect with
      | false =>
          obtain ⟨writes, -, rfl⟩ := ok_of_map h
          rfl
      | true =>
          obtain rfl := Except.ok.inj h
          simp only [scalarAction, Work.requests, Action.requests, todo_ite_deref, todo_ite_value,
            ArchState.accessesOf, Nat.add_zero]
  | transfer op rd r1 => cases op <;> (obtain rfl := Except.ok.inj h; rfl)
  | transferImmediate op rd immediate => cases op <;> (obtain rfl := Except.ok.inj h; rfl)
  | branch cond link offset =>
      obtain ⟨target, back, rfl, -⟩ := work_of_branch h
      rfl
  | vectorTransfer op vd r1 length => cases op <;> (obtain rfl := Except.ok.inj h; rfl)
  | vector cond op vd v1 v2 length =>
      obtain ⟨slots, -, rfl⟩ := ok_of_map h
      rfl
  | vectorImmediate cond op vd v1 immediate length =>
      obtain ⟨slots, -, rfl⟩ := ok_of_map h
      rfl
  | halt =>
      obtain rfl := Except.ok.inj h
      rfl
  | invalid raw =>
      obtain rfl := Except.ok.inj h
      rfl

end Instruction

-- It does so too where it finds in the registers that it reads what it is to find.
theorem Flight.requests_of_execute {f f' : Flight} {s t : ArchState}
    (hagrees : ∀ r ∈ t.instr.reads, s.Agrees t.stepped r) (hinstr : f.instr = some t.instr)
    (haction : f.action = none) (hresult : f.execute s.registers s.vectors = .ok f') :
    f'.requests = t.accesses := by
  rw [execute_of_known hinstr] at hresult
  obtain ⟨work, hwork, rfl⟩ := ok_of_map hresult
  have halike : Work.Alike (t.instr.work (f.address.getD 0) s.registers s.vectors)
      (t.instr.work (f.address.getD 0) t.stepped.registers t.stepped.vectors) :=
    Instruction.work_alike t.legal_instr hagrees
  have hsame := halike.requests_eq
  rw [hwork] at hsame
  obtain ⟨other, hother, hrequests⟩ := ok_of_map hsame.symm
  calc (f.take work).complete.requests
    _ = work.requests := requests_take haction work
    _ = other.requests := hrequests.symm
    _ = t.accesses := Instruction.requests_of_work hother

end PipelinedProcessor
