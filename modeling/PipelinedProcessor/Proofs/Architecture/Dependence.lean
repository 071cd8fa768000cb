import PipelinedProcessor.Proofs.Architecture.Decomposition

namespace PipelinedProcessor

-- What an instruction does depends on the registers that it reads, and changes no others than those
-- that it writes and the counter.

namespace ArchState

-- Two states have the same in a register.
def Agrees (s t : ArchState) : Register → Prop
  | .scalar number => s.value number = t.value number
  | .vector number => s.vectors.get number = t.vectors.get number

theorem Agrees.refl (s : ArchState) (r : Register) : s.Agrees s r := by
  cases r <;> rfl

theorem Agrees.trans {s t u : ArchState} {r : Register} (h : s.Agrees t r) (h' : t.Agrees u r) :
    s.Agrees u r := by
  cases r with
  | scalar number => exact Eq.trans h h'
  | vector number => exact Eq.trans h h'

theorem Agrees.symm {s t : ArchState} {r : Register} (h : s.Agrees t r) : t.Agrees s r := by
  cases r with
  | scalar number => exact Eq.symm h
  | vector number => exact Eq.symm h

end ArchState

-- Only the setting of a flag looks at the flags that an action carries along.
inductive Action.Similar : Action → Action → Prop where
  | refl (action : Action) : Similar action action
  | flags {op : ScalarOp} (hop : op ≠ .setFlag) (rd : Nat) (swapped : Option Nat)
      (flags flags' : Word) (first second : Source) :
      Similar (.scalar op rd swapped flags first second) (.scalar op rd swapped flags' first second)

-- The same work, but for flags that it does not use.
inductive Work.Alike : Except Fault Work → Except Fault Work → Prop where
  | same (work : Except Fault Work) : Alike work work
  | action {action other : Action} (h : action.Similar other) :
      Alike (.ok (.action action)) (.ok (.action other))

namespace Work.Alike

variable {work other : Except Fault Work} {capacity : Nat} {holds : Condition → Bool}
  {view : MemoryView}

theorem of_eq (h : work = other) : Alike work other := h ▸ same work

theorem outcome (h : Alike work other) :
    (work.bind fun work => work.outcome capacity holds view) =
      other.bind fun work => work.outcome capacity holds view := by
  cases h with
  | same => rfl
  | action h =>
      cases h with
      | refl => rfl
      | flags hop rd swapped flags flags' first second =>
          simp only [Except.bind, Work.outcome, Action.outcome]
          rw [results_congr (fun heq => absurd heq hop) (fun _ => rfl) fun _ => rfl]

end Work.Alike

namespace Instruction

open ArchState

section Operands

variable {s t : ArchState} {capacity address : Nat} {holds : Condition → Bool} {view : MemoryView}

theorem slot_of_agrees {v : Nat} (h : s.Agrees t (.vector v)) :
    s.vectors.slot v = t.vectors.slot v := by
  have hget : s.vectors.get v = t.vectors.get v := h
  funext i
  rw [VectorRegisters.slot, VectorRegisters.slot, hget]

theorem scalarAction_alike {op : ScalarOp} {rd : Nat} {flags flags' : Word}
    {first first' second second' : Source} (hflags : op = .setFlag → flags = flags')
    (hfirst : op.usesFirst = true → first = first')
    (hsecond : op.usesSecond = true → second = second') :
    Work.Alike (.ok (scalarAction op rd flags first second))
      (.ok (scalarAction op rd flags' first' second')) := by
  have hused {used : Bool} {source source' : Source} (h : used = true → source = source') :
      (if used then source else .value 0) = if used then source' else .value 0 := by
    cases used with
    | false => rfl
    | true => exact h rfl
  simp only [scalarAction, hused hfirst, hused hsecond]
  by_cases hop : op = .setFlag
  · rw [hflags hop]
    exact .same _
  · exact .action (.flags hop ..)

-- States that agree on what is read give the instruction the same work.
theorem work_alike {instr : Instruction} (hlegal : instr.Legal)
    (h : ∀ r ∈ instr.reads, s.Agrees t r) :
    Work.Alike (instr.work address s.registers s.vectors)
      (instr.work address t.registers t.vectors) := by
  cases instr with
  | scalar operands cond op rd r1 r2 =>
      have hflags (hop : op = .setFlag) : s.value Register.flags = t.value Register.flags :=
        h (.scalar Register.flags) (by simp [reads, flagsIfSet, hop])
      have hfirst (hop : op.usesFirst = true) : s.value r1 = t.value r1 :=
        h (.scalar r1) (by simp [reads, firstIfUsed, hop])
      have hsecond (hop : op.usesSecond = true) : s.value r2 = t.value r2 :=
        h (.scalar r2) (by simp [reads, hop])
      simp only [value] at hflags hfirst hsecond
      cases operands with
      | direct => exact .of_eq (by simp only [work, results_congr hflags hfirst hsecond])
      | indirect =>
          simp only [work]
          refine scalarAction_alike hflags (fun hop => ?_) fun hop => ?_
          · rw [hfirst hop]
          · rw [hsecond hop]
      | mixed =>
          simp only [work]
          refine scalarAction_alike hflags (fun hop => ?_) fun hop => ?_
          · rw [hfirst hop]
          · rw [hsecond hop]
  | scalarImmediate indirect op rd r1 immediate =>
      have hflags (hop : op = .setFlag) : s.value Register.flags = t.value Register.flags :=
        h (.scalar Register.flags) (by simp [reads, flagsIfSet, hop])
      have hfirst (hop : op.usesFirst = true) : s.value r1 = t.value r1 :=
        h (.scalar r1) (by simp [reads, firstIfUsed, hop])
      simp only [value] at hflags hfirst
      cases indirect with
      | false => exact .of_eq (by simp only [work, results_congr hflags hfirst fun _ => rfl])
      | true =>
          simp only [work]
          refine scalarAction_alike hflags (fun hop => ?_) fun _ => rfl
          rw [hfirst hop]
  | transfer op rd r1 =>
      have hfirst : s.registers.read r1 = t.registers.read r1 := h (.scalar r1) (by simp [reads])
      have hplace (hop : op = .store) : s.registers.read rd = t.registers.read rd :=
        h (.scalar rd) (by simp [reads, hop])
      cases op with
      | load => exact .of_eq (by simp only [work, hfirst])
      | store => exact .of_eq (by simp only [work, hfirst, hplace])
      | _ => cases hlegal
  | transferImmediate op rd immediate =>
      have hplace (hop : op = .store) : s.registers.read rd = t.registers.read rd :=
        h (.scalar rd) (by simp [reads, hop])
      cases op with
      | load => exact .same _
      | store => exact .of_eq (by simp only [work, hplace])
      | _ => cases hlegal
  | branch cond link offset =>
      have hlink (hret : cond = .ret) :
          s.registers.read Register.link = t.registers.read Register.link :=
        h (.scalar Register.link) (by simp [reads, hret])
      by_cases hret : cond = .ret
      · exact .of_eq (by simp only [work, hlink hret])
      · exact .of_eq (by simp only [work, if_neg hret])
  | vectorTransfer op vd r1 length =>
      have hfirst : s.registers.read r1 = t.registers.read r1 := h (.scalar r1) (by simp [reads])
      have hvector (hop : op ≠ .load) : s.vectors.get vd = t.vectors.get vd :=
        h (.vector vd) (by simp [reads, hop])
      cases op with
      | load => exact .of_eq (by simp only [work, hfirst])
      | store => exact .of_eq (by simp only [work, hfirst, hvector (by decide)])
      | _ => exact .of_eq (by simp only [work, hfirst])
  | vector cond op vd v1 v2 length =>
      have hfirst := slot_of_agrees (h (.vector v1) (by simp [reads]))
      have hsecond := slot_of_agrees (h (.vector v2) (by simp [reads]))
      exact .of_eq (by simp only [work, hfirst, hsecond])
  | vectorImmediate cond op vd v1 immediate length =>
      have hfirst := slot_of_agrees (h (.vector v1) (by simp [reads]))
      exact .of_eq (by simp only [work, hfirst])
  | halt => exact .same _
  | invalid raw => exact .same _

-- So they give it the same outcome.
theorem work_congr {instr : Instruction} (hlegal : instr.Legal)
    (h : ∀ r ∈ instr.reads, s.Agrees t r) :
    ((instr.work address s.registers s.vectors).bind fun work => work.outcome capacity holds view) =
      (instr.work address t.registers t.vectors).bind fun work =>
        work.outcome capacity holds view :=
  (work_alike hlegal h).outcome

theorem targets_congr {instr : Instruction} (h : ∀ r ∈ instr.reads, s.Agrees t r) :
    s.targets instr = t.targets instr := by
  have hplace (number : Nat) (hmem : .scalar number ∈ instr.reads) :
      s.place number = t.place number := by
    have hvalue : s.value number = t.value number := h _ hmem
    rw [place, place, hvalue]
  cases instr with
  | transfer op rd r1 =>
      cases op with
      | store => simp only [targets, hplace rd (by simp [reads])]
      | _ => rfl
  | transferImmediate op rd immediate =>
      cases op with
      | store => simp only [targets, hplace rd (by simp [reads])]
      | _ => rfl
  | vectorTransfer op vd r1 length =>
      cases op with
      | store =>
          have hvector : s.vectors.get vd = t.vectors.get vd := h (.vector vd) (by simp [reads])
          simp only [targets, stored, hvector, hplace r1 (by simp [reads])]
      | _ => rfl
  | _ => rfl

end Operands

end Instruction

-- The branch of an action.
def Action.tests? : Action → Option Condition
  | branch cond _ _ => some cond
  | _ => none

-- What an instruction decides on stays within what it names: the registers that it writes, the
-- flags if it tests one, and the addresses that it writes to.
def Work.Within (instr : Instruction) (s : ArchState) : Work → Prop
  | nothing => True
  | results writes => ∀ write ∈ writes, write.target ∈ instr.writes
  | action (.scalar op rd swapped _ _ _) =>
    swapped = none ∧ ∀ r ∈ Instruction.destination op rd, r ∈ instr.writes
  | action (.load rd _) => .scalar rd ∈ instr.writes
  | action (.store place _) => place ∈ s.targets instr
  | action (.vectorLoad vd _ _ _) => .vector vd ∈ instr.writes
  | action (.vectorStore base data _) => ∀ i < data.length, base + i ∈ s.targets instr
  | action (.branch cond _ back) =>
    instr.isBranch ∧ (cond.flag?.isSome → .scalar Register.flags ∈ instr.reads) ∧
      (back.isSome → .scalar Register.link ∈ instr.writes)

namespace Instruction

variable {s : ArchState} {capacity address : Nat} {instr : Instruction}

theorem target_of_results {op : ScalarOp} {rd : Nat} {swapped : Option Nat} {flags a b : Word}
    {writes : List RegisterWrite} (h : op.results rd swapped flags a b = .ok writes) :
    ∀ write ∈ writes, write.target ∈ destination op rd ∨
    op = .swap ∧ swapped.map .scalar = some write.target := by
  intro write hwrite
  cases op with
  | swap =>
      obtain rfl := Except.ok.inj h
      rcases List.mem_append.mp hwrite with hother | hlast
      · obtain ⟨other, rfl, rfl⟩ := Option.map_eq_some_iff.mp (Option.mem_toList.mp hother)
        exact .inr ⟨rfl, rfl⟩
      · obtain rfl := List.mem_singleton.mp hlast
        exact .inl (List.mem_singleton_self _)
  | setFlag =>
      obtain rfl := Except.ok.inj h
      obtain rfl := List.mem_singleton.mp hwrite
      exact .inl (List.mem_singleton_self _)
  | _ =>
      simp only [ScalarOp.results] at h
      obtain ⟨w, -, rfl⟩ := ok_of_map h
      obtain rfl := List.mem_singleton.mp hwrite
      exact .inl (List.mem_singleton_self _)

-- Whatever the address, a branch leaves nothing but a branch to be done, which returns only if it
-- is a call.
theorem work_of_branch {cond : Condition} {link : Bool} {offset : Int} {registers : Registers}
    {vectors : VectorRegisters} {work : Work}
    (hwork : (branch cond link offset).work address registers vectors = .ok work) :
    ∃ target back, work = .action (.branch cond target back) ∧ (back.isSome → link = true) := by
  obtain ⟨target, htarget⟩ : ∃ target, ((do
      let back ← if link then (returnAddress address).map some else .ok none
      .ok (.action (.branch cond target back))) : Except Fault Work) = .ok work := by
    simp only [Instruction.work] at hwork
    split at hwork
    · exact ⟨_, hwork⟩
    · obtain ⟨target, -, htarget⟩ := ok_of_bind hwork
      exact ⟨target, htarget⟩
  cases link with
  | false =>
      obtain rfl := Except.ok.inj htarget
      exact ⟨target, none, rfl, fun hback => by cases hback⟩
  | true =>
      obtain ⟨back, -, hdone⟩ := ok_of_bind htarget
      exact ⟨target, back, (Except.ok.inj hdone).symm, fun _ => rfl⟩

theorem work_within (hlegal : instr.Legal) {work : Work}
    (hwork : instr.work address s.registers s.vectors = .ok work) : work.Within instr s := by
  cases instr with
  | scalar operands cond op rd r1 r2 =>
      have hwrites : ∀ r ∈ destination op rd, r ∈ (scalar operands cond op rd r1 r2).writes := by
        intro r hr
        cases operands with
        | direct =>
            cases op with
            | swap => exact List.mem_cons.mpr (.inl (List.mem_singleton.mp hr))
            | _ => exact hr
        | _ => exact hr
      cases operands with
      | direct =>
          obtain ⟨writes, hresults, rfl⟩ := ok_of_map hwork
          intro write hwrite
          rcases target_of_results hresults write hwrite with hrd | ⟨rfl, hr2⟩
          · exact hwrites _ hrd
          · rw [← Option.some.inj hr2]
            exact List.mem_cons_of_mem _ (List.mem_singleton_self _)
      | _ =>
          obtain rfl := Except.ok.inj hwork
          exact ⟨rfl, hwrites⟩
  | scalarImmediate indirect op rd r1 immediate =>
      cases indirect with
      | false =>
          obtain ⟨writes, hresults, rfl⟩ := ok_of_map hwork
          intro write hwrite
          rcases target_of_results hresults write hwrite with hrd | ⟨-, hnone⟩
          · exact hrd
          · cases hnone
      | true =>
          obtain rfl := Except.ok.inj hwork
          exact ⟨rfl, fun r hr => hr⟩
  | transfer op rd r1 =>
      cases op with
      | load =>
          obtain rfl := Except.ok.inj hwork
          exact List.mem_singleton_self _
      | store =>
          obtain rfl := Except.ok.inj hwork
          exact List.mem_singleton_self _
      | _ => cases hlegal
  | transferImmediate op rd immediate =>
      cases op with
      | load =>
          obtain rfl := Except.ok.inj hwork
          intro write hwrite
          obtain rfl := List.mem_singleton.mp hwrite
          exact List.mem_singleton_self _
      | store =>
          obtain rfl := Except.ok.inj hwork
          exact List.mem_singleton_self _
      | _ => cases hlegal
  | branch cond link offset =>
      obtain ⟨target, back, rfl, hlink⟩ := work_of_branch hwork
      refine ⟨rfl, ?_, ?_⟩
      · intro hflag
        cases cond <;> first | exact List.mem_singleton_self _ | cases hflag
      · intro hback
        obtain rfl := hlink hback
        exact List.mem_singleton_self _
  | vectorTransfer op vd r1 length =>
      cases op with
      | load =>
          obtain rfl := Except.ok.inj hwork
          exact List.mem_singleton_self _
      | store =>
          obtain rfl := Except.ok.inj hwork
          intro i hlt
          exact List.mem_map.mpr ⟨i, List.mem_range.mpr hlt, rfl⟩
      | append =>
          obtain rfl := Except.ok.inj hwork
          intro write hwrite
          obtain rfl := List.mem_singleton.mp hwrite
          exact List.mem_singleton_self _
      | _ => cases hlegal
  | vector cond op vd v1 v2 length =>
      obtain ⟨slots, -, rfl⟩ := ok_of_map hwork
      intro write hwrite
      obtain rfl := List.mem_singleton.mp hwrite
      exact List.mem_singleton_self _
  | vectorImmediate cond op vd v1 immediate length =>
      obtain ⟨slots, -, rfl⟩ := ok_of_map hwork
      intro write hwrite
      obtain rfl := List.mem_singleton.mp hwrite
      exact List.mem_singleton_self _
  | halt =>
      obtain rfl := Except.ok.inj hwork
      trivial
  | invalid raw =>
      obtain rfl := Except.ok.inj hwork
      trivial

end Instruction

namespace Work.Within

variable {instr : Instruction} {s : ArchState} {work : Work} (h : work.Within instr s)
  {capacity : Nat}

include h

theorem targets {x : Nat} (hx : work.StoresTo capacity x) :
    ∃ y ∈ s.targets instr, x % capacity = y % capacity := by
  cases work with
  | action todo =>
      cases todo with
      | store place w => exact ⟨place, h, hx⟩
      | vectorStore base data written =>
          obtain ⟨i, -, hlt, heq⟩ := hx
          exact ⟨base + i, h i hlt, heq⟩
      | _ => cases hx
  | _ => cases hx

theorem outcome {holds : Condition → Bool} {view : MemoryView} {outcome : Outcome}
    (houtcome : work.outcome capacity holds view = .ok outcome) :
    (∀ write ∈ outcome.writes, write.target ∈ instr.writes) ∧
      (outcome.jump.isSome → instr.isBranch = true) := by
  cases work with
  | nothing =>
      obtain rfl := Except.ok.inj houtcome
      exact ⟨fun _ hwrite => (nomatch hwrite), nofun⟩
  | results writes =>
      obtain rfl := Except.ok.inj houtcome
      exact ⟨h, nofun⟩
  | action todo =>
      cases todo with
      | scalar op rd swapped flags first second =>
          obtain ⟨writes, hresults, rfl⟩ := ok_of_map houtcome
          obtain ⟨rfl, hrd⟩ := h
          refine ⟨?_, nofun⟩
          intro write hwrite
          rcases Instruction.target_of_results hresults write hwrite with hmem | ⟨-, hnone⟩
          · exact hrd _ hmem
          · cases hnone
      | load rd place =>
          obtain rfl := Except.ok.inj houtcome
          refine ⟨?_, nofun⟩
          intro write hwrite
          obtain rfl := List.mem_singleton.mp hwrite
          exact h
      | store place w =>
          obtain rfl := Except.ok.inj houtcome
          exact ⟨fun _ hwrite => (nomatch hwrite), nofun⟩
      | vectorLoad vd base length loaded =>
          obtain rfl := Except.ok.inj houtcome
          refine ⟨?_, nofun⟩
          intro write hwrite
          obtain rfl := List.mem_singleton.mp hwrite
          exact h
      | vectorStore base data written =>
          obtain rfl := Except.ok.inj houtcome
          exact ⟨fun _ hwrite => (nomatch hwrite), nofun⟩
      | branch cond target back =>
          obtain rfl := Except.ok.inj houtcome
          obtain ⟨hbranch, -, hlink⟩ := h
          refine ⟨?_, fun _ => hbranch⟩
          intro write hwrite
          split at hwrite
          · obtain ⟨w, rfl, rfl⟩ := Option.map_eq_some_iff.mp (Option.mem_toList.mp hwrite)
            exact hlink rfl
          · cases hwrite

theorem flags {todo : Action} {cond : Condition} (hwork : work = .action todo)
    (hcond : todo.tests? = some cond) (hflag : cond.flag?.isSome) :
    .scalar Register.flags ∈ instr.reads := by
  subst hwork
  cases todo with
  | branch other target back =>
      obtain rfl := Option.some.inj hcond
      exact h.2.1 hflag
  | _ => cases hcond

end Work.Within

-- Changes of registers, seen from a register that may not be among them.

namespace RegisterWrite

variable {write : RegisterWrite} {s : ArchState} {r : Register}

theorem apply_agrees (hr : write.target ≠ r) : (write.apply s).Agrees s r := by
  cases write with
  | scalar number w =>
      cases r with
      | scalar other =>
          show (s.registers.write number w).read other = s.registers.read other
          rw [Registers.read_write, if_neg]
          rintro ⟨rfl, -⟩
          exact hr rfl
      | vector other => rfl
  | vector number slots =>
      cases r with
      | scalar other => rfl
      | vector other =>
          show (s.vectors.set number slots).get other = s.vectors.get other
          rw [VectorRegisters.get_set, if_neg]
          rintro rfl
          exact hr rfl
  | append number w =>
      cases r with
      | scalar other => rfl
      | vector other =>
          have hne : number ≠ other := by
            rintro rfl
            exact hr rfl
          show (s.vectors.append number w).get other = s.vectors.get other
          unfold VectorRegisters.append VectorRegisters.append?
          cases VectorRegisters.fillFirst? w (s.vectors.get number) with
          | none => rfl
          | some slots =>
              simp only [Option.map_some, Option.getD_some, VectorRegisters.get,
                List.getElem?_set, hne, if_false]

theorem memory_apply : (write.apply s).memory = s.memory := by
  cases write <;> rfl

theorem value_apply_congr {t : ArchState} {number : Nat} (h : s.value number = t.value number) :
    (write.apply s).value number = (write.apply t).value number := by
  cases write with
  | scalar other w =>
      show (s.registers.write other w).read number = (t.registers.write other w).read number
      rw [Registers.read_write, Registers.read_write]
      split
      · rfl
      · exact h
  | vector other slots => exact h
  | append other w => exact h

theorem vectors_apply_congr {t : ArchState} (h : s.vectors = t.vectors) :
    (write.apply s).vectors = (write.apply t).vectors := by
  cases write with
  | scalar other w => exact h
  | vector other slots => exact congrArg (VectorRegisters.set · other slots) h
  | append other w => exact congrArg (VectorRegisters.append · other w) h

end RegisterWrite

namespace Outcome

theorem memory_apply (outcome : Outcome) (s : ArchState) :
    (outcome.apply s).memory = outcome.memory := by
  have hfold (writes : List RegisterWrite) (t : ArchState) :
      (writes.foldl (fun t write => write.apply t) t).memory = t.memory := by
    induction writes generalizing t with
    | nil => rfl
    | cons write rest ih => exact (ih _).trans RegisterWrite.memory_apply
  exact hfold _ _

theorem foldl_agrees {writes : List RegisterWrite} {s : ArchState} {r : Register}
    (hr : ∀ write ∈ writes, write.target ≠ r) :
    (writes.foldl (fun s write => write.apply s) s).Agrees s r := by
  induction writes generalizing s with
  | nil => exact .refl s r
  | cons write rest ih =>
      exact (ih fun other hother => hr other (List.mem_cons_of_mem _ hother)).trans
        (RegisterWrite.apply_agrees (hr write List.mem_cons_self))

-- The same writes in states that have the same in a register leave the same there.

theorem value_foldl_congr {writes : List RegisterWrite} {s t : ArchState} {number : Nat}
    (h : s.value number = t.value number) :
    (writes.foldl (fun s write => write.apply s) s).value number =
      (writes.foldl (fun s write => write.apply s) t).value number := by
  induction writes generalizing s t with
  | nil => exact h
  | cons write rest ih => exact ih (RegisterWrite.value_apply_congr h)

theorem vectors_foldl_congr {writes : List RegisterWrite} {s t : ArchState}
    (h : s.vectors = t.vectors) :
    (writes.foldl (fun s write => write.apply s) s).vectors =
      (writes.foldl (fun s write => write.apply s) t).vectors := by
  induction writes generalizing s t with
  | nil => exact h
  | cons write rest ih => exact ih (RegisterWrite.vectors_apply_congr h)

end Outcome

end PipelinedProcessor
