import PipelinedProcessor.Proofs.Architecture.Basic
import PipelinedProcessor.Proofs.Architecture.Course
import PipelinedProcessor.Proofs.Memory.View
import PipelinedProcessor.Proofs.Result

namespace PipelinedProcessor

-- What has been written to memory, word by word with its address, the last one at the end.
abbrev Log := List (Nat × Word)

namespace Log

-- The word that was written last to an address. Nothing stands where nothing was written.
def latest (capacity : Nat) (log : Log) : MemoryView := fun address =>
  ((log.reverse.find? fun entry => entry.1 % capacity = address % capacity).map Prod.snd).getD 0

-- Words that go to the addresses from the first on, one after the other.
def places : Nat → List Word → Log
  | _, [] => []
  | address, w :: rest => (address, w) :: places (address + 1) rest

theorem mem_places {start k : Nat} {words : List Word} (hk : k < words.length) :
    (start + k, words[k]) ∈ places start words := by
  induction words generalizing start k with
  | nil => cases hk
  | cons w rest ih =>
      cases k with
      | zero => exact List.mem_cons_self
      | succ k =>
          have hlt : k < rest.length := Nat.lt_of_succ_lt_succ hk
          have hrest : (start + 1 + k, rest[k]) ∈ places (start + 1) rest := ih hlt
          rw [Nat.add_assoc, Nat.add_comm 1 k] at hrest
          exact List.mem_cons_of_mem _ hrest

-- The same for the words of a program, where the addresses are as wide as those of who loads it.
def loaded (start : Nat) (words : List Word) : Log :=
  (places start words).map fun entry => (entry.1 % unsignedBound, entry.2)

theorem loaded_of_le {start : Nat} {words : List Word} (h : start + words.length ≤ unsignedBound) :
    loaded start words = places start words := by
  induction words generalizing start with
  | nil => rfl
  | cons w rest ih =>
      rw [List.length_cons] at h
      have hfirst : start % unsignedBound = start := Nat.mod_eq_of_lt (by omega)
      have hrest : loaded (start + 1) rest = places (start + 1) rest := ih (by omega)
      calc loaded start (w :: rest)
        _ = (start % unsignedBound, w) :: loaded (start + 1) rest := rfl
        _ = places start (w :: rest) := by rw [hfirst, hrest]; rfl

end Log

namespace MemoryView

def putLog (capacity : Nat) (memory : MemoryView) : Log → MemoryView
  | [] => memory
  | entry :: rest => putLog capacity (memory.put capacity entry.1 entry.2) rest

variable {capacity : Nat} {memory other : MemoryView}

theorem putLog_append (memory : MemoryView) (first second : Log) :
    memory.putLog capacity (first ++ second) =
      (memory.putLog capacity first).putLog capacity second := by
  induction first generalizing memory with
  | nil => rfl
  | cons entry rest ih => exact ih (memory.put capacity entry.1 entry.2)

theorem putLog_places (memory : MemoryView) (address : Nat) (words : List Word) :
    memory.putLog capacity (Log.places address words) = memory.putAll capacity address words := by
  induction words generalizing memory address with
  | nil => rfl
  | cons w rest ih => exact ih (memory.put capacity address w) (address + 1)

-- An address that nothing is written to keeps its word.
theorem putLog_of_ne {address : Nat} {log : Log}
    (h : ∀ entry ∈ log, address % capacity ≠ entry.1 % capacity) :
    memory.putLog capacity log address = memory address := by
  induction log generalizing memory with
  | nil => rfl
  | cons entry rest ih =>
      have hne : address % capacity ≠ entry.1 % capacity := h entry List.mem_cons_self
      rw [putLog, ih fun e he => h e (List.mem_cons_of_mem _ he), put_apply, if_neg hne]

-- Where two memories have the same word they have it after the same was written to both.
theorem putLog_congr {address : Nat} (h : memory address = other address) (log : Log) :
    memory.putLog capacity log address = other.putLog capacity log address := by
  induction log generalizing memory other with
  | nil => exact h
  | cons entry rest ih =>
      refine ih ?_
      rw [put_apply, put_apply, h]

end MemoryView

namespace Log

variable {capacity : Nat}

theorem latest_concat (log : Log) (entry : Nat × Word) :
    latest capacity (log ++ [entry]) = (latest capacity log).put capacity entry.1 entry.2 := by
  funext address
  rw [MemoryView.put_apply, latest, List.reverse_append, List.reverse_singleton,
    List.singleton_append, List.find?_cons]
  by_cases hsame : entry.1 % capacity = address % capacity
  · simp [hsame]
  · simp [hsame, Ne.symm hsame, latest]

-- What is written later goes over what was written before.
theorem latest_append (log more : Log) :
    latest capacity (log ++ more) = (latest capacity log).putLog capacity more := by
  induction more generalizing log with
  | nil => rw [List.append_nil, MemoryView.putLog]
  | cons entry rest ih =>
      rw [MemoryView.putLog, ← latest_concat, ← ih, List.append_assoc, List.singleton_append]

end Log

namespace ArchState

-- The addresses that an instruction reads words from.
def sources (s : ArchState) : Instruction → List Nat
  | .scalar .indirect _ op _ r1 r2 =>
    (if op.usesFirst then [s.place r1] else []) ++ if op.usesSecond then [s.place r2] else []
  | .scalar .mixed _ op _ r1 _ => if op.usesFirst then [s.place r1] else []
  | .scalarImmediate true op _ r1 _ => if op.usesFirst then [s.place r1] else []
  | .transfer .load _ r1 => [s.place r1]
  | .vectorTransfer .load _ r1 length => (List.range length).map (s.place r1 + ·)
  | _ => []

-- The words that an instruction writes.
def writes (s : ArchState) : Instruction → Log
  | .transfer .load _ _ => []
  | .transfer _ rd r1 => [(s.place rd, s.value r1)]
  | .transferImmediate .load _ _ => []
  | .transferImmediate _ rd immediate => [(s.place rd, BitVec.ofNat 32 immediate)]
  | .vectorTransfer .store vd r1 length => Log.places (s.place r1) (s.stored vd length)
  | _ => []

-- The same for the next instruction, which is read first itself.

def reads (s : ArchState) : List Nat := s.address :: s.stepped.sources s.instr

def stores (s : ArchState) : Log := s.stepped.writes s.instr

-- All that the first instructions write.
def storesIn (capacity n : Nat) (s : ArchState) : Log :=
  (List.range n).flatMap fun i => (s.after capacity i).stores

-- The same state with other words in memory.
def withMemory (memory : MemoryView) (s : ArchState) : ArchState := { s with memory := memory }

variable {capacity : Nat} {s : ArchState} {memory : MemoryView}

theorem operate_congr {op : ScalarOp} {a a' b b' : Word} (ha : op.usesFirst = true → a = a')
    (hb : op.usesSecond = true → b = b') (s : ArchState) (rd : Nat) (swapped : Option Nat) :
    s.operate op rd swapped a b = s.operate op rd swapped a' b' := by
  rw [s.operate_eq op rd swapped a b fun _ => rfl, s.operate_eq op rd swapped a' b' fun _ => rfl,
    results_congr (fun _ => rfl) ha hb]

theorem operate_withMemory {op : ScalarOp} {a a' b b' : Word} (ha : op.usesFirst = true → a = a')
    (hb : op.usesSecond = true → b = b') (s : ArchState) (rd : Nat) (swapped : Option Nat) :
    (s.withMemory memory).operate op rd swapped a b =
      (s.operate op rd swapped a' b').map (withMemory memory) := by
  rw [← operate_congr ha hb s]
  cases op with
  | compare => rfl
  | setFlag => rfl
  | swap => cases swapped <;> rfl
  | _ =>
      simp only [operate, map_map]
      rfl

theorem branch_withMemory (s : ArchState) (cond : Condition) (link : Bool) (offset : Int)
    (address : Nat) :
    (s.withMemory memory).branch cond link offset address =
      (s.branch cond link offset address).map (withMemory memory) := by
  obtain ⟨registers, vectors, other⟩ := s
  simp only [branch, withMemory, place, value]
  split_ifs <;> rfl

-- An instruction does the same where it reads the same words, and writes the same words to memory.
theorem effect_withMemory (instr : Instruction) (address : Nat)
    (h : ∀ x ∈ s.sources instr, memory x = s.memory x) :
    (s.withMemory memory).effect capacity instr address =
      (s.effect capacity instr address).map
        (withMemory (memory.putLog capacity (s.writes instr))) := by
  -- whether an operand is read depends on the operation
  have hused {used : Bool} {r : Nat} (hx : ∀ x ∈ (if used then [s.place r] else []),
      memory x = s.memory x) :
      used = true → memory (s.place r) = s.memory (s.place r) := by
    rintro rfl
    exact hx _ List.mem_cons_self
  cases instr with
  | scalar operands cond op rd r1 r2 =>
      cases operands with
      | direct => exact operate_withMemory (fun _ => rfl) (fun _ => rfl) s rd (some r2)
      | indirect =>
          have hfirst := hused fun x hx => h x (List.mem_append_left _ hx)
          have hsecond := hused fun x hx => h x (List.mem_append_right _ hx)
          exact operate_withMemory hfirst hsecond s rd none
      | mixed => exact operate_withMemory (hused h) (fun _ => rfl) s rd none
  | scalarImmediate indirect op rd r1 immediate =>
      cases indirect with
      | false => exact operate_withMemory (fun _ => rfl) (fun _ => rfl) s rd none
      | true => exact operate_withMemory (hused h) (fun _ => rfl) s rd none
  | transfer op rd r1 =>
      cases op with
      | load =>
          have hword : memory (s.place r1) = s.memory (s.place r1) := h _ List.mem_cons_self
          show Except.ok ((s.withMemory memory).write rd (memory (s.place r1))) = _
          rw [hword]
          rfl
      | _ => rfl
  | transferImmediate op rd immediate => cases op <;> rfl
  | branch cond link offset => exact s.branch_withMemory cond link offset address
  | vectorTransfer op vd r1 length =>
      cases op with
      | load =>
          have hwords : ((List.range length).map fun i => some (memory (s.place r1 + i))) =
              (List.range length).map fun i => some (s.memory (s.place r1 + i)) :=
            List.map_congr_left fun i hi => congrArg some (h _ (List.mem_map_of_mem hi))
          show Except.ok ((s.withMemory memory).writeVector vd ((List.range length).map fun i =>
            some (memory (s.place r1 + i)))) = _
          rw [hwords]
          rfl
      | store =>
          show Except.ok (s.withMemory (memory.putAll capacity (s.place r1) (s.stored vd length))) =
            _
          rw [← MemoryView.putLog_places]
          rfl
      | _ => rfl
  | vector cond op vd v1 v2 length =>
      rw [effect, effect, map_map]
      rfl
  | vectorImmediate cond op vd v1 immediate length =>
      rw [effect, effect, map_map]
      rfl
  | halt => rfl
  | invalid raw => rfl

-- Who writes to memory does not fault.
theorem writes_of_fault {instr : Instruction} {address : Nat} {cause : Fault}
    (h : s.effect capacity instr address = .error cause) : s.writes instr = [] := by
  cases instr with
  | transfer op rd r1 => cases op <;> cases h
  | transferImmediate op rd immediate => cases op <;> cases h
  | vectorTransfer op vd r1 length => cases op <;> cases h
  | _ => rfl

theorem stores_of_halt (h : s.word = Word.halt) : s.stores = [] := by
  rw [stores, instr, h]
  rfl

theorem step_withMemory (h : ∀ x ∈ s.reads, memory x = s.memory x) :
    (s.withMemory memory).step capacity =
      (s.step capacity).map (Option.map (withMemory (memory.putLog capacity s.stores))) := by
  have hword : (s.withMemory memory).word = s.word := h _ List.mem_cons_self
  have hinstr : (s.withMemory memory).instr = s.instr := congrArg Instruction.ofWord hword
  rw [step, step, hword, hinstr]
  by_cases hhalt : s.word = Word.halt
  · rw [if_pos hhalt, if_pos hhalt]
    rfl
  · rw [if_neg hhalt, if_neg hhalt]
    have heffect : (s.stepped.withMemory memory).effect capacity s.instr s.address = _ :=
      effect_withMemory s.instr s.address fun x hx => h x (List.mem_cons_of_mem _ hx)
    calc ((s.stepped.withMemory memory).effect capacity s.instr s.address).map some
      _ = ((s.stepped.effect capacity s.instr s.address).map
            (withMemory (memory.putLog capacity s.stores))).map some := by rw [heffect]; rfl
      _ = _ := by rw [map_map, map_map]; rfl

-- A state that cannot go on writes nothing either.
theorem stores_of_stuck (h : ∀ t, s.step capacity ≠ .ok (some t)) : s.stores = [] := by
  by_cases hhalt : s.word = Word.halt
  · exact stores_of_halt hhalt
  · rw [step, if_neg hhalt] at h
    cases heffect : s.stepped.effect capacity s.instr s.address with
    | error cause => exact writes_of_fault heffect
    | ok t =>
        rw [heffect] at h
        exact absurd rfl (h t)

theorem next_withMemory (h : ∀ x ∈ s.reads, memory x = s.memory x) :
    (s.withMemory memory).next capacity =
      (s.next capacity).withMemory (memory.putLog capacity s.stores) := by
  have hstep : (s.withMemory memory).step capacity = _ := step_withMemory h
  by_cases hgoes : ∃ t, s.step capacity = .ok (some t)
  · obtain ⟨t, ht⟩ := hgoes
    rw [ht] at hstep
    rw [next_of_step ht, next_of_step hstep]
  · have hstuck : ∀ t, s.step capacity ≠ .ok (some t) := fun t ht => hgoes ⟨t, ht⟩
    have hstuck' : ∀ t, (s.withMemory memory).step capacity ≠ .ok (some t) := by
      intro t ht
      rw [hstep] at ht
      obtain ⟨found, hfound, hsome⟩ := ok_of_map ht
      obtain ⟨u, rfl, -⟩ := Option.map_eq_some_iff.mp hsome
      exact hstuck u hfound
    rw [next_of_stuck hstuck, next_of_stuck hstuck', stores_of_stuck hstuck]
    rfl

theorem next_memory_eq (s : ArchState) :
    (s.next capacity).memory = s.memory.putLog capacity s.stores := by
  have hsame : (s.withMemory s.memory).next capacity = _ := next_withMemory fun _ _ => rfl
  exact congrArg ArchState.memory hsame

theorem storesIn_succ (s : ArchState) (n : Nat) :
    s.storesIn capacity (n + 1) = s.storesIn capacity n ++ (s.after capacity n).stores := by
  rw [storesIn, List.range_succ, List.flatMap_append, List.flatMap_singleton, storesIn]

-- Memory is what it was at first, with all that was written since.
theorem after_memory (s : ArchState) (n : Nat) :
    (s.after capacity n).memory = s.memory.putLog capacity (s.storesIn capacity n) := by
  induction n with
  | zero => rfl
  | succ n ih => rw [after, next_memory_eq, ih, storesIn_succ, MemoryView.putLog_append]

-- A course is the same on another memory as long as that has the words that are read.
theorem after_withMemory {n : Nat} (h : ∀ i < n, ∀ x ∈ (s.after capacity i).reads,
    memory x = s.memory x) :
    (s.withMemory memory).after capacity n =
      (s.after capacity n).withMemory (memory.putLog capacity (s.storesIn capacity n)) := by
  induction n with
  | zero => rfl
  | succ n ih =>
      rw [after, ih fun i hi => h i (by omega), after, storesIn_succ, MemoryView.putLog_append]
      refine next_withMemory fun x hx => ?_
      rw [after_memory]
      exact MemoryView.putLog_congr (h n (Nat.lt_succ_self n) x hx) _

end ArchState

end PipelinedProcessor
