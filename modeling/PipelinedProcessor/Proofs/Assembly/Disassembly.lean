import PipelinedProcessor.Proofs.Assembly.Normalize
import PipelinedProcessor.Proofs.Assembly.RoundTrip
import PipelinedProcessor.Proofs.Flight.Confined

namespace PipelinedProcessor

theorem ScalarOp.results_fieldIf (op : ScalarOp) (rd : Nat) (swapped : Option Nat)
    (flags a b : Word) :
    op.results (Instruction.fieldIf op.writesDestination rd) swapped flags a b =
      op.results rd swapped flags a b := by
  cases op <;> rfl

section

variable {σ : Type} [Storage σ]

namespace Action

variable {action next : Action} {progress : Progress}

theorem advanceMemory_normalize {memory after : σ}
    (h : action.advanceMemory memory = (progress, next, after)) :
    action.normalize.advanceMemory memory = (progress, next.normalize, after) := by
  cases action with
  | scalar op rd swapped flags first second =>
      simp only [Action.advanceMemory, Action.normalize, advanceScalar,
        ScalarOp.results_fieldIf] at h ⊢
      split at h
      · obtain ⟨rfl, rfl, rfl⟩ := h
        rfl
      · split at h
        · obtain ⟨rfl, rfl, rfl⟩ := h
          rfl
        · obtain ⟨rfl, rfl, rfl⟩ := h
          rfl
  | load rd address =>
      simp only [Action.advanceMemory, Action.normalize] at h ⊢
      split at h
      · obtain ⟨rfl, rfl, rfl⟩ := h
        rfl
      · obtain ⟨rfl, rfl, rfl⟩ := h
        rfl
  | store address w =>
      simp only [Action.advanceMemory, Action.normalize] at h ⊢
      split at h
      · obtain ⟨rfl, rfl, rfl⟩ := h
        rfl
      · obtain ⟨rfl, rfl, rfl⟩ := h
        rfl
  | vectorLoad vd base length loaded =>
      obtain ⟨rfl, rfl, rfl⟩ := h
      rfl
  | vectorStore base data written =>
      obtain ⟨rfl, rfl, rfl⟩ := h
      rfl
  | branch cond target back =>
      obtain ⟨rfl, rfl, rfl⟩ := h
      rfl

theorem advance_normalize {context after : Context σ}
    (h : action.advance context = (progress, next, after)) :
    action.normalize.advance context = (progress, next.normalize, after) := by
  obtain ⟨registers, vectors, memory⟩ := context
  by_cases hbranch : ∃ cond target back, action = branch cond target back
  · obtain ⟨cond, target, back, rfl⟩ := hbranch
    simp only [Action.advance, Action.normalize] at h ⊢
    split at h
    · rename_i htaken
      obtain ⟨rfl, rfl, rfl⟩ := h
      rw [if_pos htaken]
    · rename_i hstraight
      obtain ⟨rfl, rfl, rfl⟩ := h
      rw [if_neg hstraight]
  · have hother (cond : Condition) (target : Nat) (back : Option Word) :
        action ≠ branch cond target back :=
      fun heq => hbranch ⟨cond, target, back, heq⟩
    have hother' (cond : Condition) (target : Nat) (back : Option Word) :
        action.normalize ≠ branch cond target back := by
      cases action with
      | branch cond' target' back' => exact absurd rfl (hother cond' target' back')
      | _ => simp [Action.normalize]
    rcases hmemory : action.advanceMemory memory with ⟨progress', next', memory'⟩
    rw [advance_of_memory hother hmemory] at h
    obtain ⟨rfl, rfl, rfl⟩ := h
    exact advance_of_memory hother' (advanceMemory_normalize hmemory) registers vectors

end Action

namespace Flight

-- A flight with another instruction and with no destination that its action does not write.
def recast (instr : Instruction) (f : Flight) : Flight :=
  { f with instr := some instr, action := f.action.map Action.normalize }

variable (instr : Instruction) {f f' : Flight} {fault : Option Fault} {context after : Context σ}

theorem access_recast (h : f.access context = (fault, f', after)) :
    (f.recast instr).access context = (fault, f'.recast instr, after) := by
  cases haction : f.action with
  | none =>
      have hrecast : (f.recast instr).action = none := by simp [recast, haction]
      rw [access_of_none haction] at h
      obtain ⟨rfl, rfl, rfl⟩ := h
      rw [access_of_none hrecast]
      rfl
  | some action =>
      have hrecast : (f.recast instr).action = some action.normalize := by simp [recast, haction]
      rcases hadvance : action.advance context with ⟨progress, next, after'⟩
      have hadvance' := Action.advance_normalize hadvance
      cases progress with
      | waiting =>
          rw [access_of_waiting haction hadvance] at h
          obtain ⟨rfl, rfl, rfl⟩ := h
          rw [access_of_waiting hrecast hadvance']
          rfl
      | finished writes =>
          rw [access_of_finished haction hadvance] at h
          obtain ⟨rfl, rfl, rfl⟩ := h
          rw [access_of_finished hrecast hadvance']
          rfl
      | faulted cause =>
          rw [access_of_faulted haction hadvance] at h
          obtain ⟨rfl, rfl, rfl⟩ := h
          rw [access_of_faulted hrecast hadvance']
          rfl

theorem accesses_recast (instr : Instruction) (tries : Nat) (f : Flight) (context : Context σ) :
    (f.recast instr).accesses tries context =
      ((f.accesses tries context).1, (f.accesses tries context).2.1.recast instr,
        (f.accesses tries context).2.2) := by
  induction tries generalizing f context with
  | zero => rfl
  | succ tries ih =>
      rcases haccess : f.access context with ⟨fault, f', after⟩
      have haccess' := access_recast instr haccess
      cases fault with
      | some cause => simp only [accesses, haccess, haccess']
      | none =>
          have hstate : (f'.recast instr).state = f'.state := rfl
          simp only [accesses, haccess, haccess', hstate]
          split
          · rfl
          · exact ih f' after

-- What can be told of a flight after a run of it: its fault, whether it is done, what it has
-- decided on, and what it has left behind.
def observed (result : Option Fault × Flight × Context σ) :
    Option Fault × FlightState × List RegisterWrite × Context σ :=
  (result.1, result.2.1.state, result.2.1.results, result.2.2)

-- A flight that comes to Execute with an instruction.
def holding (f : Flight) (instr : Instruction) : Flight :=
  { f with instr := some instr, action := none, results := [] }

theorem carryOut_of_fault {f : Flight} {instr : Instruction} {fault : Fault} {context : Context σ}
    (h : instr.work (f.address.getD 0) context.registers context.vectors = .error fault)
    (tries : Nat) :
    (f.holding instr).carryOut tries context = (some fault, f.holding instr, context) := by
  have hexecute := execute_of_known (f := f.holding instr) rfl context.registers context.vectors
  rw [show (f.holding instr).address = f.address from rfl, h] at hexecute
  simp only [carryOut, hexecute, Except.map]

theorem carryOut_of_work {f : Flight} {instr : Instruction} {work : Work} {context : Context σ}
    (h : instr.work (f.address.getD 0) context.registers context.vectors = .ok work) (tries : Nat) :
    (f.holding instr).carryOut tries context =
      (((f.holding instr).take work).complete.enter .memory).accesses tries context := by
  have hexecute := execute_of_known (f := f.holding instr) rfl context.registers context.vectors
  rw [show (f.holding instr).address = f.address from rfl, h] at hexecute
  simp only [carryOut, hexecute, Except.map]

-- One try is enough if nothing has to be asked of memory.
theorem observed_of_known {f : Flight} {op : ScalarOp} {rd : Nat} {flags a b : Word}
    {writes : List RegisterWrite}
    (haction : f.action = some (.scalar op rd none flags (.value a) (.value b)))
    (hresults : op.results rd none flags a b = .ok writes) (tries : Nat) (context : Context σ) :
    observed (f.accesses (tries + 1) context) =
      (none, .completed, f.results ++ writes, context) := by
  have hadvance : (Action.scalar op rd none flags (.value a) (.value b)).advance context =
      (.finished writes, .scalar op rd none flags (.value a) (.value b), context) := by
    simp [Action.advance, Action.advanceMemory, Action.advanceScalar, Source.resolve, hresults]
  rw [accesses, access_of_finished haction hadvance]
  rfl

theorem observed_normalize (f : Flight) (instr : Instruction) (tries : Nat) (context : Context σ) :
    observed ((f.holding instr.normalize).carryOut (tries + 1) context) =
      observed ((f.holding instr).carryOut (tries + 1) context) := by
  rcases instr.work_normalize (f.address.getD 0) context.registers context.vectors with
    hsame | ⟨rd, flags, a, b, writes, hresults, hwork, hwork'⟩
  · cases hwork : instr.work (f.address.getD 0) context.registers context.vectors with
    | error fault =>
        rw [hwork] at hsame
        rw [carryOut_of_fault hwork, carryOut_of_fault hsame]
        rfl
    | ok work =>
        rw [hwork] at hsame
        have hrecast : ((f.holding instr.normalize).take work.normalize).complete.enter .memory =
            (((f.holding instr).take work).complete.enter .memory).recast instr.normalize := by
          cases work <;> rfl
        rw [carryOut_of_work hwork, carryOut_of_work hsame, hrecast, accesses_recast]
        rfl
  · rw [carryOut_of_work hwork, carryOut_of_work hwork']
    let action : Action := .scalar .setFlag rd none flags (.value a) (.value b)
    have haction : (((f.holding instr).take (.action action)).complete.enter .memory).action =
        some action := rfl
    exact (observed_of_known haction hresults tries context).symm

end Flight

end

namespace Assembly

open Instruction

-- The text of what a word stands for is read as an instruction that looks the same and does the
-- same to any memory, though it need not have the same form.
theorem parse_text_of_word (w : Word) (hvalid : ∀ raw, ofWord w ≠ .invalid raw)
    (hshift : (ofWord w).scalarOp? ≠ some .shift) :
    ∃ instr, parse (ofWord w).text = .ok instr ∧ instr.text = (ofWord w).text ∧
      instr.reads = (ofWord w).reads ∧ instr.writes = (ofWord w).writes ∧
      ∀ (σ : Type) [Storage σ] (f : Flight) (tries : Nat) (context : Context (Recorded σ)),
        Flight.observed ((f.holding instr).carryOut (tries + 1) context) =
          Flight.observed ((f.holding (ofWord w)).carryOut (tries + 1) context) := by
  have hcanonical : (ofWord w).normalize.Canonical := by
    rcases ofWord_cases w with hhalt | hinvalid | ⟨hrange, hlegal⟩
    · rw [hhalt]
      exact ⟨trivial, trivial, trivial⟩
    · exact absurd hinvalid (hvalid w)
    · exact canonical_normalize hrange hlegal hshift
  refine ⟨(ofWord w).normalize, ?_, text_normalize _, reads_normalize _, writes_normalize _, ?_⟩
  · rw [← text_normalize]
    exact instruction_text hcanonical
  · intro σ _ f tries context
    exact Flight.observed_normalize f (ofWord w) tries context

-- A word that sets a flag as if an operand were in memory, and that has numbers in fields that do
-- not count.
theorem parse_text_of_flag :
    let w := encode (.scalar .mixed 9 .setFlag 3 2 5)
    (∀ raw, ofWord w ≠ .invalid raw) ∧ (ofWord w).scalarOp? ≠ some .shift ∧
      parse (ofWord w).text = .ok (.scalar .direct 0 .setFlag 0 0 5) ∧
      ∀ (f : Flight) (tries : Nat) (context : Context (Recorded MainMemory)),
        Flight.observed
          ((f.holding (.scalar .direct 0 .setFlag 0 0 5)).carryOut (tries + 1) context) =
          Flight.observed ((f.holding (ofWord w)).carryOut (tries + 1) context) := by
  intro w
  have hword : ofWord w = .scalar .mixed 9 .setFlag 3 2 5 := by decide
  have hvalid : ∀ raw, ofWord w ≠ .invalid raw := by simp [hword]
  have hshift : (ofWord w).scalarOp? ≠ some .shift := by decide
  have hline : parse (ofWord w).text = .ok (.scalar .direct 0 .setFlag 0 0 5) := by decide
  obtain ⟨instr, hparse, -, -, -, hsame⟩ := parse_text_of_word w hvalid hshift
  obtain rfl : .scalar .direct 0 .setFlag 0 0 5 = instr := Except.ok.inj (hline.symm.trans hparse)
  exact ⟨hvalid, hshift, hline, hsame MainMemory⟩

end Assembly

end PipelinedProcessor
