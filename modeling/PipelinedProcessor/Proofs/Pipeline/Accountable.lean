import PipelinedProcessor.Proofs.Architecture.Dependence
import PipelinedProcessor.Proofs.Instruction.Faults
import PipelinedProcessor.Proofs.Memory.Storage
import PipelinedProcessor.Proofs.Pipeline.EachFlight
import PipelinedProcessor.Proofs.Pipeline.Raising

namespace PipelinedProcessor

open Flight

-- A partial write that is done has brought a word to memory at least, if it was given one.
def Storage.Advances (σ : Type) [Storage σ] : Prop :=
  ∀ {s s' : σ} {issuer : Stage} {address : Nat} {data : List Word} {count : Nat},
    Storage.writePartial s issuer address data = (.done count, s') → 0 < data.length → 0 < count

theorem MainMemory.advances : Storage.Advances MainMemory := by
  intro memory after issuer address data count h hdata
  obtain ⟨-, ⟨hwait, -⟩ | ⟨hdone, -⟩⟩ := writePartial_spec h
  · cases hwait
  · obtain rfl := Poll.done.inj hdone
    exact (fitting_bounds memory address data).2 hdata

theorem Cache.advances : Storage.Advances Cache := by
  intro cache after issuer address data count h hdata
  have hfits := (fitting_bounds cache.memory address data).2 hdata
  change cache.writePartial issuer address data = _ at h
  unfold writePartial at h
  simp only at h
  split at h
  · rename_i way hhit
    split at h
    · cases (Prod.mk.inj h).1
    · rename_i count' written hwrite
      obtain rfl := Poll.done.inj (Prod.mk.inj h).1
      unfold writePresent at hwrite
      split at hwrite
      · cases (Prod.mk.inj hwrite).1
      · obtain rfl := Poll.done.inj (Prod.mk.inj hwrite).1
        exact hfits
  · simp only [onMemory_eq] at h
    exact MainMemory.advances (Prod.ext (Prod.mk.inj h).1 rfl) hdata

namespace Action

-- An action that can be seen from outside before its instruction is committed.
def Acts : Action → Prop
  | store _ _ => True
  | vectorStore _ _ _ => True
  | branch _ _ _ => True
  | _ => False

-- What an action carries out is the operation of the instruction. An instruction that has one does
-- nothing else in memory.
def Of (instr : Instruction) : Action → Prop
  | scalar op _ _ _ _ _ => instr.scalarOp? = some op
  | store _ _ => instr.scalarOp? = none
  | vectorStore _ _ _ => instr.scalarOp? = none
  | branch _ _ _ => instr.scalarOp? = none
  | _ => True

theorem Of.none_of_acts {action : Action} {instr : Instruction} (h : action.Of instr)
    (hacts : action.Acts) :
    instr.scalarOp? = none := by
  cases action with
  | store address w => exact h
  | vectorStore base data written => exact h
  | branch cond target back => exact h
  | _ => cases hacts

section

variable {σ : Type} [Storage σ]

theorem Of.of_goes {action next : Action} {memory after : σ} {progress : Progress}
    {instr : Instruction} (hof : action.Of instr) (h : action.Goes memory progress next after) :
    next.Of instr := by
  induction h with
  | ends => exact hof
  | moves hmove _ ih =>
      refine ih ?_
      cases hmove <;> exact hof

theorem advance_of {action next : Action} {context after : Context σ} {progress : Progress}
    {instr : Instruction} (h : action.advance context = (progress, next, after))
    (hof : action.Of instr) : next.Of instr := by
  cases tried_of_advance h with
  | jumps | stays => exact hof
  | goes _ hgoes => exact hof.of_goes hgoes

theorem Goes.faulted (hadvances : Storage.Advances σ) {action next : Action} {memory after : σ}
    {cause : Fault} (h : action.Goes memory (.faulted cause) next after) :
    ∃ op rd swapped flags first second a b, action = scalar op rd swapped flags first second ∧
      op.results rd swapped flags a b = .error cause := by
  generalize hprogress : Progress.faulted cause = progress at h
  induction h with
  | ends hends =>
      cases hends with
      | failed hresults =>
          obtain rfl := Progress.faulted.inj hprogress
          exact ⟨_, _, _, _, _, _, _, _, rfl, hresults⟩
      | stuck hlt hwrite =>
          have hpos := hadvances hwrite (by rw [List.length_drop]; omega)
          exact absurd hpos (Nat.lt_irrefl 0)
      | _ => cases hprogress
  | moves hmove _ ih =>
      obtain ⟨op, rd, swapped, flags, first, second, a, b, hmiddle, hresults⟩ := ih hprogress
      cases hmove with
      | first | second =>
          cases hmiddle
          exact ⟨_, _, _, _, _, _, _, _, rfl, hresults⟩
      | loaded | written => cases hmiddle

-- Of all actions only an operation on words fails, once both are there.
theorem advance_faulted (hadvances : Storage.Advances σ) {action : Action} {context : Context σ}
    {cause : Fault} (h : (action.advance context).1 = .faulted cause) :
    ∃ op rd swapped flags first second a b, action = scalar op rd swapped flags first second ∧
      op.results rd swapped flags a b = .error cause := by
  rcases hadvance : action.advance context with ⟨progress, next, after⟩
  rw [hadvance] at h
  obtain rfl : progress = .faulted cause := h
  cases tried_of_advance hadvance with
  | goes _ hgoes => exact hgoes.faulted hadvances

end

end Action

theorem Work.action_of {instr : Instruction} {address : Nat} {registers : Registers}
    {vectors : VectorRegisters} {todo : Action}
    (h : instr.work address registers vectors = .ok (.action todo)) : todo.Of instr := by
  cases instr with
  | scalar operands cond op rd r1 r2 =>
      cases operands with
      | direct =>
          obtain ⟨writes, -, hwork⟩ := ok_of_map h
          cases hwork
      | indirect =>
          obtain rfl := Work.action.inj (Except.ok.inj h)
          rfl
      | mixed =>
          obtain rfl := Work.action.inj (Except.ok.inj h)
          rfl
  | scalarImmediate indirect op rd r1 immediate =>
      cases indirect with
      | false =>
          obtain ⟨writes, -, hwork⟩ := ok_of_map h
          cases hwork
      | true =>
          obtain rfl := Work.action.inj (Except.ok.inj h)
          rfl
  | transfer op rd r1 =>
      cases op <;>
      · obtain rfl := Work.action.inj (Except.ok.inj h)
        trivial
  | transferImmediate op rd immediate =>
      cases op with
      | load => cases h
      | _ =>
          obtain rfl := Work.action.inj (Except.ok.inj h)
          trivial
  | branch cond link offset =>
      obtain ⟨target, back, hwork, -⟩ := Instruction.work_of_branch h
      obtain rfl := Work.action.inj hwork
      trivial
  | vectorTransfer op vd r1 length =>
      cases op with
      | load =>
          obtain rfl := Work.action.inj (Except.ok.inj h)
          trivial
      | store =>
          obtain rfl := Work.action.inj (Except.ok.inj h)
          trivial
      | _ => cases h
  | vector cond op vd v1 v2 length =>
      obtain ⟨slots, -, hwork⟩ := ok_of_map h
      cases hwork
  | vectorImmediate cond op vd v1 immediate length =>
      obtain ⟨slots, -, hwork⟩ := ok_of_map h
      cases hwork
  | halt => cases h
  | invalid raw => cases h

-- A flight does what its word says, at an address that a register can hold.
structure Flight.Accountable (f : Flight) : Prop where
  address_lt : ∀ a, f.address = some a → a < Word.bound
  placed : ∀ w, f.raw = some w → ∃ a, f.address = some a
  action : ∀ todo, f.action = some todo → ∃ instr, f.instr = some instr ∧ todo.Of instr

namespace Flight.Accountable

variable {f : Flight} (h : f.Accountable)

include h

theorem fetch {σ : Type} [Storage σ] (context : Context σ) : (f.fetch context).1.Accountable := by
  have htarget : f.target context.registers < Word.bound := by
    cases haddress : f.address with
    | none =>
        rw [target, haddress]
        exact Word.toAddress_lt _
    | some a =>
        rw [target, haddress]
        exact h.address_lt a haddress
  have haddress (a : Nat) (ha : some (f.target context.registers) = some a) : a < Word.bound :=
    Option.some.inj ha ▸ htarget
  rcases hread :
    Storage.read context.memory .fetch (f.target context.registers) with ⟨answer, memory⟩
  cases answer with
  | wait =>
      rw [fetch_of_wait hread]
      exact ⟨haddress, fun _ _ => ⟨_, rfl⟩, h.action⟩
  | done w =>
      rw [fetch_of_done hread]
      exact ⟨haddress, fun _ _ => ⟨_, rfl⟩, h.action⟩

theorem decode (others : List Flight) : (f.decode others).Accountable := by
  obtain ⟨-, haddress, hraw⟩ := f.decode_same others
  obtain ⟨haction, -⟩ := f.decode_idle others
  refine ⟨fun a ha => h.address_lt a (haddress ▸ ha), fun w hw => ?_, fun todo htodo => ?_⟩
  · obtain ⟨a, ha⟩ := h.placed w (hraw ▸ hw)
    exact ⟨a, haddress.trans ha⟩
  · obtain ⟨instr, hinstr, hof⟩ := h.action todo (haction ▸ htodo)
    refine ⟨instr, ?_, hof⟩
    simp only [Flight.decode, hinstr, settle]
    split
    · rfl
    · exact hinstr

theorem execute {registers : Registers} {vectors : VectorRegisters} {f' : Flight}
    (hresult : f.execute registers vectors = .ok f') : f'.Accountable := by
  unfold Flight.execute at hresult
  split at hresult
  · obtain rfl := Except.ok.inj hresult
    exact ⟨h.address_lt, h.placed, h.action⟩
  · rename_i instr hinstr
    obtain ⟨work, hwork, rfl⟩ := ok_of_map hresult
    cases work with
    | nothing => exact ⟨h.address_lt, h.placed, h.action⟩
    | results writes => exact ⟨h.address_lt, h.placed, h.action⟩
    | action todo =>
        refine ⟨h.address_lt, h.placed, fun todo' htodo => ⟨instr, hinstr, ?_⟩⟩
        obtain rfl := Option.some.inj htodo
        exact Work.action_of hwork

theorem access {σ : Type} [Storage σ] (context : Context σ) :
    (f.access context).2.1.Accountable := by
  cases haction : f.action with
  | none =>
      rw [access_of_none haction]
      exact ⟨h.address_lt, h.placed, h.action⟩
  | some action =>
      obtain ⟨instr, hinstr, hof⟩ := h.action action haction
      rcases hadvance : action.advance context with ⟨progress, next, after⟩
      have hnext : ∀ todo, some next = some todo →
          ∃ instr, f.instr = some instr ∧ todo.Of instr := by
        rintro todo htodo
        obtain rfl := Option.some.inj htodo
        exact ⟨instr, hinstr, Action.advance_of hadvance hof⟩
      cases progress with
      | waiting =>
          rw [access_of_waiting haction hadvance]
          exact ⟨h.address_lt, h.placed, hnext⟩
      | finished writes =>
          rw [access_of_finished haction hadvance]
          exact ⟨h.address_lt, h.placed, hnext⟩
      | faulted cause =>
          rw [access_of_faulted haction hadvance]
          exact ⟨h.address_lt, h.placed, nofun⟩

-- What fails in Memory Access is an operation on words.
theorem results_of_fault {σ : Type} [Storage σ] (hadvances : Storage.Advances σ)
    {context : Context σ} {cause : Fault} (hfault : (f.access context).1 = some cause) :
    ∃ instr op rd swapped flags x y, f.instr = some instr ∧ instr.scalarOp? = some op ∧
      op.results rd swapped flags x y = .error cause := by
  cases haction : f.action with
  | none =>
      rw [access_of_none haction] at hfault
      cases hfault
  | some action =>
      obtain ⟨instr, hinstr, hof⟩ := h.action action haction
      rcases hadvance : action.advance context with ⟨progress, next, after⟩
      cases progress with
      | waiting =>
          rw [access_of_waiting haction hadvance] at hfault
          cases hfault
      | finished writes =>
          rw [access_of_finished haction hadvance] at hfault
          cases hfault
      | faulted cause' =>
          rw [access_of_faulted haction hadvance] at hfault
          obtain rfl := Option.some.inj hfault
          obtain ⟨op, rd, swapped, flags, first, second, x, y, rfl, hresult⟩ :=
            Action.advance_faulted hadvances (congrArg Prod.fst hadvance)
          exact ⟨instr, op, rd, swapped, flags, x, y, hinstr, hof, hresult⟩

end Flight.Accountable

namespace Pipeline

theorem lasting_accountable (σ : Type) [Storage σ] : Lasting σ 0 Accountable where
  fresh _ _ := ⟨nofun, nofun, nofun⟩
  fetch _ _ _ h context := h.fetch context
  decode others h := h.decode others
  execute _ _ _ hresult h := h.execute hresult
  access h context := h.access context
  commit h _ := ⟨h.address_lt, h.placed, h.action⟩
  complete h := ⟨h.address_lt, h.placed, h.action⟩
  enter _ h := ⟨h.address_lt, h.placed, h.action⟩

theorem upheld_accountable_start (pipelined : Bool) : Upheld 0 Accountable (start pipelined) := by
  refine ⟨wellFormed_start pipelined, Nat.zero_le _, ?_⟩
  intro stage f hf
  cases pipelined <;> cases stage <;> cases hf <;> exact ⟨nofun, nofun, nofun⟩

-- The instruction that a cycle fails with has a word that asks for what cannot be done.
theorem faults_of_raises {σ : Type} [Storage σ] (hadvances : Storage.Advances σ) {p : Pipeline}
    (h : Upheld 0 Accountable p) {context : Context σ} {cause : Fault} {f : Flight}
    (hraises : p.Raises context cause f) :
    ∃ w a, f.raw = some w ∧ f.instr = some (Instruction.ofWord w) ∧ f.address = some a ∧
      (Instruction.ofWord w).Faults a cause := by
  obtain ⟨stage, hstage, hslot, -⟩ := hraises.slot
  have hprogress : 3 ≤ f.progress := by
    have horder := h.wellFormed.inPlace stage f hslot
    simp only [progress, horder]
    rcases hstage with rfl | rfl <;> simp [Stage.order] <;> omega
  obtain ⟨⟨w, hw, hinstr, -⟩, -⟩ := (h.wellFormed.fits hslot).settled hprogress
  have haccountable := h.each stage f hslot
  obtain ⟨a, ha⟩ := haccountable.placed w hw
  refine ⟨w, a, hw, hinstr, ha, ?_⟩
  cases hraises with
  | execute hf hready hserved hfault =>
      rw [execute_of_known hinstr, ha] at hfault
      exact Instruction.faults_of_work (haccountable.address_lt a ha) (error_of_map hfault)
  | access hf hready hfault =>
      obtain ⟨instr, op, rd, swapped, flags, x, y, hinstr', hop, hresult⟩ :=
        haccountable.results_of_fault hadvances hfault
      obtain rfl := Option.some.inj (hinstr.symm.trans hinstr')
      exact Instruction.faults_of_results (Instruction.isAlu_of_scalarOp? hop) hop hresult

end Pipeline

end PipelinedProcessor
