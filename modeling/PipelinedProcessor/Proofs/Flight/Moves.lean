import PipelinedProcessor.Flight.Access
import PipelinedProcessor.Proofs.Memory.LiveStorage

namespace PipelinedProcessor

section

variable {σ : Type} [Storage σ] {memory after : σ}

theorem attempt_read {answer : Poll Word} {issuer : Stage} {address : Nat}
    (hread : Storage.read memory issuer address = (answer, after)) :
    (Access.read address).attempt memory issuer = (answer.isDone, after) := by
  simp only [Access.attempt, hread]

theorem attempt_store {answer : Poll Unit} {issuer : Stage} {address : Nat} {w : Word}
    (hstore : Storage.store memory issuer address w = (answer, after)) :
    (Access.store address w).attempt memory issuer = (answer.isDone, after) := by
  simp only [Access.attempt, hstore]

theorem attempt_writePartial {answer : Poll Nat} {issuer : Stage} {address : Nat} {data : List Word}
    (hwrite : Storage.writePartial memory issuer address data = (answer, after)) :
    (Access.writePartial address data).attempt memory issuer = (answer.isDone, after) := by
  simp only [Access.attempt, hwrite]

end

def Source.access? : Source → Option Access
  | value _ => none
  | deref address => some (.read address)

namespace Action

-- What the next try begins with.
def access? : Action → Option Access
  | scalar _ _ _ _ first second => first.access?.or second.access?
  | load _ address => some (.read address)
  | store address w => some (.store address w)
  | vectorLoad _ base length loaded =>
    if loaded.length < length then some (.read (base + loaded.length)) else none
  | vectorStore base data written =>
    if written < data.length
      then some (.writePartial (base + written) (data.drop written)) else none
  | branch _ _ _ => none

section

variable {σ : Type} [Storage σ]

-- An access that is done and not the last: what is left of the action, and the memory.
inductive Moves : Action → σ → Action → σ → Prop where
  | first {op : ScalarOp} {rd : Nat} {swapped : Option Nat} {flags w : Word}
      {address : Nat} {second : Source}
      {memory after : σ} (hread : Storage.read memory .memory address = (.done w, after)) :
      Moves (scalar op rd swapped flags (.deref address) second) memory
        (scalar op rd swapped flags (.value w) second) after
  | second {op : ScalarOp} {rd : Nat} {swapped : Option Nat} {flags a w : Word}
      {address : Nat} {memory after : σ}
      (hread : Storage.read memory .memory address = (.done w, after)) :
      Moves (scalar op rd swapped flags (.value a) (.deref address)) memory
        (scalar op rd swapped flags (.value a) (.value w)) after
  | loaded {vd base length : Nat} {loaded : List Slot} {w : Word} {memory after : σ}
      (hlt : loaded.length < length)
      (hread : Storage.read memory .memory (base + loaded.length) = (.done w, after)) :
      Moves (vectorLoad vd base length loaded) memory
        (vectorLoad vd base length (loaded ++ [some w])) after
  | written {base written count : Nat} {data : List Word} {memory after : σ}
      (hlt : written < data.length) (hpos : 0 < count)
      (hwrite : Storage.writePartial memory .memory (base + written) (data.drop written) =
        (.done count, after)) :
      Moves (vectorStore base data written) memory (vectorStore base data (written + count)) after

-- How a try ends: it has to wait for the next access, or the last is done, or none was left.
inductive Ends : Action → σ → Progress → σ → Prop where
  | waits {action : Action} {access : Access} {memory after : σ}
      (haccess : action.access? = some access)
      (hwait : access.attempt memory .memory = (false, after)) : Ends action memory .waiting after
  | calculated {op : ScalarOp} {rd : Nat} {swapped : Option Nat} {flags a b : Word}
      {writes : List RegisterWrite}
      {memory : σ} (hresults : op.results rd swapped flags a b = .ok writes) :
      Ends (scalar op rd swapped flags (.value a) (.value b)) memory (.finished writes) memory
  | failed {op : ScalarOp} {rd : Nat} {swapped : Option Nat} {flags a b : Word}
      {fault : Fault} {memory : σ} (hresults : op.results rd swapped flags a b = .error fault) :
      Ends (scalar op rd swapped flags (.value a) (.value b)) memory (.faulted fault) memory
  | loaded {rd address : Nat} {w : Word} {memory after : σ}
      (hread : Storage.read memory .memory address = (.done w, after)) :
      Ends (load rd address) memory (.finished [.scalar rd w]) after
  | stored {address : Nat} {w : Word} {memory after : σ}
      (hstore : Storage.store memory .memory address w = (.done (), after)) :
      Ends (store address w) memory (.finished []) after
  | allLoaded {vd base length : Nat} {loaded : List Slot} {memory : σ}
      (hall : length ≤ loaded.length) :
      Ends (vectorLoad vd base length loaded) memory (.finished [.vector vd loaded]) memory
  | allWritten {base written : Nat} {data : List Word} {memory : σ} (hall : data.length ≤ written) :
      Ends (vectorStore base data written) memory (.finished []) memory
  | stuck {base written : Nat} {data : List Word} {memory after : σ} (hlt : written < data.length)
      (hwrite : Storage.writePartial memory .memory (base + written) (data.drop written) =
        (.done 0, after)) :
      Ends (vectorStore base data written) memory (.faulted (.storeStuck (base + written))) after
  | branch {cond : Condition} {target : Nat} {back : Option Word} {memory : σ} :
      Ends (branch cond target back) memory (.finished []) memory

-- A try, access by access. What it leaves undone is what is left at its end.
inductive Goes : Action → σ → Progress → Action → σ → Prop where
  | ends {action : Action} {memory after : σ} {progress : Progress}
      (h : Ends action memory progress after) :
      Goes action memory progress action after
  | moves {action middle next : Action} {memory memory' after : σ} {progress : Progress}
      (hmove : Moves action memory middle memory')
        (hrest : Goes middle memory' progress next after) :
      Goes action memory progress next after

variable {memory after : σ} {progress : Progress} {next : Action}

section Scalar

variable {op : ScalarOp} {rd : Nat} {swapped : Option Nat} {flags a b : Word}
  {first second : Source}

theorem goes_of_words (h : advanceScalar op rd swapped flags (.value a) (.value b) memory =
    (progress, next, after)) :
    (scalar op rd swapped flags (.value a) (.value b)).Goes memory progress next after := by
  simp only [advanceScalar, Source.resolve] at h
  cases hresults : op.results rd swapped flags a b with
  | ok writes =>
      rw [hresults] at h
      obtain ⟨rfl, rfl, rfl⟩ := h
      exact .ends (.calculated hresults)
  | error fault =>
      rw [hresults] at h
      obtain ⟨rfl, rfl, rfl⟩ := h
      exact .ends (.failed hresults)

theorem goes_of_second (h : advanceScalar op rd swapped flags (.value a) second memory =
    (progress, next, after)) :
    (scalar op rd swapped flags (.value a) second).Goes memory progress next after := by
  cases second with
  | value b => exact goes_of_words h
  | deref address =>
      rcases hread : Storage.read memory .memory address with ⟨answer, memory'⟩
      cases answer with
      | wait =>
          simp only [advanceScalar, Source.resolve, hread] at h
          obtain ⟨rfl, rfl, rfl⟩ := h
          exact .ends (.waits rfl (attempt_read hread))
      | done w =>
          have hsame : advanceScalar op rd swapped flags (.value a) (.deref address) memory =
              advanceScalar op rd swapped flags (.value a) (.value w) memory' := by
            simp only [advanceScalar, Source.resolve, hread]
          exact .moves (.second hread) (goes_of_words (hsame.symm.trans h))

theorem goes_of_scalar (h : advanceScalar op rd swapped flags first second memory =
    (progress, next, after)) :
    (scalar op rd swapped flags first second).Goes memory progress next after := by
  cases first with
  | value a => exact goes_of_second h
  | deref address =>
      rcases hread : Storage.read memory .memory address with ⟨answer, memory'⟩
      cases answer with
      | wait =>
          simp only [advanceScalar, Source.resolve, hread] at h
          obtain ⟨rfl, rfl, rfl⟩ := h
          exact .ends (.waits rfl (attempt_read hread))
      | done w =>
          have hsame : advanceScalar op rd swapped flags (.deref address) second memory =
              advanceScalar op rd swapped flags (.value w) second memory' := by
            simp only [advanceScalar, Source.resolve, hread]
          exact .moves (.first hread) (goes_of_second (hsame.symm.trans h))

end Scalar

theorem goes_of_readWords {vd base length count : Nat} {loaded more : List Slot}
    (hcount : length - loaded.length = count)
    (h : readWords (base + loaded.length) count memory = (more, after)) :
    (vectorLoad vd base length loaded).Goes memory
      (if (loaded ++ more).length < length then .waiting
        else .finished [.vector vd (loaded ++ more)])
      (vectorLoad vd base length (loaded ++ more)) after := by
  induction count generalizing loaded more memory with
  | zero =>
      obtain ⟨rfl, rfl⟩ := Prod.mk.inj h
      rw [List.append_nil, if_neg (by omega)]
      exact .ends (.allLoaded (by omega))
  | succ count ih =>
      have hlt : loaded.length < length := by omega
      rcases hread : Storage.read memory .memory (base + loaded.length) with ⟨answer, memory'⟩
      cases answer with
      | wait =>
          simp only [readWords, hread] at h
          obtain ⟨rfl, rfl⟩ := Prod.mk.inj h
          rw [List.append_nil, if_pos hlt]
          exact .ends (.waits (if_pos hlt) (attempt_read hread))
      | done w =>
          rcases hothers :
            readWords (base + loaded.length + 1) count memory' with ⟨others, memory''⟩
          simp only [readWords, hread, hothers] at h
          obtain ⟨rfl, rfl⟩ := Prod.mk.inj h
          have hlength : (loaded ++ [some w]).length = loaded.length + 1 := List.length_append
          have hothers' : readWords (base + (loaded ++ [some w]).length) count memory' =
              (others, memory'') := by
            rw [hlength]
            exact hothers
          have hrest := ih (by omega) hothers'
          rw [List.append_assoc, List.singleton_append] at hrest
          exact .moves (.loaded hlt hread) hrest

theorem goes_of_writeWords {base parts written written' : Nat} {data : List Word}
    (hparts : data.length - written ≤ parts)
    (h : writeWords base data parts written memory = (progress, written', after)) :
    (vectorStore base data written).Goes memory progress
      (vectorStore base data written') after := by
  induction parts generalizing written memory with
  | zero =>
      obtain ⟨rfl, rfl, rfl⟩ : progress = .finished [] ∧ written' = written ∧ after = memory := by
        simpa [writeWords, eq_comm] using h
      exact .ends (.allWritten (by omega))
  | succ parts ih =>
      unfold writeWords at h
      split at h
      · rename_i hlt
        rcases hwrite : Storage.writePartial memory .memory (base + written)
          (data.drop written) with
          ⟨answer, memory'⟩
        rw [hwrite] at h
        cases answer with
        | wait =>
            obtain ⟨rfl, rfl, rfl⟩ : progress = .waiting ∧ written' = written ∧
                after = memory' := by
              simpa [eq_comm] using h
            exact .ends (.waits (if_pos hlt) (attempt_writePartial hwrite))
        | done count =>
            cases count with
            | zero =>
                obtain ⟨rfl, rfl, rfl⟩ : progress = .faulted (.storeStuck (base + written)) ∧
                    written' = written ∧ after = memory' := by
                  simpa [eq_comm] using h
                exact .ends (.stuck hlt hwrite)
            | succ count =>
                exact .moves (.written hlt (Nat.succ_pos count) hwrite) (ih (by omega) h)
      · rename_i hge
        obtain ⟨rfl, rfl, rfl⟩ : progress = .finished [] ∧ written' = written ∧ after = memory := by
          simpa [eq_comm] using h
        exact .ends (.allWritten (Nat.le_of_not_lt hge))

theorem goes_of_advanceMemory {action : Action}
    (h : action.advanceMemory memory = (progress, next, after)) :
    action.Goes memory progress next after := by
  cases action with
  | scalar op rd swapped flags first second => exact goes_of_scalar h
  | load rd address =>
      rcases hread : Storage.read memory .memory address with ⟨answer, memory'⟩
      simp only [advanceMemory, hread] at h
      cases answer with
      | wait =>
          obtain ⟨rfl, rfl, rfl⟩ := h
          exact .ends (.waits rfl (attempt_read hread))
      | done w =>
          obtain ⟨rfl, rfl, rfl⟩ := h
          exact .ends (.loaded hread)
  | store address w =>
      rcases hstore : Storage.store memory .memory address w with ⟨answer, memory'⟩
      simp only [advanceMemory, hstore] at h
      cases answer with
      | wait =>
          obtain ⟨rfl, rfl, rfl⟩ := h
          exact .ends (.waits rfl (attempt_store hstore))
      | done _ =>
          obtain ⟨rfl, rfl, rfl⟩ := h
          exact .ends (.stored hstore)
  | vectorLoad vd base length loaded =>
      rcases hread : readWords (base + loaded.length)
        (length - loaded.length) memory with ⟨more, memory'⟩
      simp only [advanceMemory, hread] at h
      obtain ⟨rfl, rfl, rfl⟩ := h
      exact goes_of_readWords rfl hread
  | vectorStore base data written =>
      rcases hwrite : writeWords base data (data.length - written) written memory with
        ⟨progress', written', memory'⟩
      simp only [advanceMemory, hwrite] at h
      obtain ⟨rfl, rfl, rfl⟩ := h
      exact goes_of_writeWords (Nat.le_refl _) hwrite
  | branch cond target back =>
      obtain ⟨rfl, rfl, rfl⟩ := h
      exact .ends .branch

theorem advance_of_memory {action : Action} (hother : ∀ cond target back,
    action ≠ branch cond target back) (h : action.advanceMemory memory = (progress, next, after))
    (registers : Registers) (vectors : VectorRegisters) :
    action.advance ⟨registers, vectors, memory⟩ =
      (progress, next, ⟨registers, vectors, after⟩) := by
  cases action with
  | branch cond target back => exact absurd rfl (hother cond target back)
  | _ => simp only [advance, h]

-- A try with the registers. Only a branch is decided by them, and changes them.
inductive Tried : Action → Context σ → Progress → Action → Context σ → Prop where
  | jumps {cond : Condition} {target : Nat} {back : Option Word} {context : Context σ}
      (hholds : context.registers.holds cond = true) :
      Tried (branch cond target back) context
        (.finished (back.map (RegisterWrite.scalar Register.link)).toList)
        (branch cond target back) { context with registers := context.registers.setCounter target }
  | stays {cond : Condition} {target : Nat} {back : Option Word} {context : Context σ}
      (hholds : context.registers.holds cond = false) :
      Tried (branch cond target back) context (.finished []) (branch cond target back) context
  | goes {action next : Action} {progress : Progress} {context : Context σ} {memory : σ}
      (hother : ∀ cond target back, action ≠ branch cond target back)
      (h : action.Goes context.memory progress next memory) :
      Tried action context progress next { context with memory := memory }

theorem tried_of_advance {action : Action} {context after : Context σ}
    (h : action.advance context = (progress, next, after)) :
    action.Tried context progress next after := by
  obtain ⟨registers, vectors, memory⟩ := context
  by_cases hbranch : ∃ cond target back, action = branch cond target back
  · obtain ⟨cond, target, back, rfl⟩ := hbranch
    simp only [advance] at h
    cases hholds : registers.holds cond with
    | true =>
        rw [if_pos hholds] at h
        obtain ⟨rfl, rfl, rfl⟩ := h
        exact .jumps hholds
    | false =>
        rw [hholds, if_neg (by decide)] at h
        obtain ⟨rfl, rfl, rfl⟩ := h
        exact .stays hholds
  · have hother (cond : Condition) (target : Nat) (back : Option Word) :
        action ≠ branch cond target back :=
      fun heq => hbranch ⟨cond, target, back, heq⟩
    rcases hmemory : action.advanceMemory memory with ⟨progress', next', memory'⟩
    rw [advance_of_memory hother hmemory] at h
    obtain ⟨rfl, rfl, rfl⟩ := h
    exact .goes hother (goes_of_advanceMemory hmemory)

end

end Action

end PipelinedProcessor
