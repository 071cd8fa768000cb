import PipelinedProcessor.Stage
import PipelinedProcessor.Memory.Line

namespace PipelinedProcessor

-- The answer to one attempt at an access. Who has to wait tries again, with the same request.
inductive Poll (α : Type) where
  | wait
  | done (value : α)
deriving DecidableEq

namespace Poll

def map {α β : Type} (f : α → β) : Poll α → Poll β
  | wait => wait
  | done value => done (f value)

-- Tries an access until it is done, at most `limit` times. The answer counts the tries.
def repeated {σ α : Type} (access : σ → Poll α × σ) : Nat → σ → Option (α × Nat) × σ
  | 0, s => (none, s)
  | limit + 1, s =>
    match access s with
    | (.done value, s) => (some (value, 1), s)
    | (.wait, s) =>
      let (answer, s) := repeated access limit s
      (answer.map fun found => (found.1, found.2 + 1), s)

end Poll

-- A request that was given up after too many tries.
structure Unanswered where
  tries : Nat
deriving DecidableEq

def Unanswered.message (error : Unanswered) : String :=
  "Memory request did not complete after " ++ error.tries.repr ++ " polls"

-- What the processor needs of a memory. A store may be kept in another place than a plain write;
-- a partial write stops at the end of a line and says how many words it wrote.
class Storage (σ : Type) where
  read : σ → Stage → Nat → Poll Word × σ
  store : σ → Stage → Nat → Word → Poll Unit × σ
  writePartial : σ → Stage → Nat → List Word → Poll Nat × σ

end PipelinedProcessor
