import PipelinedProcessor.Machine.Basic

namespace PipelinedProcessor

-- Why a program cannot be put into memory.
inductive LoadError where
  | tooLarge (words capacity : Nat)
  | unanswered (index address : Nat) (cause : Unanswered)
deriving DecidableEq

namespace LoadError

def message : LoadError → String
  | tooLarge words capacity =>
    "Program is too large to fit in main memory: " ++ words.repr ++ " > " ++ capacity.repr
  | unanswered index address cause =>
    "Loading word " ++ index.repr ++ " at address " ++ address.repr ++ ": " ++ cause.message

end LoadError

-- The program with the word that halts at its end, unless it is there already.
def withHalt (program : List Word) : List Word :=
  if program.getLast? = some Word.halt then program else program ++ [Word.halt]

namespace Machine

-- The cache may hold the old words of an address. It gives them up before memory gets the new one.
def loadWord (cache : Cache) (address tries : Nat) (w : Word) : Option Unit × Cache :=
  let (answer, cache) := (cache.invalidate address).onMemory fun memory =>
    Poll.repeated (fun memory => memory.write .system address w) tries memory
  (answer.map fun _ => (), cache)

def loadFrom (tries start index : Nat) : List Word → Cache → Option LoadError × Cache
  | [], cache => (none, cache)
  | w :: rest, cache =>
    let address := (start + index) % unsignedBound
    match loadWord cache address tries w with
    | (none, cache) => (some (.unanswered index address ⟨tries⟩), cache)
    | (some (), cache) => loadFrom tries start (index + 1) rest cache

-- How often loading tries to write a word, which is more than a write needs. As the count has the
-- width of an address, it is too low for a memory so slow that it does not fit.
def loadTries (machine : Machine) : Nat := 4 * (machine.config.memory.delay + 1) % unsignedBound

-- Puts a program into memory, with the word that halts after it. The answer counts the words.
def load (machine : Machine) (start : Nat) (program : List Word) : Except LoadError Nat × Machine :=
  let words := withHalt program
  if machine.memory.capacity < words.length then
    (.error (.tooLarge words.length machine.memory.capacity), machine)
  else
    match loadFrom machine.loadTries start 0 words machine.cache.releaseAll with
    | (some error, cache) => (.error error, { machine with cache := cache })
    | (none, cache) => (.ok words.length, { machine with cache := cache })

end Machine

end PipelinedProcessor
