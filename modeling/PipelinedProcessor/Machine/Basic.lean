import PipelinedProcessor.Cache.Access
import PipelinedProcessor.Machine.Config
import PipelinedProcessor.Pipeline.Cycle

namespace PipelinedProcessor

-- Whether the processor works through the cache or on main memory.
inductive MemoryMode where
  | cache | direct
deriving DecidableEq

namespace MemoryMode

def name : MemoryMode → String
  | cache => "Cache"
  | direct => "Direct"

def ofName? (text : String) : Option MemoryMode :=
  [cache, direct].find? fun mode => Text.upper mode.name = Text.upper text

end MemoryMode

-- A processor with its memory. Who has started a run can ask to be told of its end; the reports
-- that were given in this way are kept, and a run that fails gives none.
structure Machine where
  config : Config
  mode : MemoryMode
  registers : Registers := {}
  vectors : VectorRegisters
  pipeline : Pipeline := {}
  listening : Bool := false
  reports : List Report := []
  cache : Cache

namespace Machine

def build (config : Config) : Except ConfigError Machine :=
  match h : config.error? with
  | some error => .error error
  | none =>
    let memory := MainMemory.zeroed config.memory.lines config.memory.delay (Config.memory_pos h)
    .ok {
      config := config
      mode := if config.run.cached then .cache else .direct
      vectors := .empty config.vectorCount config.vectorSlots
      cache := .empty (config.cache.lines / Cache.setCount) config.cache.writeAllocate memory }

def memory (machine : Machine) : MainMemory := machine.cache.memory

def clock (machine : Machine) : Nat := machine.pipeline.clock

-- The word that a program would find at an address.
def peek (machine : Machine) (address : Nat) : Word := machine.cache.view address

-- Everything back to the beginning, memory as well, but for the reports.
def reset (machine : Machine) : Except ConfigError Machine :=
  (build machine.config).map fun fresh => { fresh with reports := machine.reports }

def text (machine : Machine) : String :=
  machine.pipeline.text ++ "\n" ++ machine.registers.text ++ "\n" ++ machine.vectors.text

end Machine

end PipelinedProcessor
