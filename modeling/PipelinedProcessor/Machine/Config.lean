import PipelinedProcessor.Cache.Basic

namespace PipelinedProcessor

structure MemoryConfig where
  lines : Nat := 8000
  delay : Nat := 3
deriving DecidableEq

structure CacheConfig where
  lines : Nat := 16
  writeAllocate : Bool := false
deriving DecidableEq

structure RunConfig where
  pipelined : Bool := true
  cached : Bool := true
  maxCycles : Nat := 1000000
deriving DecidableEq

structure Config where
  memory : MemoryConfig := {}
  cache : CacheConfig := {}
  run : RunConfig := {}
  vectorCount : Nat := 16
  vectorSlots : Nat := 16
deriving DecidableEq

-- Why a machine cannot be built.
inductive ConfigError where
  | noMemoryLines
  | cacheLines (count : Nat)
  | vectorCount (count : Nat)
  | noVectorSlots
  | noCycles
deriving DecidableEq

def maxVectorCount : Nat := 16

namespace ConfigError

def message : ConfigError → String
  | noMemoryLines => "Main memory must hold at least one line"
  | cacheLines count => (BuildError.cacheLines count).message
  | vectorCount count =>
    "Vector register count must be between 1 and " ++ maxVectorCount.repr ++ ", got " ++ count.repr
  | noVectorSlots => "Vector registers must hold at least one slot"
  | noCycles => "Cycle limit must be non-zero"

end ConfigError

namespace Config

-- The first of the limits that the configuration breaks.
def error? (config : Config) : Option ConfigError :=
  if config.memory.lines = 0 then some .noMemoryLines
  else if config.cache.lines = 0 || config.cache.lines % Cache.setCount ≠ 0 then
    some (.cacheLines config.cache.lines)
  else if config.vectorCount = 0 || maxVectorCount < config.vectorCount then
    some (.vectorCount config.vectorCount)
  else if config.vectorSlots = 0 then some .noVectorSlots
  else if config.run.maxCycles = 0 then some .noCycles
  else none

theorem memory_pos {config : Config} (h : config.error? = none) : 0 < config.memory.lines := by
  by_cases hz : config.memory.lines = 0
  · simp [error?, hz] at h
  · omega

end Config

end PipelinedProcessor
