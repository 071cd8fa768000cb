namespace PipelinedProcessor

-- Who asks for memory: one of the five stages an instruction passes through, or the system
-- around them, which loads programs and looks at memory from outside.
inductive Stage where
  | fetch | decode | execute | memory | writeBack | system
deriving DecidableEq

namespace Stage

instance : Inhabited Stage := ⟨system⟩

def all : List Stage := [fetch, decode, execute, memory, writeBack, system]

def pipeline : List Stage := [fetch, decode, execute, memory, writeBack]

def name : Stage → String
  | fetch => "Fetch"
  | decode => "Decode"
  | execute => "Execute"
  | memory => "Memory"
  | writeBack => "WriteBack"
  | system => "System"

def text : Stage → String
  | memory => "Memory Access"
  | writeBack => "Write Back"
  | stage => stage.name

def ofName? (name : String) : Option Stage := all.find? (·.name = name)

-- Position among all stages, the system being the last.
def order : Stage → Fin 6
  | fetch => 0
  | decode => 1
  | execute => 2
  | memory => 3
  | writeBack => 4
  | system => 5

def index? (stage : Stage) : Option Nat := pipeline.findIdx? (· = stage)

def next? (stage : Stage) : Option Stage := stage.index?.bind fun i => pipeline[i + 1]?

theorem order_injective {a b : Stage} (h : a.order = b.order) : a = b := by
  cases a <;> cases b <;> first | rfl | exact absurd h (by decide)

end Stage

end PipelinedProcessor
