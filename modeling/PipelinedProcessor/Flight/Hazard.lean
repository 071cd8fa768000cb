import PipelinedProcessor.Flight.Basic

namespace PipelinedProcessor.Flight

-- A branch also waits for every comparison, even where its condition tests no flag.
def dependsOn (flight older : Flight) : Bool :=
  older.writes.any (flight.reads.contains ·) || (flight.isBranch && older.isCompare)

-- The youngest of the older instructions that this one has to wait for.
def producer? (flight : Flight) (others : List Flight) : Option Nat :=
  ((others.filter fun older => older.id < flight.id && flight.dependsOn older).map Flight.id).max?

def settle (flight : Flight) (others : List Flight) : Flight :=
  match flight.producer? others with
  | some id => { flight with state := .stalled id }
  | none => flight.complete

-- Finds out what was fetched and whether it can go on. Where nothing was fetched there is nothing
-- to wait for.
def decode (flight : Flight) (others : List Flight) : Flight :=
  match flight.instr, flight.raw with
  | some _, _ => settle flight others
  | none, none => flight.complete
  | none, some raw =>
    let instr := Instruction.ofWord raw
    settle { flight with instr := some instr, reads := instr.reads, writes := instr.writes } others

end PipelinedProcessor.Flight
