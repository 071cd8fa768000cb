import PipelinedProcessor.Proofs.Memory.Protocol

namespace PipelinedProcessor

open Cache (Call Answer)

-- Main memory with the place that each line has been given, by which the line decides whether an
-- access is one to it. An access that it refuses has no effect, and whoever asked is not told: all
-- that remains of it is its note here.
structure LineStore extends MainMemory where
  starts : Vector (Option Nat) lineCount
  refused : List OutsideLine := []

namespace LineStore

-- Every line in its own place.
def of (memory : MainMemory) : LineStore :=
  { memory with starts := .ofFn fun i => some (lineLength * i) }

def line (store : LineStore) (address : Nat) : Line where
  start := store.starts[store.lineIndex address]
  words := store.peekWords address

def setLine (store : LineStore) (address : Nat) (line : Line) : LineStore :=
  { store with
    lines := store.lines.set (store.lineIndex address) line.words
    starts := store.starts.set (store.lineIndex address) line.start }

def withPending (store : LineStore) (pending : Option Pending) : LineStore :=
  { store with pending := pending }

def refuse (store : LineStore) (error : OutsideLine) : LineStore :=
  { store with refused := store.refused ++ [error] }

def write (store : LineStore) (address : Nat) (w : Word) : LineStore :=
  match (store.line address).write (store.wrap address) w with
  | .ok line => store.setLine address line
  | .error error => store.refuse error

def serve (store : LineStore) : Call → Answer × LineStore
  | .read address => (.word (((store.line address).get? (store.wrap address)).getD 0), store)
  | .readLine address => (.line (store.line address), store)
  | .write address w => (.written, store.write address w)
  | .store address w => (.written, store.write address w)
  | .writePartial address data =>
    match (store.line address).writePartial (store.wrap address) data with
    | .ok (line, count) => (.count count, store.setLine address line)
    | .error error => (.count 0, store.refuse error)
  | .putLine address words =>
    (.written, store.setLine address { start := some (store.lineStart address), words := words })

def poll (store : LineStore) (attempt : MainMemory.Attempt) : Poll Answer × LineStore :=
  match store.grant attempt.request with
  | (false, memory) => (.wait, { store with pending := memory.pending })
  | (true, memory) =>
    let (answer, store) := serve { store with pending := memory.pending } attempt.call
    (.done answer, store)

def pollAll (store : LineStore) (attempts : List MainMemory.Attempt) : LineStore :=
  attempts.foldl (fun store attempt => (store.poll attempt).2) store

end LineStore

namespace MainMemory

-- A line that begins where the line of an address does takes every access to the address.

section

variable {memory : MainMemory} {address : Nat} {line : Line}
  (hstart : line.start = some (memory.lineStart address))

include hstart

theorem get?_of_start :
    line.get? (memory.wrap address) = some (line.words.get (memory.offset address)) := by
  have hwrap := memory.wrap_eq_lineStart_add_offset address
  have hle : memory.lineStart address ≤ memory.wrap address := by omega
  have hsub : memory.wrap address - memory.lineStart address = memory.offset address := by omega
  simp only [Line.get?, hstart, Option.bind_some, if_pos hle, hsub]
  exact Vector.getElem?_eq_getElem (memory.offset address).isLt

theorem writePartial_of_start (data : List Word) : line.writePartial (memory.wrap address) data =
    .ok ({ line with words := patch line.words (memory.offset address) data },
      fitting (memory.offset address) data) := by
  have hwrap := memory.wrap_eq_lineStart_add_offset address
  have hoffset := (memory.offset address).isLt
  have hsub : memory.wrap address - memory.lineStart address = memory.offset address := by omega
  have hcontains : line.contains (memory.wrap address) = true := by
    simp only [Line.contains, hstart, Option.any_some, Bool.and_eq_true, decide_eq_true_eq]
    omega
  simp only [Line.writePartial, hstart, hcontains, if_true, hsub]

end

theorem peekLine_get? (memory : MainMemory) (address : Nat) :
    (memory.peekLine address).get? (memory.wrap address) = some (memory.peek address) :=
  get?_of_start rfl

theorem peekLine_writePartial (memory : MainMemory) (address : Nat) (data : List Word) :
    (memory.peekLine address).writePartial (memory.wrap address) data =
      .ok ({ start := some (memory.lineStart address)
             words := patch (memory.peekWords address) (memory.offset address) data },
        fitting (memory.offset address) data) :=
  writePartial_of_start rfl data

end MainMemory

namespace LineStore

variable (memory : MainMemory)

theorem line_of (address : Nat) : (of memory).line address = memory.peekLine address := by
  have hstart : (of memory).starts[(of memory).lineIndex address] =
      some (memory.lineStart address) := by
    rw [memory.lineStart_eq]
    exact Vector.getElem_ofFn _
  rw [line, hstart]
  rfl

-- A line that goes back to its own place leaves all lines in theirs.
theorem setLine_of (address : Nat) (words : Vector Word lineLength) :
    (of memory).setLine address { start := some (memory.lineStart address), words := words } =
      of (memory.putLine address words) := by
  have hstarts : ((of memory).starts.set ((of memory).lineIndex address)
      (some (memory.lineStart address))) = (of memory).starts := by
    rw [memory.lineStart_eq]
    apply Vector.ext
    intro i hi
    rw [Vector.getElem_set]
    split
    · rename_i hsame
      subst hsame
      have hplace :=
        Vector.getElem_ofFn (f := fun i : Fin memory.lineCount => some (lineLength * i)) hi
      exact hplace.symm
    · rfl
  rw [setLine]
  simp only [hstarts]
  rfl

theorem write_of (address : Nat) (w : Word) :
    (of memory).write address w = of (memory.put address w) := by
  have hline := line_of memory address
  have hwrite := memory.peekLine_writePartial address [w]
  have hwrap : (of memory).wrap address = memory.wrap address := rfl
  rw [write, hline, hwrap, Line.write, hwrite]
  show (of memory).setLine address _ = _
  rw [patch_singleton, setLine_of, MainMemory.put]

theorem serve_of (call : Call) :
    (of memory).serve call = ((memory.serve call).1, of (memory.serve call).2) := by
  cases call with
  | read address =>
      have hget := memory.peekLine_get? address
      have hwrap : (of memory).wrap address = memory.wrap address := rfl
      simp only [serve, line_of, hwrap, hget, Option.getD_some, MainMemory.serve]
  | readLine address => simp only [serve, line_of, MainMemory.serve]
  | write address w => simp only [serve, write_of, MainMemory.serve]
  | store address w => simp only [serve, write_of, MainMemory.serve]
  | writePartial address data =>
      have hwrite := memory.peekLine_writePartial address data
      have hwrap : (of memory).wrap address = memory.wrap address := rfl
      simp only [serve, line_of, hwrap, hwrite, setLine_of, MainMemory.serve]
  | putLine address words =>
      have hstart : (of memory).lineStart address = memory.lineStart address := rfl
      simp only [serve, hstart, setLine_of, MainMemory.serve]

theorem poll_of (attempt : MainMemory.Attempt) :
    (of memory).poll attempt = ((attempt.poll memory).1, of (attempt.poll memory).2) := by
  have hgrant : (of memory).grant attempt.request = memory.grant attempt.request := rfl
  rw [poll, hgrant, attempt.poll_eq, MainMemory.access]
  rcases memory.grant_cases attempt.request with h | ⟨pending, h⟩
  · have hserve := serve_of { memory with pending := none } attempt.call
    have hrequest : memory.grant ⟨attempt.issuer, attempt.call.address⟩ = _ := h
    rw [h, hrequest]
    exact congrArg (fun served : Answer × LineStore => (Poll.done served.1, served.2)) hserve
  · have hrequest : memory.grant ⟨attempt.issuer, attempt.call.address⟩ = _ := h
    rw [h, hrequest]
    rfl

theorem pollAll_of (attempts : List MainMemory.Attempt) :
    (of memory).pollAll attempts = of (memory.pollAll attempts) := by
  induction attempts generalizing memory with
  | nil => rfl
  | cons attempt rest ih =>
      show ((of memory).poll attempt).2.pollAll rest = _
      rw [poll_of]
      exact ih _

-- Every line starts where its addresses begin, and none has ever refused an access.
structure InOrder (store : LineStore) : Prop where
  start_eq : ∀ address, (store.line address).start = some (store.lineStart address)
  refused_eq : store.refused = []

theorem inOrder_of : (of memory).InOrder where
  start_eq address := congrArg Line.start (line_of memory address)
  refused_eq := rfl

variable {memory}

-- How an idle memory deals with whoever polls it from then on, whatever and in whatever order. An
-- attempt is done if it is in its turn and has been made once more than the delay; it waits without
-- effect otherwise. What is done is done at the address modulo the capacity, and no line refuses
-- it.
theorem obeys_of_idle (hidle : memory.pending = none) (attempts : List MainMemory.Attempt) :
    (memory.pollAll attempts).delay = memory.delay ∧
      (memory.pollAll attempts).capacity = memory.capacity ∧
      (∃ before since, attempts = before ++ since ∧ memory.LastIdle before since ∧
        ∀ next : MainMemory.Attempt, next.Obeys (memory.pollAll attempts) since) ∧
      ((of memory).pollAll attempts).InOrder ∧
      ∀ next : MainMemory.Attempt, ((of memory).pollAll attempts).poll next =
        ((next.poll (memory.pollAll attempts)).1, of (next.poll (memory.pollAll attempts)).2) := by
  obtain ⟨hcount, hdelay⟩ := memory.pollAll_keeps attempts
  obtain ⟨before, since, hsplit, hlast, hcounts⟩ := MainMemory.exists_lastIdle hidle attempts
  rw [pollAll_of]
  exact ⟨hdelay, MainMemory.capacity_congr hcount, ⟨before, since, hsplit, hlast, hcounts.obeys⟩,
    inOrder_of _, poll_of _⟩

-- Two issuers who ask for different words, past the end of memory.
theorem obeys_of_two_issuers :
    (MainMemory.zeroed 2 1 (by decide)).pending = none ∧
      ∃ before since, [⟨.memory, .store 13 7⟩, ⟨.fetch, .read 5⟩] = before ++ since ∧
        (MainMemory.zeroed 2 1 (by decide)).LastIdle before since ∧
        ∀ next : MainMemory.Attempt, next.Obeys ((MainMemory.zeroed 2 1 (by decide)).pollAll
          [⟨.memory, .store 13 7⟩, ⟨.fetch, .read 5⟩]) since :=
  ⟨rfl, (obeys_of_idle rfl _).2.2.1⟩

end LineStore

end PipelinedProcessor
