import Mathlib.Data.List.Induction
import PipelinedProcessor.Proofs.Cache.Moves
import PipelinedProcessor.Proofs.Memory.LiveStorage
import PipelinedProcessor.Proofs.Memory.Storage

namespace PipelinedProcessor

namespace MainMemory

open Cache (Call Answer)

-- One try of a call. Main memory takes the calls that a cache takes, whole lines at once.
structure Attempt where
  issuer : Stage
  call : Call

def Attempt.request (attempt : Attempt) : Request := ⟨attempt.issuer, attempt.call.address⟩

def Attempt.poll (attempt : Attempt) (memory : MainMemory) : Poll Answer × MainMemory :=
  match attempt.call with
  | .read address =>
    let (answer, memory) := memory.read attempt.issuer address
    (answer.map .word, memory)
  | .readLine address =>
    let (answer, memory) := memory.readLine attempt.issuer address
    (answer.map .line, memory)
  | .write address w =>
    let (answer, memory) := memory.write attempt.issuer address w
    (answer.map fun _ => .written, memory)
  | .store address w =>
    let (answer, memory) := Storage.store memory attempt.issuer address w
    (answer.map fun _ => .written, memory)
  | .writePartial address data =>
    let (answer, memory) := memory.writePartial attempt.issuer address data
    (answer.map .count, memory)
  | .putLine address words =>
    let (answer, memory) := memory.writeLine attempt.issuer address words
    (answer.map fun _ => .written, memory)

def pollAll (memory : MainMemory) (attempts : List Attempt) : MainMemory :=
  attempts.foldl (fun memory attempt => (attempt.poll memory).2) memory

theorem pollAll_append (memory : MainMemory) (first second : List Attempt) :
    memory.pollAll (first ++ second) = (memory.pollAll first).pollAll second := List.foldl_append

-- What a call does when its turn has come.
def serve (memory : MainMemory) : Call → Answer × MainMemory
  | .read address => (.word (memory.peek address), memory)
  | .readLine address => (.line (memory.peekLine address), memory)
  | .write address w => (.written, memory.put address w)
  | .store address w => (.written, memory.put address w)
  | .writePartial address data =>
    let offset := memory.offset address
    (.count (fitting offset data),
      memory.putLine address (patch (memory.peekWords address) offset data))
  | .putLine address words => (.written, memory.putLine address words)

theorem access_map {α β : Type} (f : α → β) (memory : MainMemory) (issuer : Stage) (address : Nat)
    (serve : MainMemory → α × MainMemory) :
    ((memory.access issuer address serve).1.map f, (memory.access issuer address serve).2) =
      memory.access issuer address fun memory => (f (serve memory).1, (serve memory).2) := by
  unfold access
  rcases memory.grant ⟨issuer, address⟩ with ⟨_ | _, memory⟩ <;> rfl

-- All six accesses are one, that of which only what it does in its turn differs.
theorem Attempt.poll_eq (attempt : Attempt) (memory : MainMemory) :
    attempt.poll memory =
      memory.access attempt.issuer attempt.call.address (·.serve attempt.call) := by
  obtain ⟨issuer, call⟩ := attempt
  cases call with
  | read address =>
      exact memory.access_map Answer.word issuer address fun memory => (memory.peek address, memory)
  | readLine address =>
      exact memory.access_map Answer.line issuer address fun memory =>
        (memory.peekLine address, memory)
  | write address w =>
      exact memory.access_map (fun _ => Answer.written) issuer address fun memory =>
        ((), memory.put address w)
  | store address w =>
      exact memory.access_map (fun _ => Answer.written) issuer address fun memory =>
        ((), memory.put address w)
  | writePartial address data =>
      exact memory.access_map Answer.count issuer address fun memory =>
        (fitting (memory.offset address) data,
          memory.putLine address (patch (memory.peekWords address) (memory.offset address) data))
  | putLine address words =>
      exact memory.access_map (fun _ => Answer.written) issuer address fun memory =>
        ((), memory.putLine address words)

theorem peek_putLine (memory : MainMemory) (address : Nat) (words : Vector Word lineLength) :
    (memory.putLine address words).peek =
      MemoryView.putAll memory.capacity memory.peek (memory.lineStart address) words.toList := by
  rw [← wordsOf_peekWords memory, ← wordsOf_line]
  funext other
  show ((memory.putLine address words).peekWords other).get (memory.offset other) = _
  simp only [peekWords_putLine', wordsOf, eq_comm]

-- In its turn a call reads and writes the words that it is about, and leaves all else.
theorem serve_spec (memory : MainMemory) (call : Call) :
    (memory.serve call).1 = call.reply memory.capacity memory.peek ∧
      (memory.serve call).2.peek = call.effect memory.capacity memory.peek ∧
      ∃ lines, (memory.serve call).2 = { memory with lines := lines } := by
  cases call with
  | read address => exact ⟨rfl, rfl, memory.lines, rfl⟩
  | readLine address =>
      refine ⟨?_, rfl, memory.lines, rfl⟩
      have hline : memory.peekLine address = {
          start := some (memory.lineStart address)
          words := .ofFn fun i => memory.peek (memory.lineStart address + i) } := by
        rw [← peekWords_eq_ofFn]
        rfl
      exact congrArg Answer.line hline
  | write address w => exact ⟨rfl, memory.peek_put_eq address w, _, rfl⟩
  | store address w => exact ⟨rfl, memory.peek_put_eq address w, _, rfl⟩
  | writePartial address data =>
      refine ⟨?_, ?_, _, rfl⟩
      · simp only [serve, Call.reply, fitting, offset_val]
      · have heffect := memory.peek_putLine_patch address data
        have hoffset := memory.offset_val address
        simp only [serve, Call.effect]
        rw [heffect, fitting, hoffset]
  | putLine address words => exact ⟨rfl, memory.peek_putLine address words, _, rfl⟩

theorem Attempt.poll_of_busy {memory : MainMemory} {attempt : Attempt} {pending : Pending}
    (hpending : memory.pending = some pending) (hne : pending.request ≠ attempt.request) :
    attempt.poll memory = (.wait, memory) := by
  rw [poll_eq]
  exact access_of_busy attempt.issuer attempt.call.address _ hpending hne

-- An attempt at what memory is busy with, or at anything if it is idle.
theorem Attempt.poll_of_turn {memory : MainMemory} {attempt : Attempt} {remaining : Nat}
    (hturn : memory.pending.getD ⟨attempt.request, memory.delay⟩ = ⟨attempt.request, remaining⟩) :
    attempt.poll memory =
      if remaining = 0 then
        (.done (attempt.call.reply memory.capacity memory.peek),
          (({ memory with pending := none } : MainMemory).serve attempt.call).2)
      else (.wait, { memory with pending := some ⟨attempt.request, remaining - 1⟩ }) := by
  have hreply := (({ memory with pending := none } : MainMemory).serve_spec attempt.call).1
  rw [poll_eq, access, grant]
  simp only [Attempt.request] at hturn ⊢
  by_cases hzero : remaining = 0
  · simp only [hturn, hzero, ne_eq, not_true_eq_false, if_false, if_true, hreply]
    rfl
  · simp only [hturn, hzero, ne_eq, not_true_eq_false, if_false]

theorem Attempt.poll_keeps (attempt : Attempt) (memory : MainMemory) :
    (attempt.poll memory).2.lineCount = memory.lineCount ∧
      (attempt.poll memory).2.delay = memory.delay := by
  rw [poll_eq]
  rcases memory.access_cases attempt.issuer attempt.call.address (·.serve attempt.call) with
    ⟨pending, h⟩ | h
  · rw [h]
    exact ⟨rfl, rfl⟩
  · obtain ⟨-, -, lines, hlines⟩ :=
      ({ memory with pending := none } : MainMemory).serve_spec attempt.call
    rw [h, hlines]
    exact ⟨rfl, rfl⟩

theorem pollAll_keeps (memory : MainMemory) (attempts : List Attempt) :
    (memory.pollAll attempts).lineCount = memory.lineCount ∧
      (memory.pollAll attempts).delay = memory.delay := by
  induction attempts generalizing memory with
  | nil => exact ⟨rfl, rfl⟩
  | cons attempt rest ih =>
      obtain ⟨hcount, hdelay⟩ := attempt.poll_keeps memory
      obtain ⟨hcount', hdelay'⟩ := ih (attempt.poll memory).2
      exact ⟨hcount'.trans hcount, hdelay'.trans hdelay⟩

-- Whether the first attempt since memory was idle was at the same, if there was one.
def Attempt.InTurn (since : List Attempt) (next : Attempt) : Prop :=
  ∀ first ∈ since.head?, first.request = next.request

-- How often the same was attempted.
def Attempt.countIn (attempts : List Attempt) (attempt : Attempt) : Nat :=
  attempts.countP (·.request = attempt.request)

-- What the next attempt comes to, after these attempts since memory was last idle.
structure Attempt.Obeys (memory : MainMemory) (since : List Attempt) (next : Attempt) : Prop where
  done_iff : (next.poll memory).1.isDone ↔
    next.InTurn since ∧ next.countIn (since ++ [next]) = memory.delay + 1
  starves : ¬ next.InTurn since → next.poll memory = (.wait, memory)
  wait : (next.poll memory).1 = .wait →
    ∃ pending, (next.poll memory).2 = { memory with pending := pending }
  done : ∀ answer, (next.poll memory).1 = .done answer →
    answer = next.call.reply memory.capacity memory.peek ∧
      (next.poll memory).2.peek = next.call.effect memory.capacity memory.peek ∧
      ∃ lines, (next.poll memory).2 = { memory with pending := none, lines := lines }

-- What memory is busy with after these attempts, the first of which found it idle and of which none
-- was done: with the first, which every attempt at the same brings nearer.
def armed (delay : Nat) (since : List Attempt) : Option Pending :=
  since.head?.map fun first => ⟨first.request, delay - first.countIn since⟩

section

variable {since : List Attempt} {next : Attempt}

theorem Attempt.countIn_append : next.countIn (since ++ [next]) = next.countIn since + 1 := by
  simp [countIn]

theorem Attempt.countIn_congr {attempt : Attempt} (h : attempt.request = next.request) :
    attempt.countIn since = next.countIn since := by
  simp only [countIn, h]

theorem armed_of_inTurn (delay : Nat) (hturn : next.InTurn since) :
    (armed delay since).getD ⟨next.request, delay⟩ =
      ⟨next.request, delay - next.countIn since⟩ := by
  cases since with
  | nil => rfl
  | cons first rest =>
      have hfirst : first.request = next.request := hturn first rfl
      simp only [armed, List.head?_cons, Option.map_some, Option.getD_some, hfirst,
        Attempt.countIn_congr hfirst]

theorem armed_append_of_inTurn (delay : Nat) (hturn : next.InTurn since) :
    armed delay (since ++ [next]) = some ⟨next.request, delay - next.countIn since - 1⟩ := by
  cases since with
  | nil => simp [armed, Attempt.countIn]
  | cons first rest =>
      have hfirst : first.request = next.request := hturn first rfl
      simp only [armed, List.cons_append, List.head?_cons, Option.map_some, hfirst]
      rw [Attempt.countIn_congr hfirst, ← List.cons_append, Attempt.countIn_append, Nat.sub_add_eq]

-- An attempt out of turn is not counted.
theorem countIn_append_of_not_inTurn (hother : ¬ next.InTurn since) :
    ∀ first ∈ since.head?, first.countIn (since ++ [next]) = first.countIn since := by
  intro first hfirst
  have hne : next.request ≠ first.request := by
    intro heq
    apply hother
    intro head hhead
    obtain rfl := Option.mem_unique hfirst hhead
    exact heq.symm
  simp [Attempt.countIn, hne]

theorem head?_append_of_not_inTurn (hother : ¬ next.InTurn since) :
    (since ++ [next]).head? = since.head? := by
  cases since with
  | nil => exact absurd nofun hother
  | cons first rest => rfl

end

-- A memory that is busy with what these attempts have armed, and has counted no more of them than
-- it lets wait.
structure Counts (memory : MainMemory) (since : List Attempt) : Prop where
  pending_eq : memory.pending = armed memory.delay since
  countIn_le : ∀ first ∈ since.head?, first.countIn since ≤ memory.delay

theorem counts_of_idle {memory : MainMemory} (h : memory.pending = none) : memory.Counts [] where
  pending_eq := h
  countIn_le := nofun

namespace Counts

variable {memory : MainMemory} {since : List Attempt} {next : Attempt}

theorem countIn_le_of_inTurn (h : memory.Counts since) (hturn : next.InTurn since) :
    next.countIn since ≤ memory.delay := by
  cases since with
  | nil => exact Nat.zero_le _
  | cons first rest =>
      rw [← Attempt.countIn_congr (hturn first rfl)]
      exact h.countIn_le first rfl

-- An attempt in its turn is done if it has waited long enough, and is counted otherwise.
theorem poll_of_inTurn (h : memory.Counts since) (hturn : next.InTurn since) :
    next.countIn since = memory.delay ∧ next.poll memory =
        (.done (next.call.reply memory.capacity memory.peek),
          (({ memory with pending := none } : MainMemory).serve next.call).2) ∨
      next.countIn since < memory.delay ∧ next.poll memory =
        (.wait, { memory with pending := armed memory.delay (since ++ [next]) }) := by
  have hle := h.countIn_le_of_inTurn hturn
  have hpoll := Attempt.poll_of_turn (h.pending_eq ▸ armed_of_inTurn memory.delay hturn)
  rw [armed_append_of_inTurn memory.delay hturn]
  by_cases hlast : next.countIn since = memory.delay
  · rw [if_pos (by omega)] at hpoll
    exact .inl ⟨hlast, hpoll⟩
  · rw [if_neg (by omega)] at hpoll
    exact .inr ⟨by omega, hpoll⟩

-- Any other attempt waits without effect.
theorem poll_of_not_inTurn (h : memory.Counts since) (hother : ¬ next.InTurn since) :
    next.poll memory = (.wait, memory) := by
  cases since with
  | nil => exact absurd nofun hother
  | cons first rest =>
      refine Attempt.poll_of_busy h.pending_eq ?_
      intro heq
      apply hother
      rintro _ ⟨⟩
      exact heq

theorem obeys (h : memory.Counts since) (next : Attempt) : next.Obeys memory since := by
  by_cases hturn : next.InTurn since
  · have hcount : next.countIn (since ++ [next]) = next.countIn since + 1 := Attempt.countIn_append
    rcases h.poll_of_inTurn hturn with ⟨hlast, hpoll⟩ | ⟨hlt, hpoll⟩
    · obtain ⟨-, heffect, lines, hlines⟩ :=
        ({ memory with pending := none } : MainMemory).serve_spec next.call
      exact {
        done_iff := by
          rw [hpoll, hcount, hlast]
          exact ⟨fun _ => ⟨hturn, rfl⟩, fun _ => rfl⟩
        starves := fun hother => absurd hturn hother
        wait := by
          rw [hpoll]
          nofun
        done := by
          rw [hpoll]
          intro answer hanswer
          exact ⟨(Poll.done.inj hanswer).symm, heffect, lines, hlines⟩ }
    · exact {
        done_iff := by
          rw [hpoll, hcount]
          constructor
          · nofun
          · rintro ⟨-, heq⟩
            omega
        starves := fun hother => absurd hturn hother
        wait := fun _ => ⟨_, congrArg Prod.snd hpoll⟩
        done := by
          rw [hpoll]
          nofun }
  · have hpoll := h.poll_of_not_inTurn hturn
    exact {
      done_iff := by
        rw [hpoll]
        exact ⟨nofun, fun hdone => absurd hdone.1 hturn⟩
      starves := fun _ => hpoll
      wait := fun _ => ⟨memory.pending, congrArg Prod.snd hpoll⟩
      done := by
        rw [hpoll]
        nofun }

-- Afterwards memory is idle, or busy and has counted this attempt with the others.
theorem poll (h : memory.Counts since) (next : Attempt) :
    (next.poll memory).2.pending = none ∨
      (next.poll memory).2.pending ≠ none ∧ (next.poll memory).2.Counts (since ++ [next]) := by
  by_cases hturn : next.InTurn since
  · rcases h.poll_of_inTurn hturn with ⟨-, hpoll⟩ | ⟨hlt, hpoll⟩
    · obtain ⟨-, -, lines, hlines⟩ :=
        ({ memory with pending := none } : MainMemory).serve_spec next.call
      left
      rw [hpoll, hlines]
    · right
      rw [hpoll]
      refine ⟨?_, rfl, ?_⟩
      · rw [armed_append_of_inTurn memory.delay hturn]
        exact Option.some_ne_none _
      · intro first hfirst
        have hsame : first.request = next.request := by
          cases since with
          | nil => rw [Option.some.inj hfirst]
          | cons head rest => exact hturn first hfirst
        rw [Attempt.countIn_congr hsame, Attempt.countIn_append]
        exact hlt
  · right
    rw [h.poll_of_not_inTurn hturn]
    have hhead := head?_append_of_not_inTurn hturn
    have hcount := countIn_append_of_not_inTurn hturn
    refine ⟨?_, ?_, ?_⟩
    · cases since with
      | nil => exact absurd nofun hturn
      | cons first rest =>
          rw [h.pending_eq]
          exact Option.some_ne_none _
    · rw [h.pending_eq, armed, armed, hhead]
      refine Option.map_congr fun first hfirst => ?_
      rw [hcount first hfirst]
    · rw [hhead]
      intro first hfirst
      rw [hcount first hfirst]
      exact h.countIn_le first hfirst

end Counts

-- Where attempts begin before which memory was idle for the last time.
structure LastIdle (memory : MainMemory) (before since : List Attempt) : Prop where
  idle : (memory.pollAll before).pending = none
  busy : ∀ n, 0 < n → n ≤ since.length → (memory.pollAll (before ++ since.take n)).pending ≠ none

theorem lastIdle_of_idle {memory : MainMemory} {before : List Attempt}
    (h : (memory.pollAll before).pending = none) : memory.LastIdle before [] where
  idle := h
  busy _ hpos hle := absurd hpos (Nat.not_lt_of_le hle)

theorem LastIdle.append {memory : MainMemory} {before since : List Attempt} {next : Attempt}
    (h : memory.LastIdle before since)
    (hbusy : (memory.pollAll (before ++ since ++ [next])).pending ≠ none) :
    memory.LastIdle before (since ++ [next]) where
  idle := h.idle
  busy n hpos hle := by
    rw [List.length_append, List.length_singleton] at hle
    by_cases hlt : n ≤ since.length
    · rw [List.take_append_of_le_length hlt]
      exact h.busy n hpos hlt
    · have hall : n = (since ++ [next]).length := by
        simp only [List.length_append, List.length_singleton]
        omega
      rw [hall, List.take_length, ← List.append_assoc]
      exact hbusy

-- At every point of a run there is a last one at which memory was idle, and what it is busy with is
-- what was attempted since.
theorem exists_lastIdle {memory : MainMemory} (hidle : memory.pending = none)
    (attempts : List Attempt) :
    ∃ before since, attempts = before ++ since ∧ memory.LastIdle before since ∧
      (memory.pollAll attempts).Counts since := by
  induction attempts using List.reverseRecOn with
  | nil => exact ⟨[], [], rfl, lastIdle_of_idle hidle, counts_of_idle hidle⟩
  | append_singleton attempts next ih =>
      obtain ⟨before, since, rfl, hlast, hcounts⟩ := ih
      have hnext : memory.pollAll (before ++ since ++ [next]) =
          (next.poll (memory.pollAll (before ++ since))).2 := memory.pollAll_append _ [next]
      rcases hcounts.poll next with hdone | ⟨hbusy, hcounts⟩
      · rw [← hnext] at hdone
        exact ⟨before ++ since ++ [next], [], (List.append_nil _).symm, lastIdle_of_idle hdone,
          counts_of_idle hdone⟩
      · rw [← hnext] at hbusy hcounts
        exact ⟨before, since ++ [next], List.append_assoc .., hlast.append hbusy, hcounts⟩

end MainMemory

end PipelinedProcessor
