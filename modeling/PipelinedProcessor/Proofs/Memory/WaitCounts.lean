import PipelinedProcessor.Proofs.Memory.Lemmas

namespace PipelinedProcessor

namespace Poll

section

variable {σ α : Type} {access : σ → Poll α × σ} {Good : σ → Prop} {waits : σ → Nat}

-- An access of which it can be told beforehand how often it has to wait.
structure Timed (access : σ → Poll α × σ) (Good : σ → Prop) (waits : σ → Nat) : Prop where
  wait : ∀ {s s' : σ}, Good s → access s = (.wait, s') → Good s' ∧ waits s' + 1 = waits s
  done : ∀ {s s' : σ} {value : α}, Good s → access s = (.done value, s') → waits s = 0

theorem Timed.repeated_of_lt (h : Timed access Good waits) {limit : Nat} {s : σ} (hgood : Good s)
    (hlt : waits s < limit) : ∃ value, (repeated access limit s).1 = some (value, waits s + 1) := by
  induction limit generalizing s with
  | zero => omega
  | succ limit ih =>
      rw [repeated]
      rcases haccess : access s with ⟨answer, next⟩
      cases answer with
      | wait =>
          obtain ⟨hnext, hwaits⟩ := h.wait hgood haccess
          obtain ⟨value, hrest⟩ := ih hnext (by omega)
          exact ⟨value, by simp only [hrest, Option.map_some, hwaits]⟩
      | done value => exact ⟨value, by simp only [h.done hgood haccess, Nat.zero_add]⟩

-- Fewer tries are not enough.
theorem Timed.repeated_of_le (h : Timed access Good waits) {limit : Nat} {s : σ} (hgood : Good s)
    (hle : limit ≤ waits s) : (repeated access limit s).1 = none := by
  induction limit generalizing s with
  | zero => rfl
  | succ limit ih =>
      rw [repeated]
      rcases haccess : access s with ⟨answer, next⟩
      cases answer with
      | wait =>
          obtain ⟨hnext, hwaits⟩ := h.wait hgood haccess
          simp only [ih hnext (by omega), Option.map_none]
      | done value =>
          have hzero := h.done hgood haccess
          omega

end

end Poll

namespace MainMemory

-- Memory serves nobody but perhaps the issuer.
def FreeFor (memory : MainMemory) (issuer : Stage) : Prop :=
  ∀ pending, memory.pending = some pending → pending.request.issuer = issuer

theorem freeFor_of_idle {memory : MainMemory} (h : memory.pending = none) (issuer : Stage) :
    memory.FreeFor issuer :=
  fun _ hpending => nomatch h.symm.trans hpending

-- How often a request has to wait if memory serves nobody else. One that memory is not busy with
-- begins anew.
def due (memory : MainMemory) (request : Request) : Nat :=
  match memory.pending with
  | none => memory.delay
  | some pending => if pending.request = request then pending.remaining else memory.delay

theorem due_of_idle {memory : MainMemory} (h : memory.pending = none) (request : Request) :
    memory.due request = memory.delay := by
  simp only [due, h]

theorem due_of_pending {memory : MainMemory} {request : Request} {remaining : Nat}
    (h : memory.pending = some ⟨request, remaining⟩) : memory.due request = remaining := by
  simp only [due, h, if_true]

section

variable {α : Type} {memory : MainMemory} (issuer : Stage) (address : Nat)
  (serve : MainMemory → α × MainMemory)

-- Every try that waits brings the request one nearer to the try that serves it.
theorem access_of_turn
    (hmine : ∀ pending, memory.pending = some pending → pending.request = ⟨issuer, address⟩) :
    (memory.due ⟨issuer, address⟩ = 0 ∧ memory.access issuer address serve =
      (.done (serve { memory with pending := none }).1,
        (serve { memory with pending := none }).2)) ∨
    ∃ r, memory.due ⟨issuer, address⟩ = r + 1 ∧ memory.access issuer address serve =
      (.wait, { memory with pending := some ⟨⟨issuer, address⟩, r⟩ }) := by
  have hcounted : memory.pending.getD ⟨⟨issuer, address⟩, memory.delay⟩ =
      ⟨⟨issuer, address⟩, memory.due ⟨issuer, address⟩⟩ := by
    cases hpending : memory.pending with
    | none => rw [due_of_idle hpending, Option.getD_none]
    | some pending =>
        obtain ⟨request, remaining⟩ := pending
        obtain rfl : request = ⟨issuer, address⟩ := hmine _ hpending
        rw [due_of_pending hpending, Option.getD_some]
  cases hdue : memory.due ⟨issuer, address⟩ with
  | zero =>
      left
      rw [hdue] at hcounted
      simp [access, grant, hcounted]
  | succ r =>
      right
      rw [hdue] at hcounted
      exact ⟨r, rfl, by simp [access, grant, hcounted]⟩

-- The same where an issuer gives up what it asked for before.
theorem renewed_of_turn (hfree : memory.FreeFor issuer) :
    (memory.due ⟨issuer, address⟩ = 0 ∧
      (memory.releaseOthers ⟨issuer, address⟩).access issuer address serve =
        (.done (serve { memory with pending := none }).1,
          (serve { memory with pending := none }).2)) ∨
    ∃ r, memory.due ⟨issuer, address⟩ = r + 1 ∧
      (memory.releaseOthers ⟨issuer, address⟩).access issuer address serve =
        (.wait, { memory with pending := some ⟨⟨issuer, address⟩, r⟩ }) := by
  by_cases hmine : ∀ pending, memory.pending = some pending → pending.request = ⟨issuer, address⟩
  · have hkept : memory.releaseOthers ⟨issuer, address⟩ = memory := by
      unfold releaseOthers
      cases hpending : memory.pending with
      | none => simp
      | some pending => simp [hmine pending hpending]
    rw [hkept]
    exact access_of_turn issuer address serve hmine
  · obtain ⟨pending, hpending, hne⟩ :
        ∃ pending, memory.pending = some pending ∧ pending.request ≠ ⟨issuer, address⟩ := by
      simpa using hmine
    have hgone : memory.releaseOthers ⟨issuer, address⟩ = { memory with pending := none } := by
      simp [releaseOthers, hpending, hfree pending hpending, hne]
    have hdue : memory.due ⟨issuer, address⟩ =
        ({ memory with pending := none } : MainMemory).due ⟨issuer, address⟩ := by
      simp only [due, hpending, hne, if_false]
    rw [hgone, hdue]
    exact access_of_turn issuer address serve (by simp)

end

-- A request of which memory keeps count has not to wait longer than one that begins.
def Prompt (memory : MainMemory) : Prop :=
  ∀ pending, memory.pending = some pending → pending.remaining ≤ memory.delay

theorem prompt_of_idle {memory : MainMemory} (h : memory.pending = none) : memory.Prompt :=
  fun _ hpending => nomatch h.symm.trans hpending

theorem Prompt.due_le {memory : MainMemory} (h : memory.Prompt) (request : Request) :
    memory.due request ≤ memory.delay := by
  unfold due
  split
  · exact Nat.le_refl _
  · rename_i pending hpending
    split
    · exact h pending hpending
    · exact Nat.le_refl _

end MainMemory

end PipelinedProcessor
