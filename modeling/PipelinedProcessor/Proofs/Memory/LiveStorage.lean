import PipelinedProcessor.Proofs.Memory.WaitCounts

namespace PipelinedProcessor

def Poll.isDone {α : Type} : Poll α → Bool
  | wait => false
  | done _ => true

theorem Poll.isDone_map {α β : Type} (f : α → β) (answer : Poll α) :
    (answer.map f).isDone = answer.isDone := by
  cases answer <;> rfl

-- One of the accesses that the stages make.
inductive Access where
  | read (address : Nat)
  | store (address : Nat) (w : Word)
  | writePartial (address : Nat) (data : List Word)

namespace Access

def address : Access → Nat
  | read address => address
  | store address _ => address
  | writePartial address _ => address

-- Whether a try is the last, and what it leaves.
def attempt {σ : Type} [Storage σ] (access : Access) (s : σ) (issuer : Stage) : Bool × σ :=
  match access with
  | read address => ((Storage.read s issuer address).1.isDone, (Storage.read s issuer address).2)
  | store address w =>
    ((Storage.store s issuer address w).1.isDone, (Storage.store s issuer address w).2)
  | writePartial address data =>
    ((Storage.writePartial s issuer address data).1.isDone,
      (Storage.writePartial s issuer address data).2)

end Access

-- A memory that answers in the end. It is idle or serves an issuer, who takes it when it is idle
-- and whom it counts down with every try; what the others ask for in the meantime changes nothing
-- for the one that is served.
class LiveStorage (σ : Type) [Storage σ] where
  owner : σ → Option Stage
  -- what is served is part of the access
  Attends : σ → Stage → Access → Prop
  idle : σ → Nat
  patience : σ → Stage → Access → Nat
  wait_own : ∀ {s s' : σ} {issuer : Stage} {access : Access},
    owner s = none ∨ owner s = some issuer ∧ Attends s issuer access →
    access.attempt s issuer = (false, s') →
    owner s' = some issuer ∧ Attends s' issuer access ∧
      patience s' issuer access < if owner s = none then idle s else patience s issuer access
  wait_other : ∀ {s s' : σ} {issuer other : Stage} {access : Access}, owner s = some other →
    other ≠ issuer → access.attempt s issuer = (false, s') →
    owner s' = some other ∧ ∀ a, Attends s other a →
      Attends s' other a ∧ patience s' other a ≤ patience s other a
  done : ∀ {s s' : σ} {issuer other : Stage} {access : Access},
    access.attempt s issuer = (true, s') →
    owner s' = some other → other ≠ issuer ∧ owner s = some other ∧
      ∀ a, Attends s other a → Attends s' other a

namespace MainMemory

def owner (memory : MainMemory) : Option Stage := memory.pending.map (·.request.issuer)

-- How often a request has still to be tried. One that memory is not busy with begins anew.
def left (memory : MainMemory) (request : Request) : Nat :=
  match memory.pending with
  | none => memory.delay + 1
  | some pending => if pending.request = request then pending.remaining else memory.delay + 1

variable {α : Type} {memory : MainMemory} (issuer : Stage) (address : Nat)
  (serve : MainMemory → α × MainMemory)

theorem access_of_busy {pending : Pending} (hpending : memory.pending = some pending)
    (hne : pending.request ≠ ⟨issuer, address⟩) :
    memory.access issuer address serve = (.wait, memory) := by
  simp only [access, grant, hpending, Option.getD_some, hne, ne_eq, not_false_eq_true, if_true]

theorem lt_left_of_due {request : Request} {r : Nat} (h : memory.due request = r + 1) :
    r < memory.left request := by
  unfold due at h
  unfold left
  cases hpending : memory.pending with
  | none =>
      simp only [hpending] at h ⊢
      omega
  | some pending =>
      simp only [hpending] at h ⊢
      split at h
      · simp only [*, if_true]
        omega
      · simp only [*, if_false]
        omega

-- A request that is served or can be.
theorem access_of_free
    (hfree : ∀ pending, memory.pending = some pending → pending.request = ⟨issuer, address⟩) :
    (∃ r, r < memory.left ⟨issuer, address⟩ ∧ memory.access issuer address serve =
      (.wait, { memory with pending := some ⟨⟨issuer, address⟩, r⟩ })) ∨
    memory.access issuer address serve =
      (.done (serve { memory with pending := none }).1,
        (serve { memory with pending := none }).2) := by
  rcases access_of_turn issuer address serve hfree with ⟨-, hdone⟩ | ⟨r, hdue, hwait⟩
  · exact .inr hdone
  · exact .inl ⟨r, lt_left_of_due hdue, hwait⟩

-- The same where an issuer gives up what it asked for before.

theorem renewed_of_busy {pending : Pending} (hpending : memory.pending = some pending)
    (hne : pending.request.issuer ≠ issuer) :
    (memory.releaseOthers ⟨issuer, address⟩).access issuer address serve = (.wait, memory) := by
  have hsame : memory.releaseOthers ⟨issuer, address⟩ = memory := by
    simp [releaseOthers, hpending, hne]
  rw [hsame]
  refine access_of_busy issuer address serve hpending ?_
  rintro heq
  exact hne (congrArg Request.issuer heq)

theorem renewed_of_free (hfree : memory.FreeFor issuer) :
    (∃ r, r < memory.left ⟨issuer, address⟩ ∧
      (memory.releaseOthers ⟨issuer, address⟩).access issuer address serve =
        (.wait, { memory with pending := some ⟨⟨issuer, address⟩, r⟩ })) ∨
    (memory.releaseOthers ⟨issuer, address⟩).access issuer address serve =
      (.done (serve { memory with pending := none }).1,
        (serve { memory with pending := none }).2) := by
  rcases renewed_of_turn issuer address serve hfree with ⟨-, hdone⟩ | ⟨r, hdue, hwait⟩
  · exact .inr hdone
  · exact .inl ⟨r, lt_left_of_due hdue, hwait⟩

-- Every access of main memory alone is of this kind.
theorem attempt_eq (access : Access) (memory : MainMemory) (issuer : Stage) :
    ∃ (α : Type) (serve : MainMemory → α × MainMemory),
      (∀ m, (serve m).2.pending = m.pending ∧ (serve m).2.delay = m.delay) ∧
      access.attempt memory issuer = ((memory.access issuer access.address serve).1.isDone,
        (memory.access issuer access.address serve).2) := by
  cases access with
  | read address => exact ⟨Word, fun m => (m.peek address, m), fun _ => ⟨rfl, rfl⟩, rfl⟩
  | store address w => exact ⟨Unit, fun m => ((), m.put address w), fun _ => ⟨rfl, rfl⟩, rfl⟩
  | writePartial address data =>
      exact ⟨Nat, fun m => (fitting (m.offset address) data,
        m.putLine address (patch (m.peekWords address) (m.offset address) data)),
        fun _ => ⟨rfl, rfl⟩, rfl⟩

theorem owner_eq_some {stage : Stage} :
    memory.owner = some stage ↔ ∃ pending, memory.pending = some pending ∧
    pending.request.issuer = stage :=
  Option.map_eq_some_iff

theorem owner_eq_none : memory.owner = none ↔ memory.pending = none := Option.map_eq_none_iff

end MainMemory

instance : LiveStorage MainMemory where
  owner := MainMemory.owner
  Attends memory issuer access :=
    ∀ pending, memory.pending = some pending → pending.request.issuer = issuer →
      pending.request.address = access.address
  idle memory := memory.delay + 1
  patience memory issuer access := memory.left ⟨issuer, access.address⟩
  wait_own := by
    intro memory after issuer access hfree hwait
    obtain ⟨α, serve, -, hattempt⟩ := MainMemory.attempt_eq access memory issuer
    rw [hattempt] at hwait
    have hmine (pending : Pending) (hpending : memory.pending = some pending) :
        pending.request = ⟨issuer, access.address⟩ := by
      rcases hfree with hnone | ⟨howner, hattends⟩
      · rw [MainMemory.owner_eq_none, hpending] at hnone
        cases hnone
      · obtain ⟨other, hother, hissuer⟩ := MainMemory.owner_eq_some.mp howner
        obtain rfl := Option.some.inj (hpending.symm.trans hother)
        have haddress := hattends pending hpending hissuer
        obtain ⟨⟨stage, address⟩, remaining⟩ := pending
        simp_all
    rcases MainMemory.access_of_free issuer access.address serve hmine with
      ⟨r, hlt, hresult⟩ | hresult
    · rw [hresult] at hwait
      obtain ⟨-, rfl⟩ := Prod.mk.inj hwait
      refine ⟨rfl, ?_, ?_⟩
      · intro pending hpending _
        obtain rfl := Option.some.inj hpending
        rfl
      · have hafter :
            ({ memory with pending := some ⟨⟨issuer, access.address⟩, r⟩ } : MainMemory).left
            ⟨issuer, access.address⟩ = r := if_pos rfl
        rw [hafter]
        split
        · rename_i hnone
          rw [MainMemory.left, MainMemory.owner_eq_none.mp hnone] at hlt
          exact hlt
        · exact hlt
    · rw [hresult] at hwait
      cases (Prod.mk.inj hwait).1
  wait_other := by
    intro memory after issuer other access howner hne hwait
    obtain ⟨α, serve, -, hattempt⟩ := MainMemory.attempt_eq access memory issuer
    rw [hattempt] at hwait
    obtain ⟨pending, hpending, hissuer⟩ := MainMemory.owner_eq_some.mp howner
    rw [MainMemory.access_of_busy issuer access.address serve hpending] at hwait
    · obtain ⟨-, rfl⟩ := Prod.mk.inj hwait
      exact ⟨howner, fun a ha => ⟨ha, Nat.le_refl _⟩⟩
    · intro heq
      exact hne (hissuer.symm.trans (congrArg Request.issuer heq))
  done := by
    intro memory after issuer other access hdone howner
    obtain ⟨α, serve, hserve, hattempt⟩ := MainMemory.attempt_eq access memory issuer
    rw [hattempt] at hdone
    rcases memory.access_cases issuer access.address serve with ⟨pending, hresult⟩ | hresult
    · rw [hresult] at hdone
      cases (Prod.mk.inj hdone).1
    · rw [hresult] at hdone
      obtain ⟨-, rfl⟩ := Prod.mk.inj hdone
      rw [MainMemory.owner, (hserve _).1] at howner
      cases howner

end PipelinedProcessor
