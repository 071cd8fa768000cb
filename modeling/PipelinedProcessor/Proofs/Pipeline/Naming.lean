import PipelinedProcessor.Proofs.Pipeline.FaultingCourse
import PipelinedProcessor.Proofs.Pipeline.SettledPrefix
import PipelinedProcessor.Proofs.Pipeline.Underway

namespace PipelinedProcessor.Pipeline

open Flight LawfulStorage

-- An instruction that is to be carried out in the next cycle, and the registers that it finds, as
-- Write Back and Memory Access leave them in that cycle.
structure Executes {σ : Type} [Storage σ] (p : Pipeline) (context : Context σ) (f : Flight)
    (registers : Registers) :
    Prop where
  running : p.running = true
  slot_eq : p.slots.slot .execute = some f
  ready : f.state = .ready
  served : (p.tick.accessed context).1 = none
  registers_eq : (p.tick.accessed context).2.2.registers = registers

namespace Tracks

variable {σ : Type} [Storage σ] [LawfulStorage σ] {capacity : Nat} {course : Nat → ArchState}
  {last : Nat} {p : Pipeline} {context : Context σ} (h : Tracks capacity course last p context)

section Executes

variable (hcourse : ∀ n, course (n + 1) = (course n).next capacity)
  (hcertain : ∀ f, p.slots.slot .memory = some f → f.state = .ready → p.Certain course last f.id)
  {f : Flight} {registers : Registers} (hexecutes : p.Executes context f registers)

include h hcourse hcertain hexecutes

-- The pipeline as it is by then.
theorem executes : ∃ (q : Pipeline) (now : Context σ), Tracks capacity course last q now ∧
    q.pipelined = p.pipelined ∧
    q.slots.slot .execute = some f ∧ q.passed .fetch = p.passed .fetch ∧
    now.registers = registers := by
  rcases haccess : p.tick.accessed context with ⟨fault, q, now⟩
  have hserved := hexecutes.served
  have hregisters := hexecutes.registers_eq
  have hslot := slot_accessed p.tick context .execute nofun nofun
  have hfetched :=
    h.tick.wellFormed.passed_accessed context (show Stage.fetch ≠ .writeBack by decide) nofun
  rw [haccess] at hserved hregisters hslot hfetched
  obtain ⟨htracks, hmode⟩ := (h.tick.accessed hcourse hcertain haccess).2 hserved
  exact ⟨q, now, htracks, hmode, hslot.trans hexecutes.slot_eq, hfetched, hregisters⟩

-- Without overlap the counter is one past the address of the instruction that is carried out.
theorem counter_of_serial (hserial : p.pipelined = false) : f.address = some (course f.id).address ∧
    registers.counter = ((course f.id).address + 1) % Word.bound := by
  obtain ⟨q, now, htracks, hmode, hslot, -, rfl⟩ := h.executes hcourse hcertain hexecutes
  have hserial' := hmode.trans hserial
  have hon (id : Nat) := (certain_of_serial hserial' course last id).onCourse
  obtain ⟨hp, -, haddress, -⟩ := htracks.executing hslot hexecutes.ready (hon f.id)
  obtain ⟨hfetch, haccess, -⟩ :=
    htracks.wellFormed.counts_alone hserial' hslot (by omega) (by omega)
  have hstepped := (htracks.counter (hon _)).stepped f.id (by omega) hfetch
  refine ⟨haddress, ?_⟩
  rw [Registers.counter, hstepped]
  exact Registers.counter_stepCounter (course f.id).registers

-- Where instructions overlap, it is as far past that of the last one of the course as fetching has
-- gone on since.
theorem counter_of_overlap (hmode : p.pipelined = true) (hid : f.id = last) :
    f.address = some (course last).address ∧
      registers.counter = ((course last).address + (p.passed .fetch - last)) % Word.bound := by
  obtain ⟨q, now, htracks, hmode', hslot, hfetched, rfl⟩ := h.executes hcourse hcertain hexecutes
  obtain ⟨hp, -, haddress, -⟩ := htracks.executing hslot hexecutes.ready fun _ => Nat.le_of_eq hid
  have hfetch := (htracks.wellFormed.lt_fetched_iff hslot).mpr (by omega)
  have haccess := htracks.wellFormed.lt_accessed_iff hslot
  rw [hid] at haddress
  refine ⟨haddress, ?_⟩
  rw [← hfetched]
  exact htracks.behind (hmode'.trans hmode) (by omega) (by omega)

end Executes

-- Where instructions overlap, and the last one of the course is the first that names the counter.

section Named

variable (hmode : p.pipelined = true) (hnamed : ¬(course last).Spares)

include h hmode hnamed

theorem accessed_le_named : p.passed .memory ≤ last := by
  by_contra hdone
  rcases h.certain last (by omega) hmode with hlt | ⟨-, hspares⟩
  · omega
  · exact hnamed hspares

theorem certain_of_named (hfree : ∀ f, p.slots.slot .memory = some f →
    f.state = .ready → f.id ≠ last) :
    ∀ f, p.slots.slot .memory = some f → f.state = .ready → p.Certain course last f.id := by
  intro f hf hready _
  have hle := h.accessed_le_named hmode hnamed
  have hne := hfree f hf hready
  rw [h.wellFormed.passed_eq hf (by simp [hready])] at hle
  exact .inl (by omega)

theorem not_halted_of_named (hhalt : p.haltId = some p.retired) : False :=
  h.not_halted hmode (h.accessed_le_named hmode hnamed)
    (fun hword => hnamed (ArchState.spares_of_halt hword)) hhalt

omit hnamed in
-- None before it fails.
theorem le_of_raises (hcourse : ∀ n, course (n + 1) = (course n).next capacity)
    (hcertain : ∀ f, p.slots.slot .memory = some f → f.state = .ready → p.Certain course last f.id)
    (hrunning : p.running = true) {cause : Fault} {f : Flight}
    (hraises : p.Raises context cause f) : last ≤ f.id := by
  by_contra hbefore
  have hlt : f.id < last := by omega
  obtain ⟨t, ht⟩ := (h.overlap hmode).runs f.id hlt
  rw [h.step_of_raises hcourse hcertain hrunning hraises fun _ => .inl hlt] at ht
  cases ht

end Named

end Tracks

end PipelinedProcessor.Pipeline
