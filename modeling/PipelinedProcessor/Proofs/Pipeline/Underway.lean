import PipelinedProcessor.Proofs.Pipeline.Simulation

namespace PipelinedProcessor.Pipeline

open Flight LawfulStorage

theorem tracks_start {σ : Type} [Storage σ] [LawfulStorage σ] {course : Nat → ArchState}
    {context : Context σ} {pipelined : Bool} {last : Nat} (hsound : Sound context.memory)
    (hstart : context.state = course 0) (hoverlap : pipelined = true →
      Runnable (capacity context.memory) course last) :
    Tracks (capacity context.memory) course last (start pipelined) context := by
  refine Tracks.takeIn
    ⟨⟨trivial, ?_, rfl, nofun, fun _ => Nat.zero_le 1, ⟨fun _ hf _ => (nomatch hf), nofun⟩,
    fun _ hf => (nomatch hf)⟩, hsound, rfl, ?_, ?_, fun _ => ?_, nofun, ?_,
    fun _ hi => (nomatch hi),
    fun _ hi => (nomatch hi), nofun, nofun, hoverlap⟩
  · intro stage f hf
    cases stage <;> cases hf
  · intro stage f hf
    cases stage <;> cases hf
  · refine ⟨?_, congrArg ArchState.vectors hstart⟩
    intro number _
    exact congrArg (·.value number) hstart
  · refine ⟨?_, fun _ _ hi => (nomatch hi), fun _ _ hi => (nomatch hi)⟩
    intro _
    exact congrArg (·.value Register.counter) hstart
  · intro x
    exact .inl (congrArg (·.memory x) hstart)

-- A run that goes on: it keeps to its course, where instructions overlap up to the word that halts.
structure Underway {σ : Type} [Storage σ] [LawfulStorage σ] (capacity : Nat)
    (course : Nat → ArchState) (last : Nat) (p : Pipeline) (context : Context σ) : Prop where
  tracks : Tracks capacity course last p context
  running : p.running = true
  halts : p.pipelined = true → (course last).word = Word.halt

-- What the next cycle of a run comes to.
inductive Stepped {σ : Type} [Storage σ] [LawfulStorage σ] (capacity : Nat)
    (course : Nat → ArchState) (last : Nat) (p : Pipeline) (context : Context σ) :
    Except Fault Message → Pipeline → Context σ → Prop where
  | fault {cause : Fault} {p' : Pipeline} {after : Context σ} (hserial : p.pipelined = false)
      (hstep : (course p.retired).step capacity = .error cause) (hretired : p'.retired = p.retired)
      (hstopped : p'.running = false) :
        Stepped capacity course last p context (.error cause) p' after
  | halted {p' : Pipeline} {after : Context σ} (htracks : Tracks capacity course last p' after)
      (hword : (course p'.retired).word = Word.halt) (hstate : after.state = course p'.retired)
      (hhalt : p'.haltId = some p'.retired) (hstopped : p'.running = false) :
      Stepped capacity course last p context (.ok .halted) p' after
  | running {p' : Pipeline} {after : Context σ}
      (hunderway : Underway capacity course last p' after) :
      Stepped capacity course last p context (.ok .running) p' after

section

variable {σ : Type} [Storage σ] [LawfulStorage σ] {capacity : Nat} {course : Nat → ArchState}
  {last : Nat} {p p' : Pipeline} {context after : Context σ} {answer : Except Fault Message}

theorem underway_start {pipelined : Bool} (hsound : Sound context.memory)
    (hstart : context.state = course 0)
    (hoverlap : pipelined = true →
      Overlappable (LawfulStorage.capacity context.memory) course last) :
    Underway (LawfulStorage.capacity context.memory) course last (start pipelined) context := by
  have hmode : (start pipelined).pipelined = pipelined := by
    cases pipelined <;> rfl
  exact ⟨tracks_start hsound hstart fun hpipelined => (hoverlap hpipelined).runnable,
    (takeIn_same _).running_eq, fun hpipelined => (hoverlap (hmode ▸ hpipelined)).halts⟩

-- All that are fetched find their operands, for nothing is fetched behind the word that halts.
theorem Underway.certain (h : Underway capacity course last p context) {stage : Stage} {f : Flight}
    (hf : p.slots.slot stage = some f) (hstarted : 0 < f.progress) :
    p.Certain course last f.id := by
  intro hmode
  have hle := h.tracks.fetched_le h.halts hmode
  have hlt := (h.tracks.wellFormed.lt_fetched_iff hf).mpr hstarted
  exact .inl (by omega)

theorem Underway.certain_of_memory (h : Underway capacity course last p context) :
    ∀ f, p.slots.slot .memory = some f → f.state = .ready → p.Certain course last f.id := by
  intro f hf hready
  refine h.certain hf ?_
  rw [h.tracks.wellFormed.progress_of_ready hf hready]
  decide

-- Only a run without overlap faults: the course of another one does not.
theorem Underway.serial_of_raises (h : Underway capacity course last p context)
    (hcourse : ∀ n, course (n + 1) = (course n).next capacity) {cause : Fault} {f : Flight}
    (hraises : p.Raises context cause f) :
    p.pipelined = false ∧ (course p.retired).step capacity = .error cause := by
  obtain ⟨stage, hstage, hf, hready⟩ := hraises.slot
  have hstarted : 0 < f.progress := by
    rw [h.tracks.wellFormed.progress_of_ready hf hready]
    rcases hstage with rfl | rfl <;> decide
  have hcertain := h.certain hf hstarted
  have hfault := h.tracks.step_of_raises hcourse h.certain_of_memory h.running hraises hcertain
  by_cases hserial : p.pipelined = false
  · rw [← (h.tracks.wellFormed.alone hserial hf).2]
    exact ⟨hserial, hfault⟩
  · have hmode : p.pipelined = true := by simpa using hserial
    have hle := h.tracks.fetched_le h.halts hmode
    have hlt := (h.tracks.wellFormed.lt_fetched_iff hf).mpr hstarted
    obtain ⟨t, ht⟩ := (h.tracks.overlap hmode).runs f.id (by omega)
    rw [hfault] at ht
    cases ht

theorem Underway.stepped (h : Underway capacity course last p context)
    (hcourse : ∀ n, course (n + 1) = (course n).next capacity)
    (hresult : p.step context = (answer, p', after)) :
    Stepped capacity course last p context answer p' after := by
  cases answer with
  | error cause =>
      obtain ⟨-, f, hraises⟩ := raises_of_step (congrArg Prod.fst hresult)
      obtain ⟨hserial, hstep⟩ := h.serial_of_raises hcourse hraises
      exact .fault hserial hstep (retired_of_fault h.running hresult)
        (stopped_of_step h.running hresult nofun)
  | ok message =>
      have hmode := (retired_step hresult).1
      have hhalts : p'.pipelined = true → (course last).word = Word.halt := hmode ▸ h.halts
      obtain ⟨htracks, ⟨rfl, hrunning⟩ | ⟨rfl, hhalt, hempty⟩⟩ :=
        h.tracks.step hcourse h.certain_of_memory h.running hresult
      · exact .running ⟨htracks, hrunning, hhalts⟩
      · have hon := (htracks.fetched_le hhalts).of_le (p'.retired_le_passed .fetch)
        exact .halted htracks (htracks.halting _ hhalt hon)
          (htracks.state_of_empty hon hempty) hhalt (stopped_of_step h.running hresult nofun)

-- What retires is the next instruction of the course.
theorem Underway.retires (h : Underway capacity course last p context)
    (hresult : p.step context = (answer, p', after)) (hretired : p'.retired ≠ p.retired) :
    p'.retired = p.retired + 1 ∧ ∃ f, p.slots.writeBack = some f ∧
      f.address = some (course p.retired).address ∧ f.raw = some (course p.retired).word := by
  obtain ⟨-, hsame | ⟨hone, f, hf⟩⟩ := retired_step hresult
  · exact absurd hsame hretired
  · have hbounds := h.tracks.wellFormed.progress_bounds hf
    have hid : f.id = p.retired := (h.tracks.wellFormed.fits hf).id_eq
    have hcertain := h.certain hf (by simp only [Stage.order] at hbounds; omega)
    exact ⟨hone, f, hf, h.tracks.labels hf (hid ▸ hcertain.onCourse)⟩

-- Without overlap the machine is between two instructions after every retirement.
theorem Underway.state_of_retired (h : Underway capacity course last p context)
    (hcourse : ∀ n, course (n + 1) = (course n).next capacity) (hserial : p.pipelined = false)
    {message : Message} (hresult : p.step context = (.ok message, p', after))
    (hretired : p'.retired ≠ p.retired) : after.state = course p'.retired := by
  obtain ⟨hcommitted, hfetched⟩ := h.tracks.step_retired hcourse hserial h.running hresult hretired
  obtain ⟨htracks, -⟩ := h.tracks.step hcourse h.certain_of_memory h.running hresult
  have hserial' := (retired_step hresult).1.trans hserial
  rw [htracks.state_eq (certain_of_serial hserial' course last _).onCourse
    (by rw [hcommitted, hfetched]), hfetched]

end

end PipelinedProcessor.Pipeline
