import PipelinedProcessor.Proofs.Machine.RunOnCourse

namespace PipelinedProcessor

open LawfulStorage LiveStorage Machine

namespace Port.Going

-- A whole run, from its first cycle to its end and beyond.

section

variable {σ : Type} [Storage σ] [LawfulStorage σ] [LiveStorage σ] {port : Port σ} {capacity : Nat}
  {course : Nat → ArchState} {last : Nat} {machine : Machine}
    (h : port.Going capacity course last machine)
  (hcourse : ∀ n, course (n + 1) = (course n).next capacity)

include h hcourse

theorem stopped_of_end (hend : machine.step.1 ≠ .ok .running) :
    machine.step.2.pipeline.running = false := by
  rcases hresult : machine.step with ⟨answer, next⟩
  rw [hresult] at hend
  cases h.step hcourse hresult with
  | fault _ _ _ hstopped => exact hstopped
  | halted _ _ _ _ hstopped => exact hstopped
  | running => exact absurd rfl hend

theorem runs_step : ∀ i < machine.step.2.pipeline.retired, ∃ t,
    (course i).step capacity = .ok (some t) := by
  rcases hresult : machine.step with ⟨answer, next⟩
  cases h.step hcourse hresult with
  | fault _ _ hretired _ =>
      rw [hretired]
      exact h.runs_retired
  | halted _ _ _ hruns _ => exact hruns
  | running hgoing => exact hgoing.runs_retired

-- What the last cycle of a run has come to is the course's answer too.
theorem step_of_end (hend : machine.step.1 ≠ .ok .running) {t : ArchState} :
    (course machine.step.2.pipeline.retired).step capacity ≠ .ok (some t) := by
  rcases hresult : machine.step with ⟨answer, next⟩
  rw [hresult] at hend
  cases h.step hcourse hresult with
  | fault _ hstep hretired _ =>
      rw [hretired, hstep]
      nofun
  | halted hword _ _ _ _ =>
      rw [ArchState.step_of_halt hword]
      nofun
  | running => exact absurd rfl hend

-- A run goes on or has come to its end, and then nothing changes any more.
theorem after_cases (n : Nat) : port.Going capacity course last (machine.after n) ∨
    ∃ e < n, port.Going capacity course last (machine.after e) ∧
    (machine.after e).step.1 ≠ .ok .running ∧
      machine.after n = (machine.after e).step.2 := by
  induction n with
  | zero => exact .inl h
  | succ n ih =>
      rcases ih with hgoing | ⟨e, he, hgoing, hend, hsame⟩
      · by_cases hanswer : (machine.after n).step.1 = .ok .running
        · left
          have hresult : (machine.after n).step = (.ok .running, machine.after (n + 1)) :=
            Prod.ext hanswer rfl
          cases hgoing.step hcourse hresult with
          | running hgoing' => exact hgoing'
        · exact .inr ⟨n, by omega, hgoing, hanswer, rfl⟩
      · right
        refine ⟨e, by omega, hgoing, hend, ?_⟩
        rw [after, hsame, step_of_over (hgoing.stopped_of_end hcourse hend)]

theorem going_of_answer {n : Nat} (hanswer : (machine.after n).step.1 ≠ .ok .idle) :
    port.Going capacity course last (machine.after n) := by
  rcases h.after_cases hcourse n with hgoing | ⟨e, -, hgoing, hend, hsame⟩
  · exact hgoing
  · rw [hsame, step_of_over (hgoing.stopped_of_end hcourse hend)] at hanswer
    exact absurd rfl hanswer

theorem going_of_on {n : Nat} (hon : (machine.after n).pipeline.running = true) :
    port.Going capacity course last (machine.after n) := by
  rcases h.after_cases hcourse n with hgoing | ⟨e, -, hgoing, hend, hsame⟩
  · exact hgoing
  · rw [hsame, hgoing.stopped_of_end hcourse hend] at hon
    cases hon

theorem running_before {n : Nat} (hanswer : (machine.after n).step.1 ≠ .ok .idle) :
    ∀ i < n, (machine.after i).step.1 = .ok .running := by
  intro i hi
  by_contra hend
  have hstopped : (machine.after (i + 1)).pipeline.running = false := by
    rcases h.after_cases hcourse i with hgoing | ⟨e, -, hgoing, hend', hsame⟩
    · exact hgoing.stopped_of_end hcourse hend
    · have hover := hgoing.stopped_of_end hcourse hend'
      rw [after, hsame, step_of_over hover]
      exact hover
  refine hanswer ?_
  rw [show n = i + 1 + (n - (i + 1)) by omega, after_add, after_of_over hstopped,
    step_of_over hstopped]

-- At every moment the instructions that have retired are the first of the course.
theorem runs_after (n : Nat) :
    ∀ i < (machine.after n).pipeline.retired, ∃ t, (course i).step capacity = .ok (some t) := by
  rcases h.after_cases hcourse n with hgoing | ⟨e, -, hgoing, -, hsame⟩
  · exact hgoing.runs_retired
  · rw [hsame]
    exact hgoing.runs_step hcourse

theorem retiring_after (n : Nat) :
    (machine.after (n + 1)).pipeline.retired = (machine.after n).pipeline.retired ∧
        (machine.after n).retiring = [] ∨
      (machine.after (n + 1)).pipeline.retired = (machine.after n).pipeline.retired + 1 ∧
        (machine.after n).retiring = [(some (course (machine.after n).pipeline.retired).address,
          some (course (machine.after n).pipeline.retired).word)] := by
  rcases h.after_cases hcourse n with hgoing | ⟨e, -, hgoing, hend, hsame⟩
  · exact hgoing.retiring_eq
  · have hover := step_of_over (hgoing.stopped_of_end hcourse hend)
    left
    rw [after, hsame]
    have hretired : (machine.after e).step.2.step.2.pipeline.retired =
        (machine.after e).step.2.pipeline.retired := by
      rw [hover]
    exact ⟨hretired, if_pos hretired⟩

theorem pipelined_after (n : Nat) :
    (machine.after n).pipeline.pipelined = machine.pipeline.pipelined := by
  induction n with
  | zero => rfl
  | succ n ih =>
      rw [after, ← ih]
      rcases h.after_cases hcourse n with hgoing | ⟨e, -, hgoing, hend, hsame⟩
      · exact hgoing.pipelined_step
      · rw [hsame, step_of_over (hgoing.stopped_of_end hcourse hend)]

-- Without overlap every retirement leaves the machine between two instructions.
theorem state_after (hserial : machine.pipeline.pipelined = false) {n : Nat}
    (hretired : (machine.after (n + 1)).pipeline.retired ≠ (machine.after n).pipeline.retired) :
    (machine.after (n + 1)).state = course (machine.after (n + 1)).pipeline.retired := by
  rcases h.after_cases hcourse n with hgoing | ⟨e, -, hgoing, hend, hsame⟩
  · exact hgoing.state_of_retired hcourse ((h.pipelined_after hcourse n).trans hserial) hretired
  · rw [after, hsame, step_of_over (hgoing.stopped_of_end hcourse hend)] at hretired
    exact absurd rfl hretired

-- The two ways in which a run ends.

theorem halted_after {n : Nat} (hanswer : (machine.after n).step.1 = .ok .halted) :
    (course (machine.after (n + 1)).pipeline.retired).word = Word.halt ∧
      (machine.after (n + 1)).state = course (machine.after (n + 1)).pipeline.retired ∧
      (machine.after (n + 1)).pipeline.haltId = some (machine.after (n + 1)).pipeline.retired := by
  have hgoing : port.Going capacity course last (machine.after n) := by
    refine h.going_of_answer hcourse ?_
    rw [hanswer]
    nofun
  have hresult : (machine.after n).step = (.ok .halted, machine.after (n + 1)) :=
    Prod.ext hanswer rfl
  cases hgoing.step hcourse hresult with
  | halted hword hstate hhalt _ _ => exact ⟨hword, hstate, hhalt⟩

theorem after_halted {n m : Nat} (hanswer : (machine.after n).step.1 = .ok .halted) (hm : n < m) :
    machine.after m = machine.after (n + 1) := by
  have hgoing : port.Going capacity course last (machine.after n) := by
    refine h.going_of_answer hcourse ?_
    rw [hanswer]
    nofun
  have hstopped : (machine.after (n + 1)).pipeline.running = false := by
    refine hgoing.stopped_of_end hcourse ?_
    rw [hanswer]
    nofun
  rw [show m = n + 1 + (m - (n + 1)) by omega, after_add, after_of_over hstopped]

theorem faulted_after {n : Nat} {cause : Fault}
    (hanswer : (machine.after n).step.1 = .error cause) :
    machine.pipeline.pipelined = false ∧
      (course (machine.after (n + 1)).pipeline.retired).step capacity = .error cause := by
  have hgoing : port.Going capacity course last (machine.after n) := by
    refine h.going_of_answer hcourse ?_
    rw [hanswer]
    nofun
  have hresult : (machine.after n).step = (.error cause, machine.after (n + 1)) :=
    Prod.ext hanswer rfl
  cases hgoing.step hcourse hresult with
  | fault hserial hstep hretired _ =>
      rw [h.pipelined_after hcourse] at hserial
      rw [hretired]
      exact ⟨hserial, hstep⟩

variable (hzero : machine.pipeline.retired = 0)

include hzero

theorem retirements_eq (n : Nat) : machine.retirements n =
    (List.range (machine.after n).pipeline.retired).map
      fun i => (some (course i).address, some (course i).word) := by
  induction n with
  | zero =>
      rw [after, hzero]
      rfl
  | succ n ih =>
      rw [retirements, ih]
      rcases h.retiring_after hcourse n with ⟨hretired, hnone⟩ | ⟨hretired, hone⟩
      · rw [hretired, hnone, List.append_nil]
      · rw [hretired, hone, List.range_succ, List.map_append]
        rfl

-- Whatever the course has before its end retires.
theorem reaches {k : Nat} (hruns : ∀ i < k, ∃ t, (course i).step capacity = .ok (some t)) :
    ∃ n, (machine.after n).pipeline.retired = k := by
  induction k with
  | zero => exact ⟨0, hzero⟩
  | succ k ih =>
      obtain ⟨n, hn⟩ := ih fun i hi => hruns i (by omega)
      obtain ⟨t, ht⟩ := hruns k (by omega)
      rcases h.after_cases hcourse n with hgoing | ⟨e, -, hgoing, hend, hsame⟩
      · obtain ⟨m, hgoing', hsame, hevent⟩ := hgoing.progress hcourse
        rw [hn] at hsame hevent
        rw [← after_add] at hgoing' hsame
        rw [← after_add, ← after_add] at hevent
        refine ⟨n + m + 1, ?_⟩
        rcases h.retiring_after hcourse (n + m) with ⟨hretired, -⟩ | ⟨hretired, -⟩
        · exfalso
          rw [hsame] at hretired
          rcases hevent with hend | hmore
          · refine hgoing'.step_of_end hcourse hend (t := t) ?_
            rw [← ht]
            exact congrArg (fun i => (course i).step capacity) hretired
          · exact hmore hretired
        · rw [hretired, hsame]
      · exfalso
        refine hgoing.step_of_end hcourse hend (t := t) ?_
        rw [← ht, ← hn, hsame]

-- Where the course ends the run does, and in the same way.

theorem exists_end {k : Nat} (hruns : ∀ i < k, ∃ t, (course i).step capacity = .ok (some t))
    (hlast : ∀ t, (course k).step capacity ≠ .ok (some t)) :
    ∃ n, port.Going capacity course last (machine.after n) ∧
    (machine.after n).step.1 ≠ .ok .running ∧
      (machine.after (n + 1)).pipeline.retired = k := by
  obtain ⟨n, hn⟩ := h.reaches hcourse hzero hruns
  rcases h.after_cases hcourse n with hgoing | ⟨e, -, hgoing, hend, hsame⟩
  · obtain ⟨m, hgoing', hsame, hevent⟩ := hgoing.progress hcourse
    rw [hn] at hsame hevent
    rw [← after_add] at hgoing' hsame
    rw [← after_add, ← after_add] at hevent
    have hretired : (machine.after (n + m + 1)).pipeline.retired = k := by
      rcases h.retiring_after hcourse (n + m) with ⟨hretired, -⟩ | ⟨hretired, -⟩
      · rw [hretired, hsame]
      · exfalso
        obtain ⟨t, ht⟩ := h.runs_after hcourse (n + m + 1) k (by omega)
        exact hlast t ht
    rcases hevent with hend | hmore
    · exact ⟨n + m, hgoing', hend, hretired⟩
    · exact absurd hretired hmore
  · exact ⟨e, hgoing, hend, by rw [after, ← hsame, hn]⟩

theorem ends {k : Nat} (hruns : ∀ i < k, ∃ t, (course i).step capacity = .ok (some t))
    (hlast : ∀ t, (course k).step capacity ≠ .ok (some t)) :
    ∃ n, (machine.after (n + 1)).pipeline.retired = k ∧ ((machine.after n).step.1 = .ok .halted ∨
      ∃ cause, (machine.after n).step.1 = .error cause ∧
      (course k).step capacity = .error cause) := by
  obtain ⟨n, hgoing, hend, hretired⟩ := h.exists_end hcourse hzero hruns hlast
  refine ⟨n, hretired, ?_⟩
  rcases hresult : (machine.after n).step with ⟨answer, next⟩
  rw [hresult] at hend
  have hnext : next = machine.after (n + 1) := by rw [after, hresult]
  cases hgoing.step hcourse hresult with
  | fault _ hstep hretired' _ =>
      refine .inr ⟨_, rfl, ?_⟩
      rw [← hretired, ← hnext, hretired', hstep]
  | halted => exact .inl rfl
  | running => exact absurd rfl hend

end

end Port.Going

end PipelinedProcessor
