import PipelinedProcessor.Proofs.Machine.Reached

namespace PipelinedProcessor

namespace Machine

-- The loop of a run. It looks at the clock before every cycle, and gives up when the clock stands
-- at the limit.
inductive Loops (limit : Nat) : Machine → Except RunError Report × Machine → Prop where
  | spent {machine : Machine} (hclock : limit ≤ machine.clock) :
      Loops limit machine (.error (.cycleLimit limit), machine.abort)
  | ended {machine next : Machine} {answer : Except Fault Message} (hclock : machine.clock < limit)
      (hstep : machine.step = (answer, next)) (hend : answer ≠ .ok .running) :
      Loops limit machine (outcome answer next, next)
  | running {machine next : Machine} {result : Except RunError Report × Machine}
      (hclock : machine.clock < limit) (hstep : machine.step = (.ok .running, next))
      (hrest : Loops limit next result) : Loops limit machine result

section

variable {machine next : Machine} {answer : Except Fault Message}

-- A cycle of a run, on the memory of either mode.
theorem cycle_spec (hrunning : machine.pipeline.running = true)
    (hcycle : machine.cycle = (answer, next)) :
    next.clock = machine.clock + 1 ∧ answer ≠ .ok .idle ∧
      (next.pipeline.running = true ↔ answer = .ok .running) ∧
      next.listening = machine.listening ∧ next.reports = machine.reports := by
  cases hmode : machine.mode with
  | cache =>
      rcases hstep : machine.pipeline.step (Cache.port.context machine) with ⟨found, p, after⟩
      have hspec := Pipeline.ticked_of_step hrunning hstep
      rw [Cache.port.cycle_eq hmode hstep] at hcycle
      obtain ⟨rfl, rfl⟩ := Prod.mk.inj hcycle
      exact ⟨hspec.1, hspec.2.1, hspec.2.2, rfl, rfl⟩
  | direct =>
      rcases hstep : machine.pipeline.step (MainMemory.port.context machine) with ⟨found, p, after⟩
      have hspec := Pipeline.ticked_of_step hrunning hstep
      rw [MainMemory.port.cycle_eq hmode hstep] at hcycle
      obtain ⟨rfl, rfl⟩ := Prod.mk.inj hcycle
      exact ⟨hspec.1, hspec.2.1, hspec.2.2, rfl, rfl⟩

-- What a run tells those who listen when it ends here.
def telling (machine : Machine) (report : Report) : List Report :=
  if machine.listening then [report] else []

-- What a cycle of a run comes to. Its end is told when it halts, and nothing is kept when it fails.
inductive Turn (machine : Machine) : Except Fault Message → Machine → Prop where
  | fault {cause : Fault} {next : Machine} (hstopped : next.pipeline.running = false)
      (hreports : next.reports = machine.reports) (hreleased : next.cache.Released) :
      Turn machine (.error cause) next
  | halted {next : Machine} (hclock : next.clock = machine.clock + 1)
      (hreports : next.reports = machine.reports ++ machine.telling next.pipeline.report) :
      Turn machine (.ok .halted) next
  | running {next : Machine} (hrunning : next.pipeline.running = true)
      (hclock : next.clock = machine.clock + 1)
      (hlistening : next.listening = machine.listening)
        (hreports : next.reports = machine.reports) :
      Turn machine (.ok .running) next

theorem turn_of_running (hrunning : machine.pipeline.running = true) :
    machine.Turn machine.step.1 machine.step.2 := by
  rcases hcycle : machine.cycle with ⟨answer, next⟩
  obtain ⟨hclock, hsome, hgoes, hlistening, hreports⟩ := cycle_spec hrunning hcycle
  match answer with
  | .error cause =>
      rw [step_of_fault hcycle]
      have hstopped : next.pipeline.running = false :=
        Bool.eq_false_iff.mpr fun hon => nomatch hgoes.mp hon
      exact .fault hstopped hreports next.cache.released_releaseAll
  | .ok .halted =>
      rw [step_of_halted hcycle]
      refine .halted hclock ?_
      rw [hreports, hlistening]
      rfl
  | .ok .idle => exact absurd rfl hsome
  | .ok .running =>
      rw [step_of_message hcycle nofun]
      exact .running (hgoes.mpr rfl) hclock hlistening hreports

-- A run that has gone on for so many cycles.
structure Ongoing (first : Machine) (n : Nat) : Prop where
  running : (first.after n).pipeline.running = true
  clock_eq : (first.after n).clock = n
  listening_eq : (first.after n).listening = first.listening
  reports_eq : (first.after n).reports = first.reports

theorem ongoing_of_running {first : Machine} (hrunning : first.pipeline.running = true)
    (hclock : first.clock = 0) {n : Nat} (hgoes : ∀ i < n, (first.after i).step.1 = .ok .running) :
    first.Ongoing n := by
  induction n with
  | zero => exact ⟨hrunning, hclock, rfl, rfl⟩
  | succ n ih =>
      have hbefore := ih fun i hi => hgoes i (by omega)
      have hturn := turn_of_running hbefore.running
      rw [hgoes n (by omega)] at hturn
      cases hturn with
      | running hrunning hclock hlistening hreports =>
          exact ⟨hrunning, hclock.trans (congrArg (· + 1) hbefore.clock_eq),
            hlistening.trans hbefore.listening_eq, hreports.trans hbefore.reports_eq⟩

-- The loop gives what counting the cycles beforehand gives, and nothing else.

theorem loops_drive (hrunning : machine.pipeline.running = true) {limit cycles : Nat}
    (hcycles : machine.clock + cycles = limit) :
    Loops limit machine (drive limit cycles machine) := by
  induction cycles generalizing machine with
  | zero => exact .spent (by omega)
  | succ cycles ih =>
      have hclock : machine.clock < limit := by omega
      rcases hstep : machine.step with ⟨answer, next⟩
      have hturn : machine.Turn answer next := by
        have h := turn_of_running hrunning
        rwa [hstep] at h
      rw [drive, hstep]
      cases hturn with
      | fault => exact .ended hclock hstep (by simp)
      | halted => exact .ended hclock hstep (by simp)
      | running hrunning hnext => exact .running hclock hstep (ih hrunning (by omega))

theorem Loops.unique {limit : Nat} {result other : Except RunError Report × Machine}
    (h : Loops limit machine result) (hother : Loops limit machine other) : other = result := by
  induction h with
  | spent hclock =>
      cases hother with
      | spent => rfl
      | ended hlt => omega
      | running hlt => omega
  | ended hclock hstep hend =>
      cases hother with
      | spent hspent => omega
      | ended _ hstep' =>
          obtain ⟨rfl, rfl⟩ := Prod.mk.inj (hstep.symm.trans hstep')
          rfl
      | running _ hstep' =>
          obtain ⟨rfl, -⟩ := Prod.mk.inj (hstep.symm.trans hstep')
          exact absurd rfl hend
  | running hclock hstep hrest ih =>
      cases hother with
      | spent hspent => omega
      | ended _ hstep' hend =>
          obtain ⟨rfl, -⟩ := Prod.mk.inj (hstep.symm.trans hstep')
          exact absurd rfl hend
      | running _ hstep' hrest' =>
          obtain ⟨-, rfl⟩ := Prod.mk.inj (hstep.symm.trans hstep')
          exact ih hrest'

-- Whether a cycle is the end of a run.
def Ends (answer : Except Fault Message) : Prop :=
  answer = .ok .halted ∨ ∃ cause, answer = .error cause

-- Until its end a run goes on in every cycle: none of them finds nothing to do.
theorem Ongoing.before {first : Machine} (hrunning : first.pipeline.running = true)
    (hclock : first.clock = 0) {n : Nat} (hbefore : ∀ i < n, ¬ Ends (first.after i).step.1) :
    ∀ i < n, (first.after i).step.1 = .ok .running := by
  induction n with
  | zero => exact fun i hi => absurd hi (Nat.not_lt_zero i)
  | succ n ih =>
      have hgoes := ih fun i hi => hbefore i (by omega)
      have hturn := turn_of_running (ongoing_of_running hrunning hclock hgoes).running
      have hlast : (first.after n).step.1 = .ok .running := by
        have hmore := hbefore n (by omega)
        generalize (first.after n).step.1 = answer at hturn hmore ⊢
        cases hturn with
        | fault => exact absurd (.inr ⟨_, rfl⟩) hmore
        | halted => exact absurd (.inl rfl) hmore
        | running => rfl
      intro i hi
      by_cases heq : i = n
      · rw [heq]
        exact hlast
      · exact hgoes i (by omega)

-- How a run from here comes out, with so many cycles at most.
structure Ending (first : Machine) (limit : Nat) (result : Except RunError Report × Machine) :
    Prop where
  loops_iff : ∀ other, Loops limit first other ↔ other = result
  halted : ∀ n < limit, (∀ i < n, ¬ Ends (first.after i).step.1) →
    (first.after n).step.1 = .ok .halted →
    ∃ report, result = (.ok report, first.after (n + 1)) ∧ report.cycles = n + 1 ∧
      result.2.reports = first.reports ++ first.telling report
  fault : ∀ n < limit, (∀ i < n, ¬ Ends (first.after i).step.1) →
    ∀ cause, (first.after n).step.1 = .error cause →
      result = (.error (.fault cause), first.after (n + 1)) ∧ result.2.reports = first.reports ∧
        ∀ k, (result.2.after k).step = (.ok .idle, result.2)
  spent : (∀ i < limit, ¬ Ends (first.after i).step.1) →
    result = (.error (.cycleLimit limit), (first.after limit).abort) ∧
    (first.after limit).clock = limit ∧
      result.2.reports = first.reports ∧ result.2.pipeline.running = false
  released : ∀ error, result.1 = .error error → result.2.cache.Released

theorem released_abort (machine : Machine) : machine.abort.cache.Released :=
  machine.cache.released_releaseAll

theorem ending_of_drive {first : Machine} (hrunning : first.pipeline.running = true)
    (hclock : first.clock = 0) (limit : Nat) : first.Ending limit (drive limit limit first) where
  loops_iff other := by
    have hloops := loops_drive hrunning (show first.clock + limit = limit by omega)
    constructor
    · exact hloops.unique
    · rintro rfl
      exact hloops
  halted n hn hbefore hhalts := by
    have hgoes := Ongoing.before hrunning hclock hbefore
    have hongoing := ongoing_of_running hrunning hclock hgoes
    have hturn := turn_of_running hongoing.running
    rw [drive_of_end limit hn hgoes (by rw [hhalts]; nofun), hhalts]
    rw [hhalts] at hturn
    cases hturn with
    | halted hlast hreports =>
        refine ⟨_, rfl, hlast.trans (congrArg (· + 1) hongoing.clock_eq), ?_⟩
        rw [telling, hongoing.reports_eq, hongoing.listening_eq] at hreports
        exact hreports
  fault n hn hbefore cause hfails := by
    have hgoes := Ongoing.before hrunning hclock hbefore
    have hongoing := ongoing_of_running hrunning hclock hgoes
    have hturn := turn_of_running hongoing.running
    rw [drive_of_end limit hn hgoes (by rw [hfails]; nofun), hfails]
    rw [hfails] at hturn
    cases hturn with
    | fault hstopped hreports =>
        have hover : (first.after (n + 1)).pipeline.running = false := hstopped
        refine ⟨rfl, hreports.trans hongoing.reports_eq, fun k => ?_⟩
        show ((first.after (n + 1)).after k).step = (.ok .idle, first.after (n + 1))
        rw [after_of_over hover]
        exact step_of_over hover
  spent hbefore := by
    have hgoes := Ongoing.before hrunning hclock hbefore
    have hongoing := ongoing_of_running hrunning hclock hgoes
    rw [drive_of_running limit hgoes]
    exact ⟨rfl, hongoing.clock_eq, hongoing.reports_eq, rfl⟩
  released error herror := by
    rcases first.end_or_running limit with hgoes | ⟨n, hn, hgoes, hend⟩
    · rw [drive_of_running limit hgoes]
      exact released_abort _
    · have hturn := turn_of_running (ongoing_of_running hrunning hclock hgoes).running
      rw [drive_of_end limit hn hgoes hend] at herror ⊢
      show (first.after n).step.2.cache.Released
      generalize (first.after n).step.1 = answer at hturn hend herror
      cases hturn with
      | fault _ _ hreleased => exact hreleased
      | halted => cases herror
      | running => exact absurd rfl hend

-- A run always comes out, in one of three ways. If it halts in its cycles, it answers and tells the
-- same report; if it fails, it answers the fault and tells nothing, and there is nothing more to
-- do; if it does neither, it is stopped when it has used up all of them.
theorem ending_of_run (machine : Machine) (address : Nat) (pipelined : Bool) (mode : MemoryMode)
    (listening : Bool) :
    (machine.begun address pipelined mode listening).reports = machine.reports ∧
      (machine.begun address pipelined mode listening).listening = listening ∧
      (machine.begun address pipelined mode listening).Ending machine.config.run.maxCycles
        (machine.run address pipelined mode listening) := by
  have hrunning : (machine.begun address pipelined mode listening).pipeline.running = true := by
    cases pipelined <;> rfl
  have hclock : (machine.begun address pipelined mode listening).clock = 0 := by
    cases pipelined <;> rfl
  exact ⟨rfl, rfl, ending_of_drive hrunning hclock _⟩

end

end Machine

end PipelinedProcessor
