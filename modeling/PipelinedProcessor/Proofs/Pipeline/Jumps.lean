import PipelinedProcessor.Proofs.Architecture.Decomposition
import PipelinedProcessor.Proofs.Pipeline.Fetching

namespace PipelinedProcessor

section

variable {σ : Type} [Storage σ]

-- An instruction that comes into Fetch now gets the word at the address.
def Context.Fetches (context : Context σ) (address : Nat) : Prop :=
  ∀ g : Flight, g.address = none → (g.fetch context).1.address = some address ∧
    ∀ w memory, Storage.read context.memory .fetch address = (.done w, memory) →
    (g.fetch context).1.raw = some w

theorem Context.fetches_counter (context : Context σ) :
    context.Fetches context.registers.counter := by
  intro g hg
  have htarget : g.target context.registers = context.registers.counter := by
    rw [Flight.target, hg]
    rfl
  refine ⟨htarget ▸ g.address_fetch context, fun w memory hread => ?_⟩
  rw [Flight.fetch_of_done (htarget.symm ▸ hread)]
  rfl

-- There is one such address.
theorem Context.Fetches.unique {context : Context σ} {a b : Nat} (ha : context.Fetches a)
    (hb : context.Fetches b) :
    a = b :=
  Option.some.inj ((ha { id := 0 } rfl).1.symm.trans (hb { id := 0 } rfl).1)

theorem Context.fetches_setCounter (context : Context σ) (target : Nat) :
    { context with registers := context.registers.setCounter target }.Fetches
      (min target (Word.bound - 1)) := by
  have h := fetches_counter { context with registers := context.registers.setCounter target }
  rwa [Registers.counter_setCounter] at h

namespace Flight

-- Execute and then one try in Memory Access. What the registers are may change in between.
def executeAndAccess (f : Flight) (registers : Registers) (vectors : VectorRegisters)
    (context : Context σ) :
    Option Fault × Flight × Context σ :=
  match f.execute registers vectors with
  | .error fault => (some fault, f, context)
  | .ok executed => (executed.enter .memory).access context

-- A branch as Decode hands it on, read from the address.
structure IsBranchAt (f : Flight) (cond : Condition) (link : Bool) (offset : Int) (a : Nat) :
    Prop where
  decoded : ∃ w, f.raw = some w ∧ Instruction.ofWord w = .branch cond link offset
  instr : f.instr = some (.branch cond link offset)
  address : f.address = some a
  address_lt : a < Word.bound
  results : f.results = []

-- Execute wants an address to go to and, for the link register, one to come back to.
def Refused (link : Bool) (offset : Int) (a : Nat) (fault : Fault) : Prop :=
  (a : Int) + offset < 0 ∧ fault = .branchOutside a offset ∨
    0 ≤ (a : Int) + offset ∧ link = true ∧ Word.bound ≤ a + 1 ∧ fault = .returnOutside

variable {f : Flight} {cond : Condition} {link : Bool} {offset : Int} {a : Nat}

theorem IsBranchAt.offset_lt (h : f.IsBranchAt cond link offset a) : offset.natAbs < 0x400000 := by
  obtain ⟨w, -, hw⟩ := h.decoded
  have hlegal := Instruction.legal_ofWord w
  rwa [hw] at hlegal

theorem IsBranchAt.execute_eq (h : f.IsBranchAt cond link offset a) (registers : Registers)
    (vectors : VectorRegisters) :
    f.execute registers vectors =
      ((Instruction.branch cond link offset).work a registers vectors).map fun work =>
        (f.take work).complete := by
  rw [execute_of_known h.instr, h.address]
  rfl

theorem access_of_branch {target : Nat} {back : Option Word}
    (haction : f.action = some (.branch cond target back)) (context : Context σ) :
    f.access context =
      if context.registers.holds cond then
        (none, { f with
            results := f.results ++
              (back.map (RegisterWrite.scalar Register.link)).toList }.complete,
          { context with registers := context.registers.setCounter target })
      else (none, f.complete, context) := by
  obtain ⟨registers, vectors, memory⟩ := context
  split
  case isTrue hholds =>
    rw [access_of_finished haction (by simp only [Action.advance]; rw [if_pos hholds]), ← haction]
  case isFalse hholds =>
    rw [access_of_finished haction (by simp only [Action.advance]; rw [if_neg hholds]),
      ← haction, List.append_nil]

-- Where the branch leads, if that and the place to come back to are addresses.
theorem IsBranchAt.execute_cases (h : f.IsBranchAt cond link offset a) (hret : cond ≠ .ret)
    (registers : Registers) (vectors : VectorRegisters) :
    (∃ fault, f.execute registers vectors = .error fault ∧ Refused link offset a fault) ∨
    0 ≤ (a : Int) + offset ∧ (link = true → a + 1 < Word.bound) ∧
      f.execute registers vectors =
        .ok { f with
          action := some (.branch cond ((a : Int) + offset).toNat
            (ArchState.branchBack link a)) }.complete := by
  let s : ArchState := ⟨registers, vectors, fun _ => 0⟩
  have htarget : s.branchTarget cond offset a = a + offset := if_neg hret
  have hwork := s.work_branch cond link h.offset_lt h.address_lt
  rw [htarget] at hwork
  rw [h.execute_eq]
  by_cases hneg : (a : Int) + offset < 0
  · rw [if_pos hneg] at hwork
    exact .inl ⟨_, congrArg _ hwork, .inl ⟨hneg, rfl⟩⟩
  · rw [if_neg hneg] at hwork
    by_cases hlast : link = true ∧ Word.bound ≤ a + 1
    · rw [if_pos hlast] at hwork
      exact .inl ⟨_, congrArg _ hwork, .inr ⟨Int.not_lt.mp hneg, hlast.1, hlast.2, rfl⟩⟩
    · rw [if_neg hlast] at hwork
      exact .inr ⟨Int.not_lt.mp hneg, fun hlink => Nat.not_le.mp fun hle => hlast ⟨hlink, hle⟩,
        congrArg _ hwork⟩

theorem executeAndAccess_of_error {registers : Registers} {vectors : VectorRegisters}
    {fault : Fault} (h : f.execute registers vectors = .error fault) (context : Context σ) :
    f.executeAndAccess registers vectors context = (some fault, f, context) := by
  rw [executeAndAccess, h]

theorem executeAndAccess_of_branch {registers : Registers} {vectors : VectorRegisters}
    {target : Nat} {back : Option Word} (hresults : f.results = [])
    (h : f.execute registers vectors =
      .ok { f with action := some (.branch cond target back) }.complete)
    (context : Context σ) : ∃ f', f'.state = .completed ∧
      if context.registers.holds cond then
        f'.results = (back.map (RegisterWrite.scalar Register.link)).toList ∧
          f.executeAndAccess registers vectors context =
            (none, f', { context with registers := context.registers.setCounter target })
      else f'.results = [] ∧ f.executeAndAccess registers vectors context =
        (none, f', context) := by
  rw [executeAndAccess, h]
  simp only
  rw [access_of_branch rfl context]
  split
  · refine ⟨_, ?_, ?_, rfl⟩
    · rfl
    · simp [enter, complete, hresults]
  · refine ⟨_, ?_, ?_, rfl⟩
    · rfl
    · exact hresults

-- A return does not look at its own address.
theorem executeAndAccess_of_return (h : f.IsBranchAt .ret false offset a) (registers : Registers)
    (vectors : VectorRegisters) (context : Context σ) : ∃ f', f'.state = .completed ∧
      f.executeAndAccess registers vectors context =
        (none, f', { context with registers :=
          context.registers.setCounter (registers.read Register.link).toAddress }) := by
  have hexecute : f.execute registers vectors =
      .ok { f with
        action := some (.branch .ret (registers.read Register.link).toAddress none) }.complete := by
    rw [h.execute_eq]
    rfl
  obtain ⟨f', hstate, hresult⟩ := executeAndAccess_of_branch h.results hexecute context
  have hholds : context.registers.holds .ret = true := rfl
  rw [if_pos hholds] at hresult
  exact ⟨f', hstate, hresult.2⟩

omit [Storage σ] in
theorem read_link_commit {later : Context σ} {w : Word}
    (h : f.results = [.scalar Register.link w]) :
    (f.commit later).2.registers.read Register.link = w := by
  rw [commit, h]
  exact Registers.read_write.trans (if_pos ⟨rfl, by decide⟩)

-- Whatever an encoding has room for can come to any address.
def branchAt (cond : Condition) (link : Bool) (offset : Int) (a : Nat) : Flight :=
  { id := 0, stage := .execute, address := some a,
    raw := some (Instruction.branch cond link offset).encode
    instr := some (.branch cond link offset) }

theorem isBranchAt_branchAt (hoffset : offset.natAbs < 0x400000) (ha : a < Word.bound) :
    (branchAt cond link offset a).IsBranchAt cond link offset a :=
  ⟨⟨_, rfl, Instruction.ofWord_encode_of_inRange trivial hoffset⟩, rfl, rfl, ha, rfl⟩

-- A branch that is taken leads to its target, as far as that is not past the last address. It is
-- refused if the target lies before the first address, or if it links from the last one.
theorem goes_of_holds (h : f.IsBranchAt cond link offset a) (hret : cond ≠ .ret)
    (registers : Registers) (vectors : VectorRegisters) {context : Context σ}
    (hholds : context.registers.holds cond = true) :
    (∃ fault, f.executeAndAccess registers vectors context = (some fault, f, context) ∧
      Refused link offset a fault) ∨
    ∃ f' after, f.executeAndAccess registers vectors context = (none, f', after) ∧
    f'.state = .completed ∧
      0 ≤ (a : Int) + offset ∧
      after = { context with registers := context.registers.setCounter ((a : Int) + offset).toNat }
        ∧
      after.Fetches (min ((a : Int) + offset).toNat (Word.bound - 1)) ∧
      (link = false → f'.results = []) ∧
      (link = true →
        a + 1 < Word.bound ∧ f'.results = [.scalar Register.link (BitVec.ofNat 32 (a + 1))] ∧
        ∀ (committed : Context σ) (r : Flight) (offset' : Int) (a' : Nat) (registers' : Registers)
          (vectors' : VectorRegisters) (later : Context σ), r.IsBranchAt .ret false offset' a' →
          registers'.read Register.link = (f'.commit committed).2.registers.read Register.link →
          ∃ r' back, r.executeAndAccess registers' vectors' later = (none, r', back) ∧
          r'.state = .completed ∧
            back.Fetches (a + 1)) := by
  obtain ⟨fault, hfault, hrefused⟩ | ⟨hpos, hlast, hexecute⟩ :=
    h.execute_cases hret registers vectors
  · exact .inl ⟨fault, executeAndAccess_of_error hfault context, hrefused⟩
  obtain ⟨f', hstate, hresult⟩ := executeAndAccess_of_branch h.results hexecute context
  rw [if_pos hholds] at hresult
  obtain ⟨hwrites, hresult⟩ := hresult
  refine .inr ⟨f', _, hresult, hstate, hpos, rfl, context.fetches_setCounter _, ?_, ?_⟩
  · rintro rfl
    exact hwrites
  · rintro rfl
    have hwrites : f'.results = [.scalar Register.link (BitVec.ofNat 32 (a + 1))] := hwrites
    refine ⟨hlast rfl, hwrites, ?_⟩
    intro committed r offset' a' registers' vectors' later hreturn hlink
    obtain ⟨r', hdone, hback⟩ := executeAndAccess_of_return hreturn registers' vectors' later
    refine ⟨r', _, hback, hdone, ?_⟩
    have hplace : (registers'.read Register.link).toAddress = a + 1 := by
      rw [hlink, read_link_commit hwrites]
      exact Nat.mod_eq_of_lt (hlast rfl)
    rw [hplace]
    have hfetches := later.fetches_setCounter (a + 1)
    rwa [Nat.min_eq_left (Nat.le_sub_one_of_lt (hlast rfl))] at hfetches

-- A call backwards, as the one flag that is set says.
theorem goes_of_call :
    let f := branchAt .eq true (-3) 7
    let context : Context MainMemory :=
  ⟨({} : Registers).write Register.flags 1, ⟨[]⟩, .zeroed 1 0 (by decide)⟩
    f.IsBranchAt .eq true (-3) 7 ∧ context.registers.holds .eq = true ∧
      ∃ f' after, f.executeAndAccess {} ⟨[]⟩ context = (none, f', after) ∧ after.Fetches 4 ∧
        f'.results = [.scalar Register.link 8] := by
  intro f context
  have h : f.IsBranchAt .eq true (-3) 7 := isBranchAt_branchAt (by decide) (by decide)
  have hholds : context.registers.holds .eq = true := by decide
  refine ⟨h, hholds, ?_⟩
  obtain ⟨fault, -, ⟨hneg, -⟩ | ⟨-, -, hlast, -⟩⟩ | ⟨f', after, hresult, -, -,
      -, hfetches, -, hlink⟩ :=
    goes_of_holds h (by decide) {} ⟨[]⟩ hholds
  · exact absurd hneg (by decide)
  · exact absurd hlast (by decide)
  · exact ⟨f', after, hresult, hfetches, (hlink rfl).2.1⟩

-- Past the end of the addresses there is no fault: a branch over the last address leads to the last
-- address.
theorem goes_past_end :
    let f := branchAt .always false 2 0xfffffffe
    let context : Context MainMemory := ⟨{}, ⟨[]⟩, .zeroed 1 0 (by decide)⟩
    f.IsBranchAt .always false 2 0xfffffffe ∧ context.registers.holds .always = true ∧
      (f.executeAndAccess {} ⟨[]⟩ context).1 = none ∧
      (f.executeAndAccess {} ⟨[]⟩ context).2.2.Fetches 0xffffffff ∧
      ¬ (f.executeAndAccess {} ⟨[]⟩ context).2.2.Fetches (0xfffffffe + 2) := by
  intro f context
  have hcounter : (f.executeAndAccess {} ⟨[]⟩ context).2.2.registers.counter = 0xffffffff := by
    decide +kernel
  have hfetches := hcounter ▸ (f.executeAndAccess {} ⟨[]⟩ context).2.2.fetches_counter
  refine ⟨isBranchAt_branchAt (by decide) (by decide), rfl, by decide +kernel,
    hfetches, fun hnext => ?_⟩
  exact absurd (hfetches.unique hnext) (by decide)

-- A branch that is not taken does nothing, but it is refused in the same cases.
theorem idle_of_not_holds (h : f.IsBranchAt cond link offset a) (registers : Registers)
    (vectors : VectorRegisters) {context : Context σ}
    (hholds : context.registers.holds cond = false) :
    (∃ fault, f.executeAndAccess registers vectors context = (some fault, f, context) ∧
      Refused link offset a fault) ∨
    ∃ f', f.executeAndAccess registers vectors context = (none, f', context) ∧
    f'.state = .completed ∧
      0 ≤ (a : Int) + offset ∧ (link = true → a + 1 < Word.bound) ∧
      ∀ committed : Context σ, (f'.commit committed).2 = committed := by
  have hret : cond ≠ .ret := by
    rintro rfl
    cases hholds
  obtain ⟨fault, hfault, hrefused⟩ | ⟨hpos, hlast, hexecute⟩ :=
    h.execute_cases hret registers vectors
  · exact .inl ⟨fault, executeAndAccess_of_error hfault context, hrefused⟩
  obtain ⟨f', hstate, hresult⟩ := executeAndAccess_of_branch h.results hexecute context
  rw [hholds, if_neg (by decide)] at hresult
  obtain ⟨hwrites, hresult⟩ := hresult
  refine .inr ⟨f', hresult, hstate, hpos, hlast, fun committed => ?_⟩
  rw [commit, hwrites]
  rfl

theorem idle_of_call :
    let f := branchAt .eq true (-3) 7
    let context : Context MainMemory := ⟨{}, ⟨[]⟩, .zeroed 1 0 (by decide)⟩
    f.IsBranchAt .eq true (-3) 7 ∧ context.registers.holds .eq = false ∧
      ∃ f', f.executeAndAccess {} ⟨[]⟩ context = (none, f', context) ∧
      (f'.commit context).2 = context := by
  intro f context
  have h : f.IsBranchAt .eq true (-3) 7 := isBranchAt_branchAt (by decide) (by decide)
  have hholds : context.registers.holds .eq = false := by decide
  refine ⟨h, hholds, ?_⟩
  obtain ⟨fault, -, ⟨hneg, -⟩ | ⟨-, -, hlast, -⟩⟩ | ⟨f', hresult, -, -, -, hcommit⟩ :=
    idle_of_not_holds h {} ⟨[]⟩ hholds
  · exact absurd hneg (by decide)
  · exact absurd hlast (by decide)
  · exact ⟨f', hresult, hcommit context⟩

-- A branch that nobody takes stops the run if it points before the first address, or if it could
-- link from the last one.
theorem refused_untaken :
    let f := branchAt .eq false (-1) 0
    let g := branchAt .eq true (-1) 0xffffffff
    let context : Context MainMemory := ⟨{}, ⟨[]⟩, .zeroed 1 0 (by decide)⟩
    f.IsBranchAt .eq false (-1) 0 ∧ g.IsBranchAt .eq true (-1) 0xffffffff ∧
    context.registers.holds .eq = false ∧
      (f.executeAndAccess {} ⟨[]⟩ context).1 = some (.branchOutside 0 (-1)) ∧
      (g.executeAndAccess {} ⟨[]⟩ context).1 = some .returnOutside := by
  intro f g context
  exact ⟨isBranchAt_branchAt (by decide) (by decide), isBranchAt_branchAt (by decide)
    (by decide), by decide,
    by decide +kernel, by decide +kernel⟩

end Flight

end

end PipelinedProcessor
