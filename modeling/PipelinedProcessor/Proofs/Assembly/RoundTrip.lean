import PipelinedProcessor.Proofs.Assembly.Canonical

namespace PipelinedProcessor.Assembly

open Instruction

theorem operands_nil (labels : Labels) : operands labels [] = .ok [] := rfl

theorem operands_cons {labels : Labels} {token : String} {rest : List String} {operand : Operand}
    {others : List Operand} (hread : Operand.read labels token = .ok operand)
    (hrest : operands labels rest = .ok others) :
    operands labels (token :: rest) = .ok (operand :: others) := by
  rw [operands, hread, hrest]
  rfl

theorem operands_append {labels : Labels} {parts rest : List String} {given others : List Operand}
    (hparts : operands labels parts = .ok given) (hrest : operands labels rest = .ok others) :
    operands labels (parts ++ rest) = .ok (given ++ others) := by
  induction parts generalizing given with
  | nil =>
      cases hparts
      exact hrest
  | cons token tail ih =>
      obtain ⟨operand, hread, h⟩ := ok_of_bind hparts
      obtain ⟨more, hmore, h⟩ := ok_of_bind h
      cases h
      exact operands_cons (ok_of_mapError hread) (ih hmore)

theorem operands_ite {labels : Labels} {token : String} {operand : Operand} (shown : Bool)
    (hread : Operand.read labels token = .ok operand) :
    operands labels (if shown then [token] else []) = .ok (if shown then [operand] else []) := by
  cases shown with
  | false => rfl
  | true => exact operands_cons hread (operands_nil labels)

theorem upper_scalarOp (op : ScalarOp) : Text.upper op.name = op.name := by cases op <;> decide

theorem upper_vectorOp (op : VectorOp) : Text.upper op.name = op.name := by cases op <;> decide

theorem ofName?_scalarOp (op : ScalarOp) : ScalarOp.ofName? op.name = some op := by
    cases op <;> decide

theorem ofName?_vectorOp (op : VectorOp) : VectorOp.ofName? op.name = some op := by
    cases op <;> decide

theorem ofName?_condition (cond : Condition) : Condition.ofName? cond.name = some cond := by
    cases cond <;> decide

-- The first words of lines that do not name an operation.
def reserved : List String := ["HALT", "END", "RETURN", "BRANCH", "CALL", "SHIFT"]

theorem scalarOp_not_reserved {op : ScalarOp} (h : op ≠ .shift) : op.name ∉ reserved := by
  cases op with
  | shift => exact absurd rfl h
  | _ => decide

theorem vectorOp_not_reserved (op : VectorOp) : op.name ∉ reserved := by cases op <;> decide

section

variable {labels : Labels} {address : Nat} {line first : String} {rest : List String}

theorem instruction_eq_operation {given : List Operand} (htokens : tokens line = first :: rest)
    (hupper : Text.upper first = first) (hfirst : first ∉ reserved)
    (hgiven : operands labels rest = .ok given) :
    instruction labels address line = operation first given := by
  simp only [reserved, List.mem_cons, List.not_mem_nil, or_false, not_or] at hfirst
  simp [instruction, htokens, hupper, hfirst, hgiven]
  rfl

theorem instruction_eq_branch {link : Bool}
    (htokens : tokens line = (if link then "CALL" else "BRANCH") :: rest) :
    instruction labels address line = branch link address labels rest := by
  cases link with
  | false =>
      have hupper : Text.upper "BRANCH" = "BRANCH" := by decide
      simp [instruction, htokens, hupper]
  | true =>
      have hupper : Text.upper "CALL" = "CALL" := by decide
      simp [instruction, htokens, hupper]

end

theorem branchTo_repr (labels : Labels) (address : Nat) {offset : Int} (link : Bool)
    (cond : Condition) (h : offset.natAbs < 0x400000) :
    branchTo link address labels cond offset.repr = .ok (.branch cond link offset) := by
  have hread : Operand.read labels offset.repr = .ok (.immediate offset) :=
    Operand.read_repr labels (Nat.lt_trans h (by decide))
  have hfits : ¬ maxBranchOffset < offset.natAbs := Nat.not_lt.mpr (Nat.le_of_lt_succ h)
  rw [branchTo, hread]
  exact if_neg hfits

theorem fits?_of_le {n max : Nat} (h : n ≤ max) : fits? n max = some n := by
  simp [fits?, h]

theorem immediateField_of_le {n max : Nat} (h : n ≤ max) : immediateField n max = .ok n := by
  rw [immediateField, fits?_of_le h]
  rfl

theorem lengthField_of_le {n : Nat} (h : n ≤ maxVectorField) : lengthField n = .ok n := by
  rw [lengthField, fits?_of_le h]
  rfl

-- The operands that are shown of an operation, and those that it takes.
def taken (op : ScalarOp) (rd : Nat) (first second : Operand) : List Operand :=
  (if op.writesDestination then [.scalar rd] else []) ++ (if op.usesFirst then [first] else []) ++
    (if op.usesSecond then [second] else [])

theorem scalar_taken (op : ScalarOp) (rd : Nat) (first second : Operand) :
    scalar op (taken op rd first second) =
    combine op (if op.writesDestination then rd else 0) (if op.usesFirst then some first else none)
      (if op.usesSecond then some second else none) := by
  cases op <;> rfl

theorem head?_taken (op : ScalarOp) (rd : Nat) {first second : Operand}
    (hfirst : first.isVector = false) (hsecond : second.isVector = false) :
    (taken op rd first second).head?.any Operand.isVector = false := by
  cases op <;> first | rfl | assumption

section

variable {labels : Labels} {address : Nat} {line : String}

theorem instruction_scalarTokens {op : ScalarOp} (halu : op.isAlu) (hshift : op ≠ .shift)
    {shown shown' : String} {rd : Nat} {first second : Operand} (hrd : rd < Register.count)
    (htokens : tokens line = scalarTokens op rd shown shown')
    (hfirst : Operand.read labels shown = .ok first)
    (hsecond : Operand.read labels shown' = .ok second) (hscalar : first.isVector = false)
    (hscalar' : second.isVector = false) : instruction labels address line =
      combine op (if op.writesDestination then rd else 0)
        (if op.usesFirst then some first else none)
        (if op.usesSecond then some second else none) := by
  have hdestination := operands_ite op.writesDestination (Operand.read_registerToken labels hrd)
  have hgiven : operands labels _ = .ok (taken op rd first second) :=
    operands_append (operands_append hdestination (operands_ite op.usesFirst hfirst))
      (operands_ite op.usesSecond hsecond)
  have hmemory : op.isMemory = false := by simpa [ScalarOp.isAlu] using halu
  rw [instruction_eq_operation htokens (upper_scalarOp op) (scalarOp_not_reserved hshift) hgiven]
  simp only [operation, head?_taken op rd hscalar hscalar', ofName?_scalarOp, hmemory,
    Bool.false_eq_true, if_false]
  exact scalar_taken op rd first second

theorem instruction_transferTokens {op : ScalarOp} (hmemory : op.isMemory) {rd : Nat}
    (hrd : rd < Register.count) {rest : List String} {others : List Operand}
    (htokens : tokens line = op.name :: registerToken rd :: rest)
    (hothers : operands labels rest = .ok others) :
    instruction labels address line = transfer op (.scalar rd :: others) := by
  have hshift : op ≠ .shift := by
    rintro rfl
    exact absurd hmemory (by decide)
  rw [instruction_eq_operation htokens (upper_scalarOp op) (scalarOp_not_reserved hshift)
    (operands_cons (Operand.read_registerToken labels hrd) hothers)]
  simp [operation, Operand.isVector, ofName?_scalarOp, hmemory]

theorem instruction_vectorTokens {op : VectorOp} {vd : Nat} (hvd : vd < Register.count)
    {rest : List String} {others : List Operand}
    (htokens : tokens line = op.name :: vectorToken vd :: rest)
    (hothers : operands labels rest = .ok others) : instruction labels address line =
      if op.isMemory then vectorTransfer op (.vector vd :: others)
      else vector op (.vector vd :: others) := by
  rw [instruction_eq_operation htokens (upper_vectorOp op) (vectorOp_not_reserved op)
    (operands_cons (Operand.read_vectorToken labels hvd) hothers)]
  simp [operation, Operand.isVector, ofName?_vectorOp]

end

-- The operands that choose a form of instruction.

def firstOf : Operands → Nat → Operand
  | .direct => .scalar
  | .indirect => .indirect
  | .mixed => .indirect

def secondOf : Operands → Nat → Operand
  | .direct => .scalar
  | .indirect => .indirect
  | .mixed => .scalar

-- What is not shown of a settled instruction is zero, so that the operands shown give it back.
theorem combine_scalar {op : ScalarOp} {operands : Operands} {cond rd r1 r2 : Nat}
    (h : (Instruction.scalar operands cond op rd r1 r2).Settled) :
    combine op (if op.writesDestination then rd else 0)
      (if op.usesFirst then some (firstOf operands r1) else none)
      (if op.usesSecond then some (secondOf operands r2) else none) =
        .ok (.scalar operands cond op rd r1 r2) := by
  obtain ⟨rfl, hshift, hrd, hr1, hr2, hmixed⟩ := h
  cases operands <;> cases op <;>
    simp_all [combine, firstOf, secondOf, ScalarOp.writesDestination, ScalarOp.usesFirst,
      ScalarOp.usesSecond]

theorem combine_scalarImmediate {op : ScalarOp} {indirect : Bool} {rd r1 immediate : Nat}
    (h : (Instruction.scalarImmediate indirect op rd r1 immediate).Settled)
    (himmediate : immediate ≤ maxImmediate) :
    combine op (if op.writesDestination then rd else 0)
      (if op.usesFirst then some (if indirect then .indirect r1 else .scalar r1) else none)
      (if op.usesSecond then some (.immediate immediate) else none) =
        .ok (.scalarImmediate indirect op rd r1 immediate) := by
  obtain ⟨hshift, hrd, hr1, hsecond, hindirect⟩ := h
  have hfield := immediateField_of_le himmediate
  cases indirect <;> cases op <;>
    simp_all [combine, ScalarOp.writesDestination, ScalarOp.usesFirst,
      ScalarOp.usesSecond, Except.map]

-- One form of instruction after the other is read back from its text.

section

variable {labels : Labels} {address : Nat}

theorem text_scalar {operands : Operands} {cond : Nat} {op : ScalarOp} {rd r1 r2 : Nat}
    (h : (Instruction.scalar operands cond op rd r1 r2).Canonical) :
    instruction labels address (Instruction.scalar operands cond op rd r1 r2).text =
      .ok (.scalar operands cond op rd r1 r2) := by
  obtain ⟨⟨-, hrd, hr1, hr2⟩, halu, hsettled⟩ := h
  have htokens := tokens_text (.scalar operands cond op rd r1 r2) (by simp)
  have hshift := hsettled.2.1
  rw [← combine_scalar hsettled]
  cases operands with
  | direct =>
      exact instruction_scalarTokens halu hshift hrd htokens (Operand.read_registerToken labels hr1)
        (Operand.read_registerToken labels hr2) rfl rfl
  | indirect =>
      exact instruction_scalarTokens halu hshift hrd htokens (Operand.read_derefToken labels hr1)
        (Operand.read_derefToken labels hr2) rfl rfl
  | mixed =>
      exact instruction_scalarTokens halu hshift hrd htokens (Operand.read_derefToken labels hr1)
        (Operand.read_registerToken labels hr2) rfl rfl

theorem text_scalarImmediate {indirect : Bool} {op : ScalarOp} {rd r1 immediate : Nat}
    (h : (Instruction.scalarImmediate indirect op rd r1 immediate).Canonical) :
    instruction labels address (Instruction.scalarImmediate indirect op rd r1 immediate).text =
      .ok (.scalarImmediate indirect op rd r1 immediate) := by
  obtain ⟨⟨hrd, hr1, himmediate⟩, halu, hsettled⟩ := h
  have htokens := tokens_text (.scalarImmediate indirect op rd r1 immediate) (by simp)
  have hread : Operand.read labels immediate.repr = .ok (.immediate immediate) :=
    Operand.read_repr_nat labels (Nat.lt_trans himmediate (by decide))
  rw [← combine_scalarImmediate hsettled (Nat.le_of_lt_succ himmediate)]
  cases indirect with
  | false =>
      exact instruction_scalarTokens halu hsettled.1 hrd htokens
        (Operand.read_registerToken labels hr1) hread rfl rfl
  | true =>
      exact instruction_scalarTokens halu hsettled.1 hrd htokens
        (Operand.read_derefToken labels hr1) hread rfl rfl

theorem text_transfer {op : ScalarOp} {rd r1 : Nat}
    (h : (Instruction.transfer op rd r1).Canonical) :
    instruction labels address (Instruction.transfer op rd r1).text = .ok (.transfer op rd r1) := by
  obtain ⟨⟨hrd, hr1⟩, hmemory, -⟩ := h
  have htokens := tokens_text (.transfer op rd r1) (by simp)
  rw [instruction_transferTokens hmemory hrd htokens
    (operands_cons (Operand.read_registerToken labels hr1) (operands_nil labels))]
  rfl

theorem text_transferImmediate {op : ScalarOp} {rd immediate : Nat}
    (h : (Instruction.transferImmediate op rd immediate).Canonical) :
    instruction labels address (Instruction.transferImmediate op rd immediate).text =
      .ok (.transferImmediate op rd immediate) := by
  obtain ⟨⟨hrd, himmediate⟩, hmemory, -⟩ := h
  have htokens := tokens_text (.transferImmediate op rd immediate) (by simp)
  have hread : Operand.read labels immediate.repr = .ok (.immediate immediate) :=
    Operand.read_repr_nat labels (Nat.lt_trans himmediate (by decide))
  have hfield : immediateField immediate maxStoredImmediate = .ok immediate :=
    immediateField_of_le (Nat.le_of_lt_succ himmediate)
  rw [instruction_transferTokens hmemory hrd htokens (operands_cons hread (operands_nil labels)),
    transfer, hfield]
  rfl

theorem text_branch {cond : Condition} {link : Bool} {offset : Int}
    (h : (Instruction.branch cond link offset).Canonical) :
    instruction labels address (Instruction.branch cond link offset).text =
      .ok (.branch cond link offset) := by
  have htokens := tokens_text (.branch cond link offset) (by simp)
  have htarget := branchTo_repr labels address link cond h.inRange
  by_cases hreturn : cond = .ret ∧ link = false ∧ offset = 0
  · obtain ⟨rfl, rfl, rfl⟩ := hreturn
    have hupper : Text.upper "RETURN" = "RETURN" := by decide
    simp [instruction, htokens, Instruction.tokens, hupper]
  · rw [tokens_branch hreturn] at htokens
    rw [instruction_eq_branch htokens]
    by_cases halways : cond = .always
    · subst halways
      exact htarget
    · have hupper : Text.upper "IF" = "IF" := by decide
      simp [halways, branch, hupper, ofName?_condition, htarget]

theorem text_vectorTransfer {op : VectorOp} {vd r1 length : Nat}
    (h : (Instruction.vectorTransfer op vd r1 length).Canonical) :
    instruction labels address (Instruction.vectorTransfer op vd r1 length).text =
      .ok (.vectorTransfer op vd r1 length) := by
  obtain ⟨⟨hvd, hr1, hlength⟩, hlegal, hsettled⟩ := h
  have hmemory : op.isMemory = true := hlegal
  have htokens := tokens_text (.vectorTransfer op vd r1 length) (by simp)
  have hscalar := Operand.read_registerToken labels hr1
  have hread : Operand.read labels length.repr = .ok (.immediate length) :=
    Operand.read_repr_nat labels (Nat.lt_trans hlength (by decide))
  have hfield : lengthField length = .ok length := lengthField_of_le (Nat.le_of_lt_succ hlength)
  cases op with
  | append =>
      obtain rfl := hsettled rfl
      rw [instruction_vectorTokens hvd htokens (operands_cons hscalar (operands_nil labels)),
        if_pos hmemory]
      rfl
  | load | store =>
      rw [instruction_vectorTokens hvd htokens
        (operands_cons hscalar (operands_cons hread (operands_nil labels))), if_pos hmemory,
        vectorTransfer, hfield]
      rfl
  | _ => cases hmemory

theorem text_vector {cond : Nat} {op : VectorOp} {vd v1 v2 length : Nat}
    (h : (Instruction.vector cond op vd v1 v2 length).Canonical) :
    instruction labels address (Instruction.vector cond op vd v1 v2 length).text =
      .ok (.vector cond op vd v1 v2 length) := by
  obtain ⟨⟨-, hvd, hv1, hv2, hlength⟩, halu, hsettled⟩ := h
  obtain rfl : cond = 0 := hsettled
  have hmemory : ¬ op.isMemory := by simpa [Instruction.HasLegalOp, VectorOp.isAlu] using halu
  have htokens := tokens_text (.vector 0 op vd v1 v2 length) (by simp)
  have hread : Operand.read labels length.repr = .ok (.immediate length) :=
    Operand.read_repr_nat labels (Nat.lt_trans hlength (by decide))
  rw [instruction_vectorTokens hvd htokens (operands_cons (Operand.read_vectorToken labels hv1)
    (operands_cons (Operand.read_vectorToken labels hv2)
      (operands_cons hread (operands_nil labels)))),
    if_neg hmemory, vector, lengthField_of_le (Nat.le_of_lt_succ hlength)]
  rfl

theorem text_vectorImmediate {cond : Nat} {op : VectorOp} {vd v1 immediate length : Nat}
    (h : (Instruction.vectorImmediate cond op vd v1 immediate length).Canonical) :
    instruction labels address (Instruction.vectorImmediate cond op vd v1 immediate length).text =
      .ok (.vectorImmediate cond op vd v1 immediate length) := by
  obtain ⟨⟨-, hvd, hv1, himmediate, hlength⟩, halu, hsettled⟩ := h
  obtain rfl : cond = 0 := hsettled
  have hmemory : ¬ op.isMemory := by simpa [Instruction.HasLegalOp, VectorOp.isAlu] using halu
  have htokens := tokens_text (.vectorImmediate 0 op vd v1 immediate length) (by simp)
  have hread (n : Nat) (hn : n < 0x20) : Operand.read labels n.repr = .ok (.immediate n) :=
    Operand.read_repr_nat labels (Nat.lt_trans hn (by decide))
  have hfield : immediateField immediate maxVectorField = .ok immediate :=
    immediateField_of_le (Nat.le_of_lt_succ himmediate)
  rw [instruction_vectorTokens hvd htokens (operands_cons (Operand.read_vectorToken labels hv1)
    (operands_cons (hread _ himmediate) (operands_cons (hread _ hlength) (operands_nil labels)))),
    if_neg hmemory, vector, lengthField_of_le (Nat.le_of_lt_succ hlength)]
  show (immediateField immediate maxVectorField).bind _ = _
  rw [hfield]
  rfl

theorem instruction_text {instr : Instruction} (h : instr.Canonical) :
    instruction labels address instr.text = .ok instr := by
  cases instr with
  | scalar operands cond op rd r1 r2 => exact text_scalar h
  | scalarImmediate indirect op rd r1 immediate => exact text_scalarImmediate h
  | transfer op rd r1 => exact text_transfer h
  | transferImmediate op rd immediate => exact text_transferImmediate h
  | branch cond link offset => exact text_branch h
  | vectorTransfer op vd r1 length => exact text_vectorTransfer h
  | vector cond op vd v1 v2 length => exact text_vector h
  | vectorImmediate cond op vd v1 immediate length => exact text_vectorImmediate h
  | halt => rfl
  | invalid raw => exact h.legalOp.elim

end

-- Every line that is accepted means a canonical instruction, also where labels are known, and the
-- text of a canonical instruction means that instruction.
theorem parse_text_inverse :
    (∀ line instr, parse line = .ok instr → instr.Canonical ∧ ofWord instr.encode = instr) ∧
    (∀ instr : Instruction, instr.Canonical → parse instr.text = .ok instr) ∧
    (∀ labels address line instr, instruction labels address line = .ok instr →
      instr.Canonical ∧ ofWord instr.encode = instr) ∧
    ∀ source instrs, program source = .ok instrs → ∀ instr ∈ instrs,
      instr.Canonical ∧ ofWord instr.encode = instr := by
  have hread (labels : Labels) (address : Nat) (line : String) (instr : Instruction)
      (h : instruction labels address line = .ok instr) :
        instr.Canonical ∧ ofWord instr.encode = instr :=
    have hcanonical := canonical_of_instruction h
    ⟨hcanonical, hcanonical.ofWord_encode⟩
  refine ⟨hread [] 0, fun instr => instruction_text, hread, ?_⟩
  intro source instrs h instr hinstr
  have hcanonical := canonical_of_program h instr hinstr
  exact ⟨hcanonical, hcanonical.ofWord_encode⟩

-- A flag is set by a number, and a call goes back to a label.
theorem parse_text_of_call :
    let source := "top:\n  set-flag 3 // of six\n  call top if lt\n"
    program source = .ok [.scalarImmediate false .setFlag 0 0 3, .branch .lt true (-1)] ∧
      Instruction.Canonical (.branch .lt true (-1)) ∧
      parse (Instruction.text (.branch .lt true (-1))) = .ok (.branch .lt true (-1)) ∧
      parse "  Set-Flag 0x3" = .ok (.scalarImmediate false .setFlag 0 0 3) ∧
      ofWord (encode (.scalarImmediate false .setFlag 0 0 3)) =
        .scalarImmediate false .setFlag 0 0 3 := by
  intro source
  have hprogram : program source = .ok [.scalarImmediate false .setFlag 0 0 3,
      .branch .lt true (-1)] := by decide
  have hline : parse "  Set-Flag 0x3" = .ok (.scalarImmediate false .setFlag 0 0 3) := by decide
  obtain ⟨hlines, htexts, -, hprograms⟩ := parse_text_inverse
  have hcall := (hprograms source _ hprogram (.branch .lt true (-1)) (by simp)).1
  exact ⟨hprogram, hcall, htexts _ hcall, hline, (hlines _ _ hline).2⟩

end PipelinedProcessor.Assembly
