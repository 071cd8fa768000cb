import PipelinedProcessor.Proofs.Assembly.Operands

namespace PipelinedProcessor

namespace Text

-- A letter changes by its distance from the other case, and everything else is kept.
theorem toUpper_cases (c : Char) :
    c.toUpper = c ∨ (0x61 ≤ c.toNat ∧ c.toNat ≤ 0x7A ∧ c.toUpper.toNat + 0x20 = c.toNat) := by
  by_cases h : 'a'.val ≤ c.val ∧ c.val ≤ 'z'.val
  · refine .inr ?_
    have hval : c.toUpper.val = c.val + ('A'.val - 'a'.val) := by
      delta Char.toUpper
      rw [dif_pos h]
    have hnat : c.toUpper.toNat = (c.val + ('A'.val - 'a'.val)).toNat := congrArg UInt32.toNat hval
    obtain ⟨hlow, hhigh⟩ := h
    have hlow : 0x61 ≤ c.toNat := UInt32.le_iff_toNat_le.mp hlow
    have hhigh : c.toNat ≤ 0x7A := UInt32.le_iff_toNat_le.mp hhigh
    have hsame : c.val.toNat = c.toNat := rfl
    refine ⟨hlow, hhigh, ?_⟩
    rw [hnat, UInt32.toNat_add, hsame, show ('A'.val - 'a'.val).toNat = 0xFFFFFFE0 from rfl]
    omega
  · exact .inl (toUpper_of_not_isLower h)

-- Classes of characters without letters of ASCII, and without what stands between the cases of
-- those.

theorem inRanges_eq_false {ranges : List CharacterRange}
    (h : ∀ range ∈ ranges, range.2 < 0x41 ∨ 0x7A < range.1) {c : Char} (hlow : 0x41 ≤ c.toNat)
    (hhigh : c.toNat ≤ 0x7A) : inRanges ranges c = false := by
  simp only [inRanges, List.any_eq_false, Bool.and_eq_true, decide_eq_true_eq, not_and]
  intro range hrange hfirst hlast
  have := h range hrange
  omega

theorem inRanges_toUpper {ranges : List CharacterRange}
    (h : ∀ range ∈ ranges, range.2 < 0x41 ∨ 0x7A < range.1) (c : Char) :
    inRanges ranges c.toUpper = inRanges ranges c := by
  obtain heq | ⟨hlow, hhigh, hupper⟩ := toUpper_cases c
  · rw [heq]
  · rw [inRanges_eq_false h (by omega) (by omega), inRanges_eq_false h (by omega) (by omega)]

@[simp] theorem isBlank_toUpper (c : Char) : isBlank c.toUpper = isBlank c :=
  inRanges_toUpper (by decide) c

@[simp] theorem isDecimalDigit_toUpper (c : Char) : isDecimalDigit c.toUpper = isDecimalDigit c :=
  inRanges_toUpper (by decide) c

theorem toUpper_of_isDecimalDigit {c : Char} (h : isDecimalDigit c) : c.toUpper = c := by
  obtain heq | ⟨hlow, hhigh, -⟩ := toUpper_cases c
  · exact heq
  · rw [isDecimalDigit, inRanges_eq_false (by decide) (by omega) hhigh] at h
    cases h

-- What is no letter is the capital of itself only.
theorem toUpper_eq_iff (other : Char) (h : other.toNat < 0x41 ∨
    0x5A < other.toNat ∧ other.toNat < 0x61) (c : Char) : c.toUpper = other ↔ c = other := by
  obtain heq | ⟨hlow, hhigh, hupper⟩ := toUpper_cases c
  · rw [heq]
  · constructor <;> rintro rfl <;> omega

theorem map_toUpper_of_isNumeral {cs : List Char} (h : isNumeral cs) :
    cs.map Char.toUpper = cs := by
  simp only [isNumeral, Bool.and_eq_true, List.all_eq_true] at h
  exact (List.map_congr_left fun c hc => toUpper_of_isDecimalDigit (h.2 c hc)).trans
    (List.map_id cs)

@[simp] theorem isNumeral_map_toUpper (cs : List Char) :
    isNumeral (cs.map Char.toUpper) = isNumeral cs := by
  simp [isNumeral, Function.comp_def]

theorem isDigit_eq_decide (c : Char) : c.isDigit = decide (0x30 ≤ c.toNat ∧ c.toNat ≤ 0x39) := by
  rw [Bool.eq_iff_iff]
  simp only [Char.isDigit, Bool.and_eq_true, decide_eq_true_eq, ge_iff_le, UInt32.le_iff_toNat_le]
  exact Iff.rfl

theorem isHexDigit_eq_decide (c : Char) :
    c.isHexDigit = decide ((0x30 ≤ c.toNat ∧ c.toNat ≤ 0x39) ∨ (0x61 ≤ c.toNat ∧ c.toNat ≤ 0x66) ∨
      (0x41 ≤ c.toNat ∧ c.toNat ≤ 0x46)) := by
  rw [Bool.eq_iff_iff]
  simp only [Char.isHexDigit, isDigit_eq_decide, Bool.and_eq_true, Bool.or_eq_true,
    decide_eq_true_eq, ge_iff_le, UInt32.le_iff_toNat_le, or_assoc]
  exact Iff.rfl

@[simp] theorem isDigit_toUpper (c : Char) : c.toUpper.isDigit = c.isDigit := by
  obtain heq | ⟨hlow, hhigh, hupper⟩ := toUpper_cases c
  · rw [heq]
  · rw [isDigit_eq_decide, isDigit_eq_decide, decide_eq_decide]
    omega

-- The first six letters are digits in either case.
@[simp] theorem isHexDigit_toUpper (c : Char) : c.toUpper.isHexDigit = c.isHexDigit := by
  obtain heq | ⟨hlow, hhigh, hupper⟩ := toUpper_cases c
  · rw [heq]
  · rw [isHexDigit_eq_decide, isHexDigit_eq_decide, decide_eq_decide]
    omega

theorem hexDigitValue_toUpper (c : Char) : hexDigitValue c.toUpper = hexDigitValue c := by
  simp only [hexDigitValue, isDigit_toUpper, toUpper_toUpper]
  split
  · rename_i hdigit
    rw [toUpper_of_isDigit hdigit]
  · rfl

@[simp] theorem hexValue_map_toUpper (cs : List Char) :
    hexValue (cs.map Char.toUpper) = hexValue cs := by
  simp only [hexValue, List.foldl_map, hexDigitValue_toUpper]

theorem hexDigits?_cons_cons (c x : Char) (cs : List Char) :
    hexDigits? (c :: x :: cs) =
      if c = '0' ∧ (x = 'x' ∨ x = 'X') ∧ cs ≠ [] ∧ cs.all Char.isHexDigit
        then some cs else none := by
  unfold hexDigits?
  split
  · rename_i x' cs' heq
    obtain ⟨rfl, rfl, rfl⟩ := heq
    simp [and_assoc]
  · rename_i hne
    rw [if_neg]
    rintro ⟨rfl, -⟩
    exact hne x cs rfl

theorem toUpper_eq_x_iff (x : Char) : (x.toUpper = 'x' ∨ x.toUpper = 'X') ↔
    (x = 'x' ∨ x = 'X') := by
  simp only [← Char.toNat_inj]
  obtain heq | ⟨hlow, hhigh, hupper⟩ := toUpper_cases x
  · rw [heq]
  · rw [show 'x'.toNat = 0x78 from rfl, show 'X'.toNat = 0x58 from rfl]
    omega

theorem hexDigits?_map_toUpper (cs : List Char) :
    hexDigits? (cs.map Char.toUpper) = (hexDigits? cs).map (List.map Char.toUpper) := by
  match cs with
  | [] => rfl
  | [c] => simp [hexDigits?]
  | c :: x :: cs =>
      simp only [List.map_cons, hexDigits?_cons_cons, toUpper_eq_iff '0' (by decide),
        toUpper_eq_x_iff]
      simp [Function.comp_def, apply_ite]

end Text

namespace Assembly.Operand

theorem numbered?_map_toUpper (letter : Char) (cs : List Char) :
    numbered? letter (cs.map Char.toUpper) = numbered? letter cs := by
  cases cs with
  | nil => rfl
  | cons c digits =>
      simp only [List.map_cons, numbered?, Text.toUpper_toUpper, Text.isNumeral_map_toUpper]
      split
      case isTrue h =>
        rw [Text.map_toUpper_of_isNumeral (Bool.and_eq_true_iff.mp h).2]
      case isFalse => rfl

theorem enclosed?_cons (c : Char) (cs : List Char) :
    enclosed? (c :: cs) = if c = '[' ∧ cs.getLast? = some ']' then some cs.dropLast else none := by
  unfold enclosed?
  split
  · rename_i rest heq
    obtain ⟨rfl, rfl⟩ := heq
    simp
  · rename_i hne
    rw [if_neg]
    rintro ⟨rfl, -⟩
    exact hne cs rfl

theorem enclosed?_map_toUpper (cs : List Char) :
    enclosed? (cs.map Char.toUpper) = (enclosed? cs).map (List.map Char.toUpper) := by
  cases cs with
  | nil => rfl
  | cons c cs =>
      simp only [List.map_cons, enclosed?_cons, List.getLast?_map, Option.map_eq_some_iff,
        Text.toUpper_eq_iff '[' (by decide), Text.toUpper_eq_iff ']' (by decide), exists_eq_right,
        ← List.map_dropLast]
      split <;> rfl

theorem magnitude?_map_toUpper (cs : List Char) :
    magnitude? (cs.map Char.toUpper) = magnitude? cs := by
  simp only [magnitude?, Text.hexDigits?_map_toUpper]
  cases Text.hexDigits? cs with
  | some digits => simp
  | none =>
      simp only [Option.map_none, Text.isNumeral_map_toUpper]
      split
      case isTrue h => rw [Text.map_toUpper_of_isNumeral h]
      case isFalse => rfl

theorem number?_cons (c : Char) (cs : List Char) :
    number? (c :: cs) =
      if c = '-' then (magnitude? cs).map fun value => value.map fun n => -(n : Int)
      else (magnitude? (c :: cs)).map fun value => value.map fun n => (n : Int) := by
  unfold number?
  split
  · rename_i rest heq
    obtain ⟨rfl, rfl⟩ := heq
    rfl
  · rename_i hne
    rw [if_neg]
    rintro rfl
    exact hne cs rfl

theorem number?_map_toUpper (cs : List Char) : number? (cs.map Char.toUpper) = number? cs := by
  cases cs with
  | nil => rfl
  | cons c cs =>
      rw [List.map_cons, number?_cons, number?_cons, ← List.map_cons, magnitude?_map_toUpper,
        magnitude?_map_toUpper]
      simp only [Text.toUpper_eq_iff '-' (by decide)]

-- The token only stands in the error.
theorem toOption_registerNumber (token token' : String) (digits : List Char) :
    (registerNumber token digits).toOption = (registerNumber token' digits).toOption := by
  unfold registerNumber
  cases Text.decimal? unsignedBound digits with
  | none => rfl
  | some number => rfl

theorem toOption_read_upper (token : String) :
    (read [] (Text.upper token)).toOption = (read [] token).toOption := by
  have henclosed : (enclosed? (token.toList.map Char.toUpper)).bind (numbered? 'R') =
      (enclosed? token.toList).bind (numbered? 'R') := by
    rw [enclosed?_map_toUpper]
    cases enclosed? token.toList with
    | none => rfl
    | some inner => exact numbered?_map_toUpper 'R' inner
  simp only [read, Text.upper, String.toList_ofList, numbered?_map_toUpper,
    henclosed, number?_map_toUpper, List.lookup_nil]
  split
  · simp only [toOption_map, toOption_registerNumber _ token]
  split
  · simp only [toOption_map, toOption_registerNumber _ token]
  split
  · simp only [toOption_map, toOption_registerNumber _ token]
  split <;> rfl

end Assembly.Operand

namespace Assembly

open Text

-- The same characters up to the case of the letters, with blanks of any kind and number where there
-- are blanks.
inductive Respelled : List Char → List Char → Prop where
  | nil : Respelled [] []
  | char {c c' : Char} {cs cs' : List Char} : c.toUpper = c'.toUpper → Respelled cs cs' →
      Respelled (c :: cs) (c' :: cs')
  | gap {gap gap' cs cs' : List Char} : gap ≠ [] → gap' ≠ [] → gap.all isBlank → gap'.all isBlank →
      Respelled cs cs' → Respelled (gap ++ cs) (gap' ++ cs')

-- Around the whole line there may be blanks in one of the lines only.
def Alike (line line' : String) : Prop :=
  ∃ before text behind before' text' behind', line.toList = before ++ text ++ behind ∧
    line'.toList = before' ++ text' ++ behind' ∧ Respelled text text' ∧
    before.all isBlank ∧ behind.all isBlank ∧ before'.all isBlank ∧ behind'.all isBlank

section Words

variable {cs cs' gap gap' : List Char}

-- Blanks before a text make up empty pieces.
theorem pieces_of_blanks (h : gap.all isBlank) (cs : List Char) :
    pieces isBlank (gap ++ cs) = List.replicate gap.length [] ++ pieces isBlank cs := by
  induction gap with
  | nil => rfl
  | cons c gap ih =>
      simp only [List.all_cons, Bool.and_eq_true] at h
      rw [List.cons_append, pieces, if_pos h.1, ih h.2]
      rfl

theorem words_of_blanks (h : gap.all isBlank) (cs : List Char) : words (gap ++ cs) = words cs := by
  rw [words, pieces_of_blanks h, List.filter_append, List.filter_replicate_of_neg (by simp),
    List.nil_append, words]

-- Blanks behind a text lengthen none of its pieces.
theorem pieces_append_of_blanks (h : gap.all isBlank) (cs : List Char) :
    pieces isBlank (cs ++ gap) = pieces isBlank cs ++ List.replicate gap.length [] := by
  induction cs with
  | nil =>
      rw [List.nil_append, ← List.append_nil gap, pieces_of_blanks h, List.append_nil]
      exact List.replicate_append_replicate (n := gap.length) (m := 1)
  | cons c cs ih =>
      rw [List.cons_append, pieces, pieces, ih]
      obtain ⟨piece, others, heq⟩ := List.exists_cons_of_ne_nil (pieces_ne_nil isBlank cs)
      rw [heq]
      split <;> rfl

theorem words_append_of_blanks (h : gap.all isBlank) (cs : List Char) :
    words (cs ++ gap) = words cs := by
  rw [words, pieces_append_of_blanks h, List.filter_append,
    List.filter_replicate_of_neg (by simp), List.append_nil, words]

theorem pieces_map_toUpper (cs : List Char) :
    pieces isBlank (cs.map Char.toUpper) = (pieces isBlank cs).map (List.map Char.toUpper) := by
  induction cs with
  | nil => rfl
  | cons c cs ih =>
      rw [List.map_cons, pieces, pieces, ih, isBlank_toUpper]
      obtain ⟨piece, others, heq⟩ := List.exists_cons_of_ne_nil (pieces_ne_nil isBlank cs)
      rw [heq]
      split <;> rfl

theorem words_map_toUpper (cs : List Char) :
    words (cs.map Char.toUpper) = (words cs).map (List.map Char.toUpper) := by
  rw [words, pieces_map_toUpper, List.filter_map, words]
  simp [Function.comp_def]

-- The same beginning, and the same words after it. The beginning counts even where it is empty,
-- since the next character may belong to it.
def SameWords (cs cs' : List Char) : Prop :=
  ∃ piece others others', pieces isBlank cs = piece :: others ∧
  pieces isBlank cs' = piece :: others' ∧
    others.filter (· ≠ []) = others'.filter (· ≠ [])

theorem SameWords.words_eq (h : SameWords cs cs') : words cs = words cs' := by
  obtain ⟨piece, others, others', heq, heq', hothers⟩ := h
  rw [words, words, heq, heq', List.filter_cons, List.filter_cons, hothers]

theorem SameWords.cons (c : Char) (h : SameWords cs cs') : SameWords (c :: cs) (c :: cs') := by
  have hwords := h.words_eq
  obtain ⟨piece, others, others', heq, heq', hothers⟩ := h
  unfold SameWords
  simp only [pieces]
  by_cases hc : isBlank c
  · exact ⟨[], _, _, if_pos hc, if_pos hc, hwords⟩
  · rw [if_neg hc, if_neg hc, heq, heq']
    exact ⟨c :: piece, others, others', rfl, rfl, hothers⟩

theorem SameWords.append (hne : gap ≠ []) (hne' : gap' ≠ []) (hgap : gap.all isBlank)
    (hgap' : gap'.all isBlank) (h : SameWords cs cs') : SameWords (gap ++ cs) (gap' ++ cs') := by
  obtain ⟨c, more, rfl⟩ := List.exists_cons_of_ne_nil hne
  obtain ⟨c', more', rfl⟩ := List.exists_cons_of_ne_nil hne'
  simp only [List.all_cons, Bool.and_eq_true] at hgap hgap'
  refine ⟨[], pieces isBlank (more ++ cs), pieces isBlank (more' ++ cs'),
    if_pos hgap.1, if_pos hgap'.1, ?_⟩
  calc words (more ++ cs) = words cs := words_of_blanks hgap.2 cs
    _ = words cs' := h.words_eq
    _ = words (more' ++ cs') := (words_of_blanks hgap'.2 cs').symm

theorem Respelled.sameWords (h : Respelled cs cs') :
    SameWords (cs.map Char.toUpper) (cs'.map Char.toUpper) := by
  induction h with
  | nil => exact ⟨[], [], [], rfl, rfl, rfl⟩
  | char hc _ ih =>
      rw [List.map_cons, List.map_cons, hc]
      exact ih.cons _
  | gap hne hne' hgap hgap' _ ih =>
      rw [List.map_append, List.map_append]
      have hblank {cs : List Char} (h : cs.all isBlank) : (cs.map Char.toUpper).all isBlank := by
        simpa [Function.comp_def] using h
      exact ih.append (by simpa using hne) (by simpa using hne') (hblank hgap) (hblank hgap')

end Words

theorem upper_tokens_of_alike {line line' : String} (h : Alike line line') :
    (tokens line).map upper = (tokens line').map upper := by
  obtain ⟨before, text, behind, before', text', behind', hline, hline', htext,
      hbefore, hbehind, hbefore',
    hbehind'⟩ := h
  have hupper (cs : List Char) : ((words cs).map String.ofList).map upper =
      (words (cs.map Char.toUpper)).map String.ofList := by
    simp [words_map_toUpper, upper, Function.comp_def]
  rw [tokens, tokens, hline, hline', words_append_of_blanks hbehind,
    words_append_of_blanks hbehind', words_of_blanks hbefore, words_of_blanks hbefore', hupper,
    hupper, htext.sameWords.words_eq]

section Tokens

variable {rest rest' : List String}

theorem toOption_read_of_upper {token token' : String} (h : upper token = upper token') :
    (Operand.read [] token).toOption = (Operand.read [] token').toOption := by
  rw [← Operand.toOption_read_upper, h, Operand.toOption_read_upper]

theorem toOption_operands_cons (token : String) (rest : List String) :
    (operands [] (token :: rest)).toOption =
      (Operand.read [] token).toOption.bind fun operand =>
        (operands [] rest).toOption.map (operand :: ·) := by
  change (((Operand.read [] token).mapError LineError.operand).bind fun operand =>
    (operands [] rest).bind fun others => .ok (operand :: others)).toOption = _
  simp only [toOption_bind, toOption_mapError, bind_ok, toOption_map]

theorem toOption_operands_of_upper (h : rest.map upper = rest'.map upper) :
    (operands [] rest).toOption = (operands [] rest').toOption := by
  induction rest generalizing rest' with
  | nil =>
      obtain rfl := List.map_eq_nil_iff.mp h.symm
      rfl
  | cons token rest ih =>
      obtain ⟨token', rest', rfl, htoken, hrest⟩ := List.map_eq_cons_iff.mp h.symm
      rw [toOption_operands_cons, toOption_operands_cons,
        toOption_read_of_upper htoken, ih hrest.symm]

theorem toOption_branchTo_of_upper (link : Bool) (address : Nat) (cond : Condition)
    {target target' : String} (h : upper target = upper target') :
    (branchTo link address [] cond target).toOption =
      (branchTo link address [] cond target').toOption := by
  unfold branchTo
  apply toOption_bind_congr
  rw [toOption_mapError, toOption_mapError, toOption_read_of_upper h]

theorem ofName?_condition_of_upper {name name' : String} (h : upper name = upper name') :
    Condition.ofName? name = Condition.ofName? name' := by
  rw [Condition.ofName?, h, Condition.ofName?]

theorem toOption_branch_of_upper (link : Bool) (address : Nat)
    (h : rest.map upper = rest'.map upper) :
    (branch link address [] rest).toOption = (branch link address [] rest').toOption := by
  have hlength : rest.length = rest'.length := by simpa using congrArg List.length h
  match rest, rest', hlength with
  | [], [], _ => rfl
  | [target], [target'], _ =>
      exact toOption_branchTo_of_upper link address .always (List.cons.inj h).1
  | [_, _], [_, _], _ => rfl
  | [target, keyword, name], [target', keyword', name'], _ =>
      simp only [List.map_cons, List.map_nil, List.cons.injEq, and_true] at h
      obtain ⟨htarget, hkeyword, hname⟩ := h
      simp only [branch, hkeyword, ofName?_condition_of_upper hname]
      split
      · split
        · exact toOption_branchTo_of_upper link address _ htarget
        · rfl
      · rfl
  | _ :: _ :: _ :: _ :: _, _ :: _ :: _ :: _ :: _, _ => rfl

theorem toOption_instruction_of_upper (address : Nat) {line line' : String}
    (h : (tokens line).map upper = (tokens line').map upper) :
    (instruction [] address line).toOption = (instruction [] address line').toOption := by
  unfold instruction
  cases htokens : tokens line with
  | nil =>
      rw [htokens] at h
      rw [List.map_eq_nil_iff.mp h.symm]
  | cons first rest =>
      rw [htokens] at h
      obtain ⟨first', rest', htokens', hfirst, hrest⟩ := List.map_eq_cons_iff.mp h.symm
      have hnil : rest = [] ↔ rest' = [] := by
        rw [← List.map_eq_nil_iff (f := upper), ← hrest, List.map_eq_nil_iff]
      simp only [htokens', hfirst, hnil]
      split
      · rfl
      split
      · rfl
      split
      · exact toOption_branch_of_upper false address hrest.symm
      split
      · exact toOption_branch_of_upper true address hrest.symm
      split
      · rfl
      apply toOption_bind_congr
      exact toOption_operands_of_upper hrest.symm

end Tokens

-- Neither the case of the letters nor how the blanks between the tokens are made up counts for what
-- a line means.
theorem toOption_parse_of_alike {line line' : String} (h : Alike line line') :
    (parse line).toOption = (parse line').toOption :=
  toOption_instruction_of_upper 0 (upper_tokens_of_alike h)

theorem toOption_parse_of_tabulated :
    Alike "not\tr1  R0" " NOT R1 r0" ∧
    (parse "not\tr1  R0").toOption = (parse " NOT R1 r0").toOption ∧
      parse " NOT R1 r0" = .ok (.scalar .direct 0 .not 1 0 0) := by
  have hregisters : Respelled ([' ', ' '] ++ ['R', '0']) ([' '] ++ ['r', '0']) :=
    .gap (by decide) (by decide) rfl rfl (.char rfl (.char rfl .nil))
  have hgap : Respelled (['\t'] ++ ['r', '1', ' ', ' ', 'R', '0'])
      ([' '] ++ ['R', '1', ' ', 'r', '0']) :=
    .gap (by decide) (by decide) rfl rfl (.char rfl (.char rfl hregisters))
  have htext : Respelled ['n', 'o', 't', '\t', 'r', '1', ' ', ' ', 'R', '0']
      ['N', 'O', 'T', ' ', 'R', '1', ' ', 'r', '0'] := .char rfl (.char rfl (.char rfl hgap))
  have halike : Alike "not\tr1  R0" " NOT R1 r0" :=
    ⟨[], _, [], [' '], _, [], rfl, rfl, htext, rfl, rfl, rfl, rfl⟩
  exact ⟨halike, toOption_parse_of_alike halike, ok_of_toOption (by decide)⟩

end Assembly

end PipelinedProcessor
