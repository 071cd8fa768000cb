import Mathlib.Algebra.GroupWithZero.Nat
import Mathlib.Algebra.Order.BigOperators.Group.List
import Mathlib.Algebra.Order.Group.Nat
import PipelinedProcessor.Assembly.Program
import PipelinedProcessor.Proofs.Assembly.Tokens
import PipelinedProcessor.Proofs.Result

namespace PipelinedProcessor

namespace Text

theorem dropReturn_of_unbroken {cs : List Char} (h : ∀ c ∈ cs, c ≠ '\n' ∧ c ≠ '\r') :
    dropReturn cs = cs :=
  if_neg fun hlast => (h _ (List.mem_of_getLast? hlast)).2 rfl

theorem lines_intercalate {parts : List (List Char)} {last : List Char}
    (h : ∀ part ∈ parts ++ [last], ∀ c ∈ part, c ≠ '\n' ∧ c ≠ '\r') :
    lines (['\n'].intercalate (parts ++ [last])) = parts ++ if last = [] then [] else [last] := by
  have hpieces : pieces (· = '\n') (['\n'].intercalate (parts ++ [last])) = parts ++ [last] :=
    pieces_intercalate (by decide) (by simp) fun part hpart c hc => by
      simpa using (h part hpart c hc).1
  have hreturns : parts.map dropReturn = parts := by
    conv_rhs => rw [← List.map_id parts]
    exact List.map_congr_left fun part hpart =>
      dropReturn_of_unbroken (h part (List.mem_append_left _ hpart))
  rw [lines, hpieces, List.dropLast_concat, hreturns, List.getLast?_concat]
  split <;> simp_all

theorem length_trim_lt (cs : List Char) {c : Char} (hc : isBlank c = false) :
    (trim cs).length < (trim (cs ++ [c])).length := by
  have hdrop : (cs ++ [c]).dropWhile isBlank = cs.dropWhile isBlank ++ [c] := by
    rw [List.dropWhile_append]
    split <;> simp_all
  have htrim : trim (cs ++ [c]) = cs.dropWhile isBlank ++ [c] := by
    rw [trim, hdrop, List.reverse_concat, List.dropWhile_cons_of_neg (by simp [hc]),
      List.reverse_cons, List.reverse_reverse]
  have hle : (trim cs).length ≤ (cs.dropWhile isBlank).length := by
    have := (List.dropWhile_sublist isBlank (l := (cs.dropWhile isBlank).reverse)).length_le
    simpa [trim] using this
  rw [htrim, List.length_append, List.length_singleton]
  omega

end Text

namespace Assembly

-- Only two slashes in a row begin a comment.
theorem uncomment_cons {c : Char} {rest : List Char} (h : ¬ (c = '/' ∧ rest.head? = some '/')) :
    uncomment (c :: rest) = c :: uncomment rest := by
  rw [uncomment]
  rintro comment rfl rfl
  exact h ⟨rfl, rfl⟩

theorem uncomment_append {cs tail : List Char} (h : ¬ ['/', '/'] <:+: cs)
    (hjoint : cs.getLast? = some '/' → tail.head? ≠ some '/') :
    uncomment (cs ++ tail) = cs ++ uncomment tail := by
  induction cs with
  | nil => rfl
  | cons c rest ih =>
      have hrest : ¬ ['/', '/'] <:+: rest := fun hinfix => h (List.infix_cons hinfix)
      have hhead : ¬ (c = '/' ∧ (rest ++ tail).head? = some '/') := by
        rintro ⟨rfl, hslash⟩
        cases rest with
        | nil => exact hjoint rfl hslash
        | cons d more =>
            obtain rfl := Option.some.inj hslash
            exact h ⟨[], more, rfl⟩
      have hjoint' : rest.getLast? = some '/' → tail.head? ≠ some '/' := fun hlast =>
        hjoint (by rw [List.getLast?_cons, hlast]; rfl)
      rw [List.cons_append, uncomment_cons hhead, ih hrest hjoint', List.cons_append]

-- What is left of a line, its number apart.
def content (line : List Char) : List Char := Text.trim (uncomment line)

theorem numbered_congr {number : Nat} {lines lines' : List (List Char)}
    (h : lines.map content = lines'.map content) :
    numbered number lines = numbered number lines' := by
  induction lines generalizing number lines' with
  | nil => rw [List.map_eq_nil_iff.mp h.symm]
  | cons line rest ih =>
      obtain ⟨line', rest', rfl, hline, hrest⟩ := List.map_eq_cons_iff.mp h.symm
      have hline : Text.trim (uncomment line') = Text.trim (uncomment line) := hline
      simp only [numbered, hline]
      split <;> rw [ih hrest.symm]

theorem numbered_append_nil (number : Nat) (lines : List (List Char)) :
    numbered number (lines ++ [[]]) = numbered number lines := by
  induction lines generalizing number with
  | nil => rfl
  | cons line rest ih =>
      simp only [List.cons_append, numbered]
      split <;> rw [ih]

theorem sum_length_numbered (number : Nat) (lines : List (List Char)) :
    ((numbered number lines).map (·.text.length)).sum =
      (lines.map fun line => (content line).length).sum := by
  induction lines generalizing number with
  | nil => rfl
  | cons line rest ih =>
      simp only [numbered, List.map_cons, List.sum_cons, content]
      split
      · rename_i hempty
        rw [ih, hempty, List.length_nil, Nat.zero_add]
        rfl
      · rw [List.map_cons, List.sum_cons, ih, String.length_ofList]
        rfl

def Unbroken (text : String) : Prop := ∀ c ∈ text.toList, c ≠ '\n' ∧ c ≠ '\r'

-- The characters of the text are looked at, not all that there are.
instance (text : String) : Decidable (Unbroken text) :=
  List.decidableBAll (fun c => c ≠ '\n' ∧ c ≠ '\r') text.toList

-- A line of a source text with the text of the comment that is to stand after it, if any.
structure Remark where
  line : String
  comment : Option String
  unbroken_line : Unbroken line
  unbroken_comment : ∀ text ∈ comment, Unbroken text
  uncommented : comment.isSome → ¬ ['/', '/'] <:+: line.toList ∧ line.toList.getLast? ≠ some '/'

namespace Remark

def written (remark : Remark) : String :=
  match remark.comment with
  | none => remark.line
  | some text => remark.line ++ ("//" ++ text)

-- A backslash wants a character after it, which the end of the line does not give.
def Dangling (remark : Remark) : Prop := ∃ text ∈ remark.comment, endsInLoneBackslash text.toList

instance (remark : Remark) : Decidable remark.Dangling :=
  match h : remark.comment with
  | none => isFalse (by rintro ⟨text, htext, -⟩; rw [h] at htext; cases htext)
  | some text => decidable_of_iff (endsInLoneBackslash text.toList) (by simp [Dangling, h])

-- The line with what the comment leaves behind.
def remaining (remark : Remark) : String :=
  if remark.Dangling then remark.line ++ "\\" else remark.line

theorem unbroken_written (remark : Remark) : Unbroken remark.written := by
  unfold written
  split
  · exact remark.unbroken_line
  · rename_i text htext
    intro c hc
    simp only [String.toList_append, List.mem_append] at hc
    obtain hc | hc | hc := hc
    · exact remark.unbroken_line c hc
    · have hslashes : Unbroken "//" := by decide
      exact hslashes c hc
    · exact remark.unbroken_comment text htext c hc

theorem unbroken_remaining (remark : Remark) : Unbroken remark.remaining := by
  unfold remaining
  split
  · intro c hc
    rw [String.toList_append, List.mem_append] at hc
    obtain hc | hc := hc
    · exact remark.unbroken_line c hc
    · have hbackslash : Unbroken "\\" := by decide
      exact hbackslash c hc
  · exact remark.unbroken_line

theorem uncomment_line_append {remark : Remark} {text : String} (h : remark.comment = some text)
    (tail : List Char) :
    uncomment (remark.line.toList ++ tail) = remark.line.toList ++ uncomment tail := by
  obtain ⟨hplain, hlast⟩ := remark.uncommented (by rw [h]; rfl)
  exact uncomment_append hplain fun hslash => absurd hslash hlast

theorem uncomment_line {remark : Remark} {text : String} (h : remark.comment = some text) :
    uncomment remark.line.toList = remark.line.toList := by
  simpa [uncomment] using uncomment_line_append h []

theorem content_written (remark : Remark) :
    content remark.written.toList = content remark.remaining.toList := by
  cases hcomment : remark.comment with
  | none =>
      have hdangling : ¬ remark.Dangling := by simp [Dangling, hcomment]
      rw [written, hcomment, remaining, if_neg hdangling]
  | some text =>
      have hdangling : remark.Dangling ↔ endsInLoneBackslash text.toList := by
        simp [Dangling, hcomment]
      have hwritten : uncomment remark.written.toList =
          remark.line.toList ++ if endsInLoneBackslash text.toList then ['\\'] else [] := by
        rw [written, hcomment, String.toList_append, uncomment_line_append hcomment,
          String.toList_append]
        rfl
      have hremaining : uncomment remark.remaining.toList =
          remark.line.toList ++ if endsInLoneBackslash text.toList then ['\\'] else [] := by
        by_cases hlone : endsInLoneBackslash text.toList
        · rw [remaining, if_pos (hdangling.mpr hlone), if_pos hlone, String.toList_append,
            uncomment_line_append hcomment]
          rfl
        · rw [remaining, if_neg (mt hdangling.mp hlone), if_neg hlone,
            uncomment_line hcomment, List.append_nil]
      rw [content, content, hwritten, hremaining]

theorem length_content_lt (remark : Remark) (h : remark.Dangling) :
    (content remark.line.toList).length < (content remark.remaining.toList).length := by
  obtain ⟨text, htext, -⟩ := id h
  rw [content, content, remaining, if_pos h, String.toList_append, uncomment_line_append htext,
    uncomment_line htext]
  exact Text.length_trim_lt _ (by decide)

end Remark

def source (lines : List String) : String := "\n".intercalate lines

-- An empty last line makes no difference.
theorem strip_source {lines : List String} (h : ∀ line ∈ lines, Unbroken line) :
    strip (source lines) = numbered 1 (lines.map String.toList) := by
  have hparts : ∀ part ∈ lines.map String.toList, ∀ c ∈ part, c ≠ '\n' ∧ c ≠ '\r' := by
    intro part hpart
    obtain ⟨line, hline, rfl⟩ := List.mem_map.mp hpart
    exact h line hline
  rw [strip, source, String.toList_intercalate, show "\n".toList = ['\n'] from rfl]
  generalize lines.map String.toList = parts at hparts
  obtain rfl | ⟨first, last, rfl⟩ := parts.eq_nil_or_concat'
  · rfl
  · rw [Text.lines_intercalate hparts]
    split
    · rename_i hlast
      rw [hlast, List.append_nil, numbered_append_nil]
    · rfl

-- A comment changes nothing, a backslash at its end apart, which stays behind.
theorem strip_written (remarks : List Remark) :
    strip (source (remarks.map Remark.written)) =
      strip (source (remarks.map Remark.remaining)) := by
  have hwritten : ∀ line ∈ remarks.map Remark.written, Unbroken line :=
    List.forall_mem_map.mpr fun remark _ => remark.unbroken_written
  have hremaining : ∀ line ∈ remarks.map Remark.remaining, Unbroken line :=
    List.forall_mem_map.mpr fun remark _ => remark.unbroken_remaining
  rw [strip_source hwritten, strip_source hremaining]
  apply numbered_congr
  simp only [List.map_map]
  exact List.map_congr_left fun remark _ => remark.content_written

theorem map_remaining {remarks : List Remark} (h : ∀ remark ∈ remarks, ¬ remark.Dangling) :
    remarks.map Remark.remaining = remarks.map Remark.line :=
  List.map_congr_left fun remark hremark => if_neg (h remark hremark)

-- The characters left tell a line with such a backslash from the line alone.
theorem not_dangling_of_strip_eq {remarks : List Remark}
    (h : strip (source (remarks.map Remark.remaining)) = strip (source (remarks.map Remark.line))) :
    ∀ remark ∈ remarks, ¬ remark.Dangling := by
  have hremaining : ∀ line ∈ remarks.map Remark.remaining, Unbroken line :=
    List.forall_mem_map.mpr fun remark _ => remark.unbroken_remaining
  have hline : ∀ line ∈ remarks.map Remark.line, Unbroken line :=
    List.forall_mem_map.mpr fun remark _ => remark.unbroken_line
  rw [strip_source hremaining, strip_source hline] at h
  have hsum := congrArg (fun lines : List SourceLine => (lines.map (·.text.length)).sum) h
  simp only [sum_length_numbered, List.map_map] at hsum
  intro remark hremark hdangling
  have hle : ∀ other ∈ remarks, (content other.line.toList).length ≤
      (content other.remaining.toList).length := by
    intro other _
    by_cases hother : other.Dangling
    · exact Nat.le_of_lt (other.length_content_lt hother)
    · rw [Remark.remaining, if_neg hother]
  have hlt := List.sum_lt_sum _ _ hle ⟨remark, hremark, remark.length_content_lt hdangling⟩
  exact absurd hsum.symm (Nat.ne_of_lt hlt)

theorem program_congr {text text' : String} (h : strip text = strip text') :
    program text = program text' := by
  rw [program, program, h]

-- Each comment may leave a backslash on its own line. Where none does, the program is the one
-- without comments.
theorem comments_inert_iff (remarks : List Remark) :
    let commented := source (remarks.map Remark.written)
    let plain := source (remarks.map Remark.line)
    let left := source (remarks.map Remark.remaining)
    strip commented = strip left ∧ program commented = program left ∧
      (strip commented = strip plain ↔ ∀ remark ∈ remarks, ¬ remark.Dangling) ∧
      ((∀ remark ∈ remarks, ¬ remark.Dangling) → program commented = program plain) := by
  intro commented plain left
  have hleft : strip commented = strip left := strip_written remarks
  have hplain (h : ∀ remark ∈ remarks, ¬ remark.Dangling) : strip commented = strip plain := by
    rw [hleft]
    exact congrArg (fun lines => strip (source lines)) (map_remaining h)
  refine ⟨hleft, program_congr hleft,
    ⟨fun h => not_dangling_of_strip_eq (hleft.symm.trans h), hplain⟩, ?_⟩
  exact fun h => program_congr (hplain h)

-- So a comment can spoil a program.
theorem comment_with_backslash :
    ∃ remark : Remark, remark.comment = some "\\" ∧
      (program (source [remark.line])).toOption = some [.halt] ∧
      (program (source [remark.written])).toOption = none ∧
      strip (source [remark.line]) = [⟨1, "HALT"⟩] ∧
      strip (source [remark.written]) = [⟨1, "HALT\\"⟩] := by
  refine ⟨⟨"HALT", some "\\", by decide +kernel, by decide +kernel, by decide +kernel⟩, rfl, ?_⟩
  refine ⟨?_, ?_, ?_, ?_⟩ <;> decide +kernel

end Assembly

end PipelinedProcessor
