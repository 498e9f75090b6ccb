-- The layout of text blocks. More blanks before all the lines that have text, other blank
-- lines and blanks behind text do not change what a text block stands for, and laying out
-- keeps the number of lines, leaves no blanks at their ends, and is done after once.
import ShapeTraits.Proofs.CarriageReturns
import ShapeTraits.Proofs.Seam

namespace ShapeTraits

namespace TextBlock

/-! ## Other blanks -/

/-- A line with `more` blanks before it and, if it has text, any blanks behind it. -/
def Padded (more : Nat) (line padded : Bytes) : Prop :=
  ∃ before behind, padded = before ++ line ++ behind ∧ isBlank before ∧ before.length = more ∧
    isBlank behind ∧ (isBlank line → behind = [])

/-- The same lines with other blanks: `more` of them before every line with text and
before the last one, any behind text, and any in the other blank lines. -/
inductive Respaced (more : Nat) : (lines respaced : List Bytes) → Prop
  | last {line padded : Bytes} (pads : Padded more line padded) : Respaced more [line] [padded]
  | text {line padded : Bytes} {lines respaced : List Bytes} (hasText : isBlank line = false)
      (pads : Padded more line padded) (behind : Respaced more lines respaced) :
      Respaced more (line :: lines) (padded :: respaced)
  | blank {line other : Bytes} {lines respaced : List Bytes} (isBlank : isBlank line)
      (otherIsBlank : TextBlock.isBlank other) (behind : Respaced more lines respaced) :
      Respaced more (line :: lines) (other :: respaced)

/-! ## Single lines -/

variable {line padded blanks behind : Bytes} {b : UInt8} {more width : Nat}

theorem isBlank_append (before line : Bytes) :
    isBlank (before ++ line) = (isBlank before && isBlank line) :=
  List.all_append

theorem blank_of_mem (h : isBlank blanks) : ∀ b ∈ blanks, Byte.isBlank b = true :=
  List.all_eq_true.mp h

/-- A line with text: its first byte that is no blank. -/
theorem exists_text (h : isBlank line = false) :
    ∃ blanks b behind, line = blanks ++ b :: behind ∧ isBlank blanks ∧ Byte.isBlank b = false := by
  have hsplit : line.takeWhile Byte.isBlank ++ line.dropWhile Byte.isBlank = line :=
    List.takeWhile_append_dropWhile
  cases hdrop : line.dropWhile Byte.isBlank with
  | nil =>
    rw [hdrop, List.append_nil] at hsplit
    rw [← hsplit, isBlank, List.all_takeWhile] at h
    cases h
  | cons b behind =>
    have hstop := List.head?_dropWhile_not Byte.isBlank line
    rw [hdrop] at hstop
    rw [hdrop] at hsplit
    exact ⟨_, b, behind, hsplit.symm, List.all_takeWhile, by simpa using hstop⟩

theorem isBlank_text (hb : Byte.isBlank b = false) : isBlank (blanks ++ b :: behind) = false := by
  simp [isBlank, hb]

theorem indent_text (hblanks : isBlank blanks) (hb : Byte.isBlank b = false) :
    indent (blanks ++ b :: behind) = blanks.length := by
  rw [indent, List.takeWhile_append_of_pos (blank_of_mem hblanks),
    List.takeWhile_cons_of_neg (by simp [hb]), List.append_nil]

theorem indent_blank (h : isBlank line) : indent line = line.length := by
  have hall := Bytes.avoids_nil.takeWhile_append (blank_of_mem h)
  rw [List.append_nil] at hall
  rw [indent, hall]

theorem layLine_blank (h : isBlank line) (width : Nat) : layLine width line = [] := if_pos h

/-- A line with text loses blanks before it and behind it. -/
theorem layLine_text (hb : Byte.isBlank b = false) (hwidth : width ≤ blanks.length) :
    layLine width (blanks ++ b :: behind) =
      blanks.drop width ++ b :: Bytes.dropTrailing Byte.isBlank behind := by
  rw [layLine, isBlank_text hb, if_neg Bool.false_ne_true, List.drop_append_of_le_length hwidth,
    Bytes.dropTrailing_append_of_stop hb]

theorem dropTrailing_append_blanks (hbehind : isBlank behind) (line : Bytes) :
    Bytes.dropTrailing Byte.isBlank (line ++ behind) = Bytes.dropTrailing Byte.isBlank line := by
  have hreverse : ∀ b ∈ behind.reverse, Byte.isBlank b = true :=
    fun b hb => blank_of_mem hbehind b (List.mem_reverse.mp hb)
  unfold Bytes.dropTrailing
  rw [List.reverse_append, List.dropWhile_append_of_pos hreverse]

namespace Padded

theorem isBlank_eq (h : Padded more line padded) : isBlank padded = isBlank line := by
  obtain ⟨before, behind, rfl, hbefore, -, hbehind, -⟩ := h
  simp [isBlank_append, hbefore, hbehind]

/-- A line with text at its first byte that is no blank, with the blanks around it. -/
theorem exists_text (h : Padded more line padded) (hline : isBlank line = false) :
    ∃ before blanks b text behind, line = blanks ++ b :: text ∧
      padded = (before ++ blanks) ++ b :: (text ++ behind) ∧ before.length = more ∧
      isBlank (before ++ blanks) ∧ isBlank blanks ∧ Byte.isBlank b = false ∧ isBlank behind := by
  obtain ⟨before, behind, rfl, hbefore, hmore, hbehind, -⟩ := h
  obtain ⟨blanks, b, text, rfl, hblanks, hb⟩ := TextBlock.exists_text hline
  refine ⟨before, blanks, b, text, behind, rfl, by simp, hmore, ?_, hblanks, hb, hbehind⟩
  rw [isBlank_append, hbefore, hblanks, Bool.and_self]

theorem indent_eq (h : Padded more line padded) : indent padded = more + indent line := by
  by_cases hline : isBlank line
  · obtain ⟨before, behind, rfl, hbefore, rfl, -, hnil⟩ := h
    have hall : isBlank (before ++ line) := by rw [isBlank_append, hbefore, hline, Bool.and_self]
    rw [hnil hline, List.append_nil, indent_blank hall, indent_blank hline, List.length_append]
  · obtain ⟨before, blanks, b, text, behind, rfl, rfl, rfl, hall, hblanks, hb, -⟩ :=
      h.exists_text (Bool.eq_false_iff.mpr hline)
    rw [indent_text hall hb, indent_text hblanks hb, List.length_append]

theorem layLine_eq (h : Padded more line padded)
    (hwidth : isBlank line = false → width ≤ indent line) :
    layLine (more + width) padded = layLine width line := by
  by_cases hline : isBlank line
  · rw [layLine_blank hline, layLine_blank (h.isBlank_eq.trans hline)]
  · rw [Bool.not_eq_true] at hline
    have hle := hwidth hline
    obtain ⟨before, blanks, b, text, behind, rfl, rfl, rfl, -, hblanks, hb, hbehind⟩ :=
      h.exists_text hline
    rw [indent_text hblanks hb] at hle
    have hle' : before.length + width ≤ (before ++ blanks).length := by
      rw [List.length_append]
      omega
    rw [layLine_text hb hle', layLine_text hb hle, dropTrailing_append_blanks hbehind,
      ← List.drop_drop, List.drop_left]

end Padded

/-! ## All lines -/

section

variable {lines respaced : List Bytes}

theorem margin_cons (h : lines ≠ []) (line : Bytes) : margin (line :: lines) =
    if isBlank line then margin lines else min (indent line) (margin lines) := by
  cases lines with
  | nil => exact absurd rfl h
  | cons next lines =>
    rw [margin]
    exact h

namespace Respaced

theorem ne_nil (h : Respaced more lines respaced) : lines ≠ [] ∧ respaced ≠ [] := by
  cases h <;> simp

/-- The margin grows with the lines. -/
theorem margin_eq (h : Respaced more lines respaced) : margin respaced = more + margin lines := by
  induction h with
  | last hpads => exact hpads.indent_eq
  | @text line padded lines respaced hline hpads hbehind ih =>
    obtain ⟨hlines, hrespaced⟩ := hbehind.ne_nil
    rw [margin_cons hlines, margin_cons hrespaced, hpads.isBlank_eq, hpads.indent_eq, hline, ih]
    simp
  | @blank line other lines respaced hline hother hbehind ih =>
    obtain ⟨hlines, hrespaced⟩ := hbehind.ne_nil
    rw [margin_cons hlines, margin_cons hrespaced, if_pos hline, if_pos hother, ih]

/-- Without the margin the lines are the same. -/
theorem layLines_eq (h : Respaced more lines respaced)
    (hwidth : ∀ line ∈ lines, isBlank line = false → width ≤ indent line) :
    respaced.map (layLine (more + width)) = lines.map (layLine width) := by
  induction h with
  | @last line padded hpads =>
    rw [List.map_singleton, List.map_singleton,
      hpads.layLine_eq (hwidth line (List.mem_singleton.mpr rfl))]
  | text hline hpads _ ih =>
    rw [List.forall_mem_cons] at hwidth
    rw [List.map_cons, List.map_cons, hpads.layLine_eq hwidth.1, ih hwidth.2]
  | blank hline hother _ ih =>
    rw [List.forall_mem_cons] at hwidth
    rw [List.map_cons, List.map_cons, layLine_blank hline, layLine_blank hother, ih hwidth.2]

end Respaced

/-! ## Laid lines -/

theorem layLine_ends (width : Nat) (line : Bytes) :
    ∀ b, (layLine width line).getLast? = some b → Byte.isBlank b = false := by
  intro b hb
  unfold layLine at hb
  split at hb
  · cases hb
  · have hstop := List.head?_dropWhile_not Byte.isBlank (line.drop width).reverse
    rw [Bytes.dropTrailing, List.getLast?_reverse] at hb
    rw [hb] at hstop
    simpa using hstop

/-- A line with text is its laid line with the blanks that it lost. -/
theorem padded_layLine (hline : isBlank line = false) (hwidth : width ≤ indent line) :
    Padded width (layLine width line) line := by
  obtain ⟨blanks, b, text, rfl, hblanks, hb⟩ := exists_text hline
  rw [indent_text hblanks hb] at hwidth
  obtain ⟨dropped, hsplit, hdropped⟩ := Bytes.dropTrailing_append Byte.isBlank text
  have hbefore : isBlank (blanks.take width) :=
    List.all_eq_true.mpr fun b hmem => blank_of_mem hblanks b (List.mem_of_mem_take hmem)
  rw [layLine_text hb hwidth]
  refine ⟨blanks.take width, dropped, ?_, hbefore, List.length_take_of_le hwidth,
    List.all_eq_true.mpr hdropped, ?_⟩
  · rw [← List.append_assoc, List.take_append_drop, List.append_assoc, List.cons_append, ← hsplit]
  · intro hlaid
    rw [isBlank_text hb] at hlaid
    cases hlaid

theorem mem_of_mem_layLine (h : b ∈ layLine width line) : b ∈ line := by
  unfold layLine at h
  split at h
  · cases h
  · obtain ⟨dropped, hsplit, -⟩ := Bytes.dropTrailing_append Byte.isBlank (line.drop width)
    refine List.mem_of_mem_drop (i := width) ?_
    rw [hsplit]
    exact List.mem_append_left dropped h

/-- A line that is laid out stays as it is. -/
theorem layLine_layLine (hwidth : isBlank line = false → width ≤ indent line) :
    layLine 0 (layLine width line) = layLine width line := by
  by_cases hline : isBlank line
  · rw [layLine_blank hline, layLine_blank (by rfl)]
  · rw [Bool.not_eq_true] at hline
    have hle := hwidth hline
    obtain ⟨blanks, b, text, rfl, hblanks, hb⟩ := exists_text hline
    rw [indent_text hblanks hb] at hle
    obtain ⟨dropped, hsplit, hdropped⟩ := Bytes.dropTrailing_append Byte.isBlank text
    have htext : Bytes.dropTrailing Byte.isBlank (Bytes.dropTrailing Byte.isBlank text) =
        Bytes.dropTrailing Byte.isBlank text := by
      rw [← dropTrailing_append_blanks (List.all_eq_true.mpr hdropped), ← hsplit]
    rw [layLine_text hb hle, layLine_text hb (Nat.zero_le _), List.drop_zero, htext]

/-- What a line with text loses of its blanks, its indentation loses. -/
theorem indent_layLine (hline : isBlank line = false) (hwidth : width ≤ indent line) :
    indent (layLine width line) = indent line - width := by
  obtain ⟨blanks, b, text, rfl, hblanks, hb⟩ := exists_text hline
  rw [indent_text hblanks hb] at hwidth ⊢
  have hdrop : isBlank (blanks.drop width) :=
    List.all_eq_true.mpr fun b hb => blank_of_mem hblanks b (List.mem_of_mem_drop hb)
  rw [layLine_text hb hwidth, indent_text hdrop hb, List.length_drop]

theorem isBlank_layLine (hwidth : isBlank line = false → width ≤ indent line) :
    isBlank (layLine width line) = isBlank line := by
  by_cases hline : isBlank line
  · rw [layLine_blank hline, hline]
    rfl
  · rw [Bool.not_eq_true] at hline
    have hle := hwidth hline
    obtain ⟨blanks, b, text, rfl, hblanks, hb⟩ := exists_text hline
    rw [indent_text hblanks hb] at hle
    rw [layLine_text hb hle, isBlank_text hb, isBlank_text hb]

/-- What all lines lose, the margin loses at least. -/
theorem margin_layLines (hwidth : width ≤ margin lines) :
    margin (lines.map (layLine width)) ≤ margin lines - width := by
  fun_induction margin lines with
  | case1 => exact Nat.zero_le _
  | case2 last =>
    have hlast : margin ([last].map (layLine width)) = indent (layLine width last) := rfl
    rw [hlast]
    by_cases hblank : isBlank last
    · rw [layLine_blank hblank]
      exact Nat.zero_le _
    · exact Nat.le_of_eq (indent_layLine (Bool.eq_false_iff.mpr hblank) hwidth)
  | case3 line rest hne hblank ih =>
    have hrest : rest.map (layLine width) ≠ [] := by simpa using hne
    rw [List.map_cons, margin_cons hrest, layLine_blank hblank, if_pos (by rfl)]
    exact ih hwidth
  | case4 line rest hne htext ih =>
    have hrest : rest.map (layLine width) ≠ [] := by simpa using hne
    have hline : isBlank line = false := Bool.eq_false_iff.mpr htext
    obtain ⟨hindent, hmargin⟩ := Nat.le_min.mp hwidth
    rw [List.map_cons, margin_cons hrest, isBlank_layLine fun _ => hindent, hline,
      if_neg Bool.false_ne_true, indent_layLine hline hindent]
    have := ih hmargin
    omega

end

/-! ## Bodies -/

variable {body : Bytes}

open Bytes (lines)

theorem bodyLines_eq (h : ∀ line ∈ lines body, Byte.carriageReturn ∉ line) :
    bodyLines body = lines body :=
  (List.map_congr_left fun line hline => withoutReturn_of_not_mem (h line hline)).trans
    (List.map_id _)

/-- Without carriage returns, laying out works on the lines. -/
theorem layOut_eq (h : ∀ line ∈ lines body, Byte.carriageReturn ∉ line) : layOut body =
    Bytes.joinWith [Byte.lineFeed] ((lines body).map (layLine (margin (lines body)))) := by
  rw [layOut, bodyLines_eq h]

theorem lines_layOut (h : ∀ line ∈ lines body, Byte.carriageReturn ∉ line) :
    lines (layOut body) = (lines body).map (layLine (margin (lines body))) := by
  rw [layOut_eq h]
  refine Bytes.splitOn_joinWith (by simp [Bytes.lines_ne_nil]) fun laid hlaid hfeed => ?_
  obtain ⟨line, hline, rfl⟩ := List.mem_map.mp hlaid
  exact (Bytes.mem_lines body line hline).1 (mem_of_mem_layLine hfeed)

theorem lines_without_return (h : Byte.carriageReturn ∉ body) :
    ∀ line ∈ lines body, Byte.carriageReturn ∉ line :=
  fun line hline hreturn => h ((Bytes.mem_lines body line hline).2 _ hreturn)

theorem blank_no_return (h : isBlank blanks) : Byte.carriageReturn ∉ blanks := by
  intro hreturn
  cases blank_of_mem h _ hreturn

theorem Respaced.without_return {lines respaced : List Bytes} (h : Respaced more lines respaced)
    (hlines : ∀ line ∈ lines, Byte.carriageReturn ∉ line) :
    ∀ line ∈ respaced, Byte.carriageReturn ∉ line := by
  have hpadded {line padded : Bytes} (hpads : Padded more line padded)
      (hline : Byte.carriageReturn ∉ line) :
      Byte.carriageReturn ∉ padded := by
    obtain ⟨before, behind, rfl, hbefore, -, hbehind, -⟩ := hpads
    simp [hline, blank_no_return hbefore, blank_no_return hbehind]
  induction h with
  | last hpads => simpa using hpadded hpads (by simpa using hlines)
  | text _ hpads _ ih =>
    rw [List.forall_mem_cons] at hlines ⊢
    exact ⟨hpadded hpads hlines.1, ih hlines.2⟩
  | blank _ hother _ ih =>
    rw [List.forall_mem_cons] at hlines ⊢
    exact ⟨blank_no_return hother, ih hlines.2⟩

theorem layOut_respaced {respaced : Bytes} (hreturn : Byte.carriageReturn ∉ body)
    (h : Respaced more (lines body) (lines respaced)) : layOut respaced = layOut body := by
  have hbody := lines_without_return hreturn
  rw [layOut_eq (h.without_return hbody), layOut_eq hbody, h.margin_eq,
    h.layLines_eq fun line hline htext => margin_le hline htext]

/-- What is laid out once is laid out. -/
theorem layOut_layOut (hreturn : Byte.carriageReturn ∉ body) :
    layOut (layOut body) = layOut body := by
  have hbody := lines_without_return hreturn
  have hlaid := lines_layOut hbody
  have hzero : margin ((lines body).map (layLine (margin (lines body)))) = 0 := by
    have hmargin := margin_layLines (Nat.le_refl (margin (lines body)))
    omega
  have hagain : ∀ line ∈ lines (layOut body), Byte.carriageReturn ∉ line := by
    rw [hlaid]
    intro laid hmem hcarriage
    obtain ⟨line, hline, rfl⟩ := List.mem_map.mp hmem
    exact hbody line hline (mem_of_mem_layLine hcarriage)
  rw [layOut_eq hagain, hlaid, hzero, List.map_map, layOut_eq hbody]
  refine congrArg _ (List.map_congr_left fun line hline => ?_)
  exact layLine_layLine fun htext => margin_le hline htext

end TextBlock

/-! ## Where a text block ends -/

namespace Scan

variable {b : UInt8} {text before blanks line behind : Bytes}

/-- Three quotes. -/
def quotes : Bytes := [Byte.quote, Byte.quote, Byte.quote]

/-- The text of a text block, with the line break that opens it. -/
def blockText (opening text : Bytes) : Bytes := quotes ++ (opening ++ (text ++ quotes))

/-- Whether a text has the quotes that close a text block. -/
def hasClosing (text : Bytes) : Bool := (body closesTextBlock text).isClosed

/-- The first quotes that close a text block are those behind the text. -/
def IsBlockBody (text : Bytes) : Prop := body closesTextBlock (text ++ quotes) = ⟨text.length, true⟩

theorem after_eq_closed {found : Body} {count length : Nat} :
    found.after count = ⟨count + length, true⟩ ↔ found = ⟨length, true⟩ := by
  obtain ⟨width, isClosed⟩ := found
  simp [Body.after]

theorem closing_within (h : hasClosing text) :
    (body closesTextBlock text).width + 3 ≤ text.length := by
  have hquotes := closesTextBlock_length (body_closes h)
  rw [List.length_drop] at hquotes
  omega

/-- The quotes that close a text block close it before any other text. -/
theorem body_append_of_hasClosing (h : hasClosing text) (rest : Bytes) :
    body closesTextBlock (text ++ rest) = body closesTextBlock text := by
  have hclose {text : Bytes} (hlength : 3 ≤ text.length) :
      closesTextBlock (text ++ rest) = closesTextBlock text := by
    match text with
    | [] | [_] | [_, _] => simp at hlength
    | a :: b :: c :: text => rfl
  unfold hasClosing at h
  fun_induction body closesTextBlock text with
  | case1 => cases h
  | case2 b text hb =>
    have hb' := (hclose (closesTextBlock_length hb)).trans hb
    rw [List.cons_append] at hb' ⊢
    rw [body.eq_def]
    exact if_pos hb'
  | case3 => cases h
  | case4 c text hb ih =>
    have hlength : 3 ≤ (Byte.backslash :: c :: text).length := by
      have := closing_within h
      simp only [List.length_cons]
      omega
    have hb' := (hclose hlength).trans (Bool.eq_false_iff.mpr hb)
    exact (body_escape hb').trans (congrArg (Body.after 2) (ih h))
  | case5 b text hb hslash ih =>
    have hlength : 3 ≤ (b :: text).length := by
      have := closing_within h
      rw [List.length_cons]
      omega
    have hb' := (hclose hlength).trans (Bool.eq_false_iff.mpr hb)
    exact (body_plain hb' hslash).trans (congrArg (Body.after 1) (ih h))

/-- Without such quotes, the scan goes on behind a byte that is no mark. It does not
matter whether the byte is hidden. -/
theorem body_append_cons (hquote : b ≠ Byte.quote) (hslash : b ≠ Byte.backslash)
    (h : hasClosing before = false) (rest : Bytes) :
    body closesTextBlock (before ++ b :: rest) =
      (body closesTextBlock rest).after (before.length + 1) := by
  have havoids : Bytes.Avoids (· == Byte.quote) (b :: rest) :=
    Bytes.avoids_cons (beq_eq_false_iff_ne.mpr hquote)
  have hclose : ∀ text, closesTextBlock (text ++ b :: rest) = closesTextBlock text :=
    closesTextBlock_append havoids
  unfold hasClosing at h
  fun_induction body closesTextBlock before with
  | case1 => exact body_plain (hclose []) hslash
  | case2 => cases h
  | case3 => exact body_escape (hclose [Byte.backslash])
  | case4 c before hb ih =>
    have hb' := (hclose (Byte.backslash :: c :: before)).trans (Bool.eq_false_iff.mpr hb)
    rw [List.cons_append, List.cons_append] at hb' ⊢
    rw [body_escape hb', ih h]
    simp only [Body.after, List.length_cons, Body.mk.injEq, and_true]
    omega
  | case5 c before hb hc ih =>
    have hb' := (hclose (c :: before)).trans (Bool.eq_false_iff.mpr hb)
    rw [List.cons_append] at hb' ⊢
    rw [body_plain hb' hc, ih h]
    simp only [Body.after, List.length_cons, Body.mk.injEq, and_true]
    omega

theorem hasClosing_append_cons (hquote : b ≠ Byte.quote) (hslash : b ≠ Byte.backslash)
    (before rest : Bytes) :
    hasClosing (before ++ b :: rest) = (hasClosing before || hasClosing rest) := by
  cases h : hasClosing before with
  | true =>
    rw [hasClosing, body_append_of_hasClosing h]
    exact h
  | false =>
    rw [hasClosing, body_append_cons hquote hslash h]
    rfl

/-- A byte that is no mark parts a body into what has no closing quotes and a body. -/
theorem isBlockBody_append_cons (hquote : b ≠ Byte.quote) (hslash : b ≠ Byte.backslash) :
    IsBlockBody (before ++ b :: text) ↔ hasClosing before = false ∧ IsBlockBody text := by
  unfold IsBlockBody
  rw [List.append_assoc, List.cons_append, List.length_append, List.length_cons]
  cases h : hasClosing before with
  | true =>
    have hwithin := closing_within h
    rw [body_append_of_hasClosing h]
    refine iff_of_false (fun hbody => ?_) (by simp)
    have hwidth := congrArg Body.width hbody
    dsimp only at hwidth
    omega
  | false =>
    have hlength : before.length + (text.length + 1) = (before.length + 1) + text.length := by omega
    rw [body_append_cons hquote hslash h, hlength, after_eq_closed]
    simp

/-- Behind the body of a text block any text may follow its closing quotes. -/
theorem IsBlockBody.body_eq (h : IsBlockBody text) (rest : Bytes) :
    body closesTextBlock (text ++ (quotes ++ rest)) = ⟨text.length, true⟩ := by
  have hclosing : hasClosing (text ++ quotes) := congrArg Body.isClosed h
  rw [← List.append_assoc, body_append_of_hasClosing hclosing, h]

/-- The token of a text block is what its laid out body stands for. -/
theorem next_blockText (h : IsBlockBody text) {opening : Bytes}
    (hopening : opening = [Byte.lineFeed] ∨ opening = [Byte.carriageReturn, Byte.lineFeed])
    (rest : Bytes) :
    next (blockText opening text ++ rest) =
      decoded .textBlock (TextBlock.layOut text) (blockText opening text).length := by
  have hlength : (blockText opening text).length = text.length + opening.length + 6 := by
    simp only [blockText, quotes, List.length_append, List.length_cons, List.length_nil]
    omega
  have hnext : next (blockText opening text ++ rest) =
      textBlock (opening ++ (text ++ (quotes ++ rest))) := by
    simp [blockText]
    rfl
  have hbreak : lineBreakWidth (opening ++ (text ++ (quotes ++ rest))) = opening.length := by
    rcases hopening with rfl | rfl <;> rfl
  have hne : opening.length ≠ 0 := by
    rcases hopening with rfl | rfl <;> decide
  rw [hnext, textBlock, hbreak, if_neg hne, List.drop_left]
  dsimp only
  rw [h.body_eq, if_pos rfl, List.take_left, hlength]

/-! ## Blanks in a body -/

theorem blank_no_mark : ∀ b, Byte.isBlank b = true → b ≠ Byte.quote ∧ b ≠ Byte.backslash := by
  exact Byte.forall_of_lt (by decide +kernel)

theorem hasClosing_blanks_append (hblanks : TextBlock.isBlank blanks) (line : Bytes) :
    hasClosing (blanks ++ line) = hasClosing line := by
  induction blanks with
  | nil => rfl
  | cons b blanks ih =>
    obtain ⟨hb, hrest⟩ := Bool.and_eq_true_iff.mp hblanks
    obtain ⟨hquote, hslash⟩ := blank_no_mark b hb
    exact (hasClosing_append_cons hquote hslash [] (blanks ++ line)).trans (ih hrest)

theorem hasClosing_blank (hblanks : TextBlock.isBlank blanks) : hasClosing blanks = false := by
  rw [← List.append_nil blanks, hasClosing_blanks_append hblanks]
  rfl

theorem hasClosing_append_blanks (hblanks : TextBlock.isBlank blanks) (line : Bytes) :
    hasClosing (line ++ blanks) = hasClosing line := by
  cases blanks with
  | nil => rw [List.append_nil]
  | cons b blanks =>
    obtain ⟨hb, hrest⟩ := Bool.and_eq_true_iff.mp hblanks
    obtain ⟨hquote, hslash⟩ := blank_no_mark b hb
    rw [hasClosing_append_cons hquote hslash, hasClosing_blank hrest, Bool.or_false]

theorem IsBlockBody.blanks_append (h : IsBlockBody line) (hblanks : TextBlock.isBlank blanks) :
    IsBlockBody (blanks ++ line) := by
  induction blanks with
  | nil => exact h
  | cons b blanks ih =>
    obtain ⟨hb, hrest⟩ := Bool.and_eq_true_iff.mp hblanks
    obtain ⟨hquote, hslash⟩ := blank_no_mark b hb
    have hnil : hasClosing [] = false ∧ IsBlockBody (blanks ++ line) := ⟨rfl, ih hrest⟩
    exact (isBlockBody_append_cons hquote hslash).mpr hnil

theorem isBlockBody_blank (hblanks : TextBlock.isBlank blanks) : IsBlockBody blanks := by
  have hnil : IsBlockBody [] := rfl
  rw [← List.append_nil blanks]
  exact hnil.blanks_append hblanks

theorem IsBlockBody.not_hasClosing (h : IsBlockBody line) : hasClosing line = false := by
  refine Bool.eq_false_iff.mpr fun hclosing => ?_
  have hwithin := closing_within hclosing
  have hwidth := congrArg Body.width ((body_append_of_hasClosing hclosing quotes).symm.trans h)
  dsimp only at hwidth
  omega

theorem IsBlockBody.append_blanks (h : IsBlockBody line) (hblanks : TextBlock.isBlank blanks) :
    IsBlockBody (line ++ blanks) := by
  cases blanks with
  | nil => rwa [List.append_nil]
  | cons b blanks =>
    obtain ⟨hb, hrest⟩ := Bool.and_eq_true_iff.mp hblanks
    obtain ⟨hquote, hslash⟩ := blank_no_mark b hb
    exact (isBlockBody_append_cons hquote hslash).mpr ⟨h.not_hasClosing, isBlockBody_blank hrest⟩

end Scan

namespace TextBlock

open Scan

variable {more : Nat} {body line padded : Bytes}

theorem Padded.hasClosing_eq (h : Padded more line padded) :
    hasClosing padded = hasClosing line := by
  obtain ⟨before, behind, rfl, hbefore, -, hbehind, -⟩ := h
  rw [hasClosing_append_blanks hbehind, hasClosing_blanks_append hbefore]

theorem Padded.isBlockBody (h : Padded more line padded) (hline : IsBlockBody line) :
    IsBlockBody padded := by
  obtain ⟨before, behind, rfl, hbefore, -, hbehind, -⟩ := h
  exact (hline.blanks_append hbefore).append_blanks hbehind

/-- Other blanks close no text block. -/
theorem Respaced.isBlockBody {lines respaced : List Bytes} (h : Respaced more lines respaced)
    (hlines : IsBlockBody (Bytes.joinWith [Byte.lineFeed] lines)) :
    IsBlockBody (Bytes.joinWith [Byte.lineFeed] respaced) := by
  have hfeed {line rest : Bytes} : IsBlockBody (line ++ Byte.lineFeed :: rest) ↔
      hasClosing line = false ∧ IsBlockBody rest := isBlockBody_append_cons (by decide) (by decide)
  induction h with
  | last hpads => exact hpads.isBlockBody hlines
  | text _ hpads hbehind ih =>
    obtain ⟨hlines', hrespaced⟩ := hbehind.ne_nil
    rw [Bytes.joinWith_cons hlines', hfeed] at hlines
    rw [Bytes.joinWith_cons hrespaced, hfeed, hpads.hasClosing_eq]
    exact ⟨hlines.1, ih hlines.2⟩
  | blank _ hother hbehind ih =>
    obtain ⟨hlines', hrespaced⟩ := hbehind.ne_nil
    rw [Bytes.joinWith_cons hlines', hfeed] at hlines
    rw [Bytes.joinWith_cons hrespaced, hfeed]
    exact ⟨hasClosing_blank hother, ih hlines.2⟩

/-! ## The laws -/

/-- A body without carriage returns is laid out as it is with `more` blanks before its
lines, with other blank lines and with blanks behind its text, and the text block is the
same token. Laid out, it has as many lines, and those with text have all lost the same
number of blanks before it; none ends with a blank, and the text is laid out already. -/
theorem the_layout_of_a_text_block_does_not_matter (hreturn : Byte.carriageReturn ∉ body) :
    (∀ more respaced, Respaced more (Bytes.lines body) (Bytes.lines respaced) →
      layOut respaced = layOut body ∧
      (IsBlockBody body → IsBlockBody respaced ∧
        ∀ opening ∈ [[Byte.lineFeed], [Byte.carriageReturn, Byte.lineFeed]],
          ∀ text ∈ [body, respaced], ∀ rest,
            next (blockText opening text ++ rest) =
              decoded .textBlock (layOut body) (blockText opening text).length)) ∧
      (Bytes.lines (layOut body)).length = (Bytes.lines body).length ∧
      (∃ width laid, Bytes.lines (layOut body) = (Bytes.lines body).map laid ∧
        ∀ line ∈ Bytes.lines body,
          if isBlank line then laid line = [] else Padded width (laid line) line) ∧
      (∀ line ∈ Bytes.lines (layOut body), ∀ b, line.getLast? = some b → Byte.isBlank b = false) ∧
      layOut (layOut body) = layOut body := by
  have hbody := lines_without_return hreturn
  refine ⟨fun more respaced h => ?_, ?_, ?_, ?_, layOut_layOut hreturn⟩
  · have hlaid := layOut_respaced hreturn h
    refine ⟨hlaid, fun hblock => ?_⟩
    have hrespaced : IsBlockBody respaced := by
      rw [← Bytes.joinWith_lines respaced]
      refine h.isBlockBody ?_
      rwa [Bytes.joinWith_lines]
    refine ⟨hrespaced, fun opening hopening text htext rest => ?_⟩
    simp only [List.mem_cons, List.not_mem_nil, or_false] at hopening htext
    rcases htext with rfl | rfl
    · exact next_blockText hblock hopening rest
    · rw [← hlaid]
      exact next_blockText hrespaced hopening rest
  · rw [lines_layOut hbody, List.length_map]
  · refine ⟨margin (Bytes.lines body), _, lines_layOut hbody, fun line hline => ?_⟩
    split
    · next hblank => exact layLine_blank hblank _
    · next htext =>
      rw [Bool.not_eq_true] at htext
      exact padded_layLine htext (margin_le hline htext)
  · intro line hline
    rw [lines_layOut hbody] at hline
    obtain ⟨_, -, rfl⟩ := List.mem_map.mp hline
    exact layLine_ends _ _

/-- Of two lines with text, a blank one between them and a last one of blanks. -/
theorem a_text_block_deeper_by_two :
    let body : Bytes := utf8 "  a\n\n   b\n  "
    let respaced : Bytes := utf8 "\t   a\t\n  \n     b\n \t  "
    Byte.carriageReturn ∉ body ∧ Respaced 2 (Bytes.lines body) (Bytes.lines respaced) ∧
      IsBlockBody body ∧
      layOut body = utf8 "a\n\n b\n" ∧ layOut respaced = layOut body ∧
      next (blockText [Byte.lineFeed] respaced) = ⟨.textBlock (utf8 "a\n\n b\n"), 28⟩ ∧
      layOut (layOut body) = layOut body := by
  intro body respaced
  have hreturn : Byte.carriageReturn ∉ body := by decide +kernel
  have hbody : Bytes.lines body = [utf8 "  a", [], utf8 "   b", utf8 "  "] := by decide +kernel
  have hlines :
      Bytes.lines respaced = [utf8 "\t   a\t", utf8 "  ", utf8 "     b", utf8 " \t  "] := by
    decide +kernel
  have hrespaced : Respaced 2 (Bytes.lines body) (Bytes.lines respaced) := by
    rw [hbody, hlines]
    refine .text (by decide +kernel) ⟨utf8 "\t ", utf8 "\t", by decide +kernel⟩ ?_
    refine .blank (by decide +kernel) (by decide +kernel) ?_
    refine .text (by decide +kernel) ⟨utf8 "  ", [], by decide +kernel⟩ ?_
    exact .last ⟨utf8 " \t", [], by decide +kernel⟩
  have hblock : IsBlockBody body := by
    unfold IsBlockBody
    decide +kernel
  obtain ⟨hsame, -, -, -, hagain⟩ := the_layout_of_a_text_block_does_not_matter hreturn
  obtain ⟨hlaid, htoken⟩ := hsame 2 respaced hrespaced
  have hnext := (htoken hblock).2 [Byte.lineFeed] (by decide) respaced (by simp) []
  rw [List.append_nil] at hnext
  exact ⟨hreturn, hrespaced, hblock, by decide +kernel, hlaid,
    hnext.trans (by decide +kernel), hagain⟩

end TextBlock

end ShapeTraits
