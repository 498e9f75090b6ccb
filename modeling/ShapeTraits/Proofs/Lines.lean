-- Texts by their lines: a text is one line, or a line, its end and more text. So it is
-- split, and so the lines of a text block are found, behind the break that opens it.
import ShapeTraits.Token.Scan

namespace ShapeTraits

namespace Bytes

variable {separator : UInt8} {piece : Bytes}

theorem splitOn_of_not_mem (h : separator ∉ piece) : splitOn separator piece = [piece] := by
  induction piece with
  | nil => rfl
  | cons b piece ih =>
    obtain ⟨hb, hpiece⟩ := not_or.mp (mt List.mem_cons.mpr h)
    rw [splitOn, if_neg (Ne.symm hb), ih hpiece]

theorem splitOn_append (h : separator ∉ piece) (rest : Bytes) :
    splitOn separator (piece ++ separator :: rest) = piece :: splitOn separator rest := by
  induction piece with
  | nil => exact if_pos rfl
  | cons b piece ih =>
    obtain ⟨hb, hpiece⟩ := not_or.mp (mt List.mem_cons.mpr h)
    rw [List.cons_append, splitOn, if_neg (Ne.symm hb), ih hpiece]

theorem joinWith_cons {lines : List Bytes} (h : lines ≠ []) (line : Bytes) :
    joinWith [separator] (line :: lines) = line ++ separator :: joinWith [separator] lines := by
  cases lines with
  | nil => exact absurd rfl h
  | cons next lines => exact (List.append_cons _ _ _).symm

/-- Lines without a separator are what the text is split into that they are joined to. -/
theorem splitOn_joinWith {lines : List Bytes} (hne : lines ≠ [])
    (h : ∀ line ∈ lines, separator ∉ line) :
    splitOn separator (joinWith [separator] lines) = lines := by
  induction lines with
  | nil => exact absurd rfl hne
  | cons line lines ih =>
    obtain ⟨hline, hlines⟩ := List.forall_mem_cons.mp h
    cases lines with
    | nil => exact splitOn_of_not_mem hline
    | cons next lines =>
      have hnext := List.cons_ne_nil next lines
      rw [joinWith_cons hnext, splitOn_append hline, ih hnext hlines]

/-- What holds of every line, and of a line before any text that it holds of, holds of
every text. -/
theorem byLines {motive : Bytes → Prop} (last : ∀ line, Byte.lineFeed ∉ line → motive line)
    (cons : ∀ line rest, Byte.lineFeed ∉ line → motive rest →
      motive (line ++ Byte.lineFeed :: rest))
    (text : Bytes) : motive text := by
  induction hn : text.length using Nat.strongRecOn generalizing text with
  | ind n ih =>
    subst hn
    by_cases h : Byte.lineFeed ∈ text
    · obtain ⟨line, rest, rfl, hline⟩ := List.eq_append_cons_of_mem h
      have hlength : rest.length < (line ++ Byte.lineFeed :: rest).length := by
        rw [List.length_append, List.length_cons]
        omega
      exact cons line rest hline (ih _ hlength rest rfl)
    · exact last text h

/-! ## Lines -/

/-- The lines of a text, each without its line feed. -/
def lines (text : Bytes) : List Bytes := splitOn Byte.lineFeed text

theorem lines_of_line {line : Bytes} (h : Byte.lineFeed ∉ line) : lines line = [line] :=
  splitOn_of_not_mem h

theorem lines_append {line : Bytes} (h : Byte.lineFeed ∉ line) (rest : Bytes) :
    lines (line ++ Byte.lineFeed :: rest) = line :: lines rest := splitOn_append h rest

theorem lines_ne_nil (text : Bytes) : lines text ≠ [] := by
  induction text using byLines with
  | last line hline => simp [lines_of_line hline]
  | cons line rest hline ih => simp [lines_append hline]

/-- No line has a line feed, and the bytes of the lines are those of the text. -/
theorem mem_lines (text : Bytes) :
    ∀ line ∈ lines text, Byte.lineFeed ∉ line ∧ ∀ b ∈ line, b ∈ text := by
  induction text using byLines with
  | last line hline =>
    rw [lines_of_line hline, List.forall_mem_singleton]
    exact ⟨hline, fun _ hb => hb⟩
  | cons line rest hline ih =>
    rw [lines_append hline, List.forall_mem_cons]
    refine ⟨⟨hline, fun _ hb => List.mem_append_left _ hb⟩, fun other hother => ?_⟩
    obtain ⟨hfeed, hmem⟩ := ih other hother
    exact ⟨hfeed, fun b hb => List.mem_append_right _ (List.mem_cons_of_mem _ (hmem b hb))⟩

/-- A text is its lines with line feeds between them. -/
theorem joinWith_lines (text : Bytes) : joinWith [Byte.lineFeed] (lines text) = text := by
  induction text using byLines with
  | last line hline =>
    rw [lines_of_line hline]
    rfl
  | cons line rest hline ih => rw [lines_append hline, joinWith_cons (lines_ne_nil rest), ih]

end Bytes

namespace TextBlock

variable {line : Bytes}

theorem bodyLines_of_line (h : Byte.lineFeed ∉ line) :
    bodyLines line = [Source.withoutReturn line] := by
  rw [bodyLines, Bytes.splitOn_of_not_mem h, List.map_singleton]

theorem bodyLines_append (h : Byte.lineFeed ∉ line) (rest : Bytes) :
    bodyLines (line ++ Byte.lineFeed :: rest) = Source.withoutReturn line :: bodyLines rest := by
  rw [bodyLines, Bytes.splitOn_append h, List.map_cons, bodyLines]

theorem margin_le {lines : List Bytes} {line : Bytes} (hmem : line ∈ lines)
    (hline : isBlank line = false) :
    margin lines ≤ indent line := by
  fun_induction margin lines with
  | case1 => cases hmem
  | case2 last => exact Nat.le_of_eq (congrArg indent (List.mem_singleton.mp hmem).symm)
  | case3 first rest _ hblank ih =>
    rcases List.mem_cons.mp hmem with rfl | hmem
    · rw [hline] at hblank
      cases hblank
    · exact ih hmem
  | case4 first rest _ _ ih =>
    rcases List.mem_cons.mp hmem with rfl | hmem
    · exact Nat.min_le_left _ _
    · exact Nat.le_trans (Nat.min_le_right _ _) (ih hmem)

end TextBlock

/-- A text begins with a line feed, with a carriage return before one, or with no line
break. -/
theorem Scan.lineBreakWidth_cases (text : Bytes) :
    (∃ rest, text = Byte.lineFeed :: rest ∧ lineBreakWidth text = 1) ∨
      (∃ rest, text = Byte.carriageReturn :: Byte.lineFeed :: rest ∧ lineBreakWidth text = 2) ∨
      lineBreakWidth text = 0 := by
  cases text with
  | nil => exact .inr (.inr rfl)
  | cons b rest =>
    by_cases hfeed : b = Byte.lineFeed
    · subst hfeed
      exact .inl ⟨rest, rfl, rfl⟩
    by_cases hbreak : b = Byte.carriageReturn ∧ rest.head? = some Byte.lineFeed
    · obtain ⟨rfl, hhead⟩ := hbreak
      obtain ⟨more, rfl⟩ := List.head?_eq_some_iff.mp hhead
      exact .inr (.inl ⟨more, rfl, rfl⟩)
    · exact .inr (.inr (by rw [lineBreakWidth, if_neg hfeed, if_neg hbreak]))

end ShapeTraits
