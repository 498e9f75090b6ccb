-- The index of lines: halving its entries finds the line and column that counting finds,
-- and the text of that line has the byte in that column.
import Mathlib.Algebra.Group.Nat.Defs
import ShapeTraits.Source

namespace ShapeTraits

open Byte (lineFeed carriageReturn)

/-! ## Halving -/

namespace Source

theorem partitionPoint_eq {p : Nat → Bool} {entries : Array Nat} {first count point : Nat}
    (hparts : ∀ i < entries.size, p (entries.getD i 0) = true ↔ i < point) (hfirst : first ≤ point)
    (hpoint : point ≤ first + count) (hcount : first + count ≤ entries.size) :
    partitionPoint p entries first count = point := by
  -- The point stays between the first entry that is left and the end of those that are.
  fun_induction partitionPoint p entries first count with
  | case1 first => omega
  | case2 first count hne half hp ih =>
    have hbefore := (hparts (first + half) (by omega)).mp hp
    exact ih (by omega) (by omega) (by omega)
  | case3 first count hne half hp ih =>
    have hbehind := mt (hparts (first + half) (by omega)).mpr hp
    exact ih hfirst (by omega) (by omega)

/-- All entries that satisfy a test, and then none, are parted where they are. -/
theorem partitionPoint_append {p : Nat → Bool} {before behind : List Nat}
    (hbefore : ∀ x ∈ before, p x = true) (hbehind : ∀ x ∈ behind, p x = false) :
    partitionPoint p (before ++ behind).toArray 0
      (before ++ behind).toArray.size = before.length := by
  refine partitionPoint_eq (fun i hi => ?_) (Nat.zero_le _) ?_ (by simp)
  · have hget : (before ++ behind).toArray.getD i 0 = (before ++ behind)[i] := dif_pos hi
    rw [hget]
    by_cases hlt : i < before.length
    · rw [List.getElem_append_left hlt]
      exact iff_of_true (hbefore _ (List.getElem_mem hlt)) hlt
    · rw [List.getElem_append_right (Nat.not_lt.mp hlt)]
      refine iff_of_false ?_ hlt
      rw [hbehind _ (List.getElem_mem _)]
      exact Bool.false_ne_true
  · simp

end Source

/-! ## The last line of a text -/

namespace Bytes

variable {a b text : Bytes}

/-- What stands behind the last line feed of a text, or all of it. -/
def lastLine (text : Bytes) : Bytes := (text.reverse.takeWhile (· ≠ lineFeed)).reverse

theorem lineFeed_not_mem_lastLine (text : Bytes) : lineFeed ∉ lastLine text := by
  intro hmem
  have hall := List.all_eq_true.mp (List.all_takeWhile (l := text.reverse) (p := (· ≠ lineFeed)))
  simpa using hall _ (List.mem_reverse.mp hmem)

theorem lastLine_append (h : lineFeed ∉ b) (a : Bytes) : lastLine (a ++ b) = lastLine a ++ b := by
  have hall : ∀ c ∈ b.reverse, decide (c ≠ lineFeed) = true := fun c hc =>
    decide_eq_true fun hfeed => h (hfeed ▸ List.mem_reverse.mp hc)
  rw [lastLine, List.reverse_append, List.takeWhile_append_of_pos hall, List.reverse_append,
    List.reverse_reverse]
  rfl

/-- A text is its last line behind nothing or behind a line feed. -/
theorem exists_lastLine (text : Bytes) : ∃ lines, text = lines ++ lastLine text ∧
    (lines = [] ∨ ∃ before, lines = before ++ [lineFeed]) := by
  have hsplit := congrArg List.reverse
    (List.takeWhile_append_dropWhile (l := text.reverse) (p := (· ≠ lineFeed)))
  rw [List.reverse_append, List.reverse_reverse] at hsplit
  refine ⟨_, hsplit.symm, ?_⟩
  have hstop := List.head?_dropWhile_not (· ≠ lineFeed) text.reverse
  cases hdrop : text.reverse.dropWhile (· ≠ lineFeed) with
  | nil => exact .inl rfl
  | cons c before =>
    rw [hdrop] at hstop
    have hfeed : c = lineFeed := by simpa using hstop
    exact .inr ⟨before.reverse, by rw [hfeed, List.reverse_cons]⟩

theorem length_lastLine {lines : Bytes} (h : text = lines ++ lastLine text) :
    text.length = lines.length + (lastLine text).length := by
  rw [← List.length_append, ← h]

theorem count_lastLine {lines : Bytes} (h : text = lines ++ lastLine text) :
    text.count lineFeed = lines.count lineFeed := by
  have hlast := List.count_eq_zero_of_not_mem (lineFeed_not_mem_lastLine text)
  calc text.count lineFeed = (lines ++ lastLine text).count lineFeed := congrArg _ h
    _ = lines.count lineFeed := by rw [List.count_append, hlast, Nat.add_zero]

end Bytes

open Bytes (lastLine)

namespace Source

/-! ## The starts of lines -/

theorem startsBehind_append (offset : Nat) (a b : Bytes) :
    startsBehind offset (a ++ b) = startsBehind offset a ++ startsBehind (offset + a.length) b := by
  induction a generalizing offset with
  | nil => rfl
  | cons c a ih =>
    rw [List.cons_append, startsBehind, startsBehind, ih, List.length_cons, Nat.add_right_comm,
      Nat.add_assoc]
    split <;> rfl

theorem length_startsBehind (offset : Nat) (text : Bytes) :
    (startsBehind offset text).length = text.count lineFeed := by
  induction text generalizing offset with
  | nil => rfl
  | cons b text ih =>
    by_cases hb : b = lineFeed
    · rw [startsBehind, if_pos hb, List.length_cons, ih, hb, List.count_cons_self]
    · rw [startsBehind, if_neg hb, ih, List.count_cons_of_ne hb]

theorem startsBehind_bounds {offset : Nat} {text : Bytes} :
    ∀ start ∈ startsBehind offset text, offset < start ∧ start ≤ offset + text.length := by
  induction text generalizing offset with
  | nil => exact List.forall_mem_nil _
  | cons b text ih =>
    have hrest : ∀ start ∈ startsBehind (offset + 1) text,
        offset < start ∧ start ≤ offset + (b :: text).length := by
      intro start hstart
      have hbounds := ih start hstart
      rw [List.length_cons]
      omega
    rw [startsBehind]
    split
    · refine List.forall_mem_cons.mpr ⟨?_, hrest⟩
      rw [List.length_cons]
      omega
    · exact hrest

theorem size_lineStarts (s : Source) : s.lineStarts.size = 1 + s.content.count lineFeed := by
  simp [lineStarts, length_startsBehind, Nat.add_comm]

section Split

variable {s : Source} {before behind : Bytes} (h : s.content = before ++ behind)

include h

theorem content_eq {lines : Bytes} (hsplit : before = lines ++ lastLine before) :
    s.content = lines ++ (lastLine before ++ behind) := by
  rw [h, ← List.append_assoc, ← hsplit]

/-- The index by the starts in what is before an offset, and those behind it. -/
theorem lineStarts_eq : s.lineStarts =
    ((0 :: startsBehind 0 before) ++ startsBehind before.length behind).toArray := by
  rw [lineStarts, h, startsBehind_append, Nat.zero_add, List.cons_append]

/-- The number of a line is one more than the line feeds before it. -/
theorem number_eq : partitionPoint (· ≤ before.length) s.lineStarts 0 s.lineStarts.size =
    1 + before.count lineFeed := by
  rw [lineStarts_eq h, partitionPoint_append, List.length_cons, length_startsBehind, Nat.add_comm]
  · refine List.forall_mem_cons.mpr ⟨decide_eq_true (Nat.zero_le _), fun start hstart => ?_⟩
    have hbounds := startsBehind_bounds start hstart
    rw [Nat.zero_add] at hbounds
    exact decide_eq_true hbounds.2
  · intro start hstart
    exact decide_eq_false (Nat.not_le.mpr (startsBehind_bounds start hstart).1)

/-- A line starts where what is before it ends. -/
theorem start_eq :
    s.lineStarts.getD (before.count lineFeed) 0 = before.length - (lastLine before).length := by
  obtain ⟨lines, hsplit, hlines⟩ := Bytes.exists_lastLine before
  rw [Bytes.length_lastLine hsplit, Nat.add_sub_cancel, Bytes.count_lastLine hsplit,
    lineStarts_eq (content_eq h hsplit)]
  rcases hlines with rfl | ⟨start, rfl⟩
  · rfl
  · have hstarts : startsBehind 0 (start ++ [lineFeed]) =
        startsBehind 0 start ++ [start.length + 1] := by
      rw [startsBehind_append, Nat.zero_add]
      rfl
    have hcount : (start ++ [lineFeed]).count lineFeed = (startsBehind 0 start).length + 1 := by
      rw [length_startsBehind, List.count_append]
      rfl
    rw [hstarts, hcount]
    simp [Array.getD]

theorem locate_eq : s.locate before.length =
    ⟨s.file, UInt32.ofNat (1 + before.count lineFeed), UInt32.ofNat (lastLine before).length + 1,
      UInt32.ofNat before.length, 1⟩ := by
  obtain ⟨lines, hsplit, -⟩ := Bytes.exists_lastLine before
  have hle : (lastLine before).length ≤ before.length := by
    rw [Bytes.length_lastLine hsplit]
    exact Nat.le_add_left _ _
  rw [locate, number_eq h, Nat.add_sub_cancel_left, start_eq h, Nat.sub_sub_self hle]

/-- The text of a line goes on to the next line feed. -/
theorem line_eq : s.line (1 + before.count lineFeed) =
    withoutReturn (lastLine before ++ behind.takeWhile (· ≠ lineFeed)) := by
  obtain ⟨lines, hsplit, -⟩ := Bytes.exists_lastLine before
  have hcount : before.count lineFeed ≤ s.content.count lineFeed := by
    rw [h, List.count_append]
    omega
  have hthere :
      ¬(1 + before.count lineFeed = 0 ∨ s.lineStarts.size < 1 + before.count lineFeed) := by
    rw [size_lineStarts]
    omega
  have hdrop : s.content.drop lines.length = lastLine before ++ behind := by
    rw [content_eq h hsplit, List.drop_left]
  have hall : ∀ b ∈ lastLine before, decide (b ≠ lineFeed) = true := fun b hb =>
    decide_eq_true fun hfeed => Bytes.lineFeed_not_mem_lastLine before (hfeed ▸ hb)
  rw [line, if_neg hthere, Nat.add_sub_cancel_left, start_eq h,
    Bytes.length_lastLine hsplit, Nat.add_sub_cancel, hdrop, List.takeWhile_append_of_pos hall]

/-- The text of a line still has a byte of it that is no part of the line's end. -/
theorem getElem_line {b : UInt8} {rest : Bytes} (hbehind : behind = b :: rest)
    (hfeed : b ≠ lineFeed) (hreturn : b = carriageReturn → rest ≠ [] ∧ rest.head? ≠ some lineFeed) :
    (s.line (1 + before.count lineFeed))[(lastLine before).length]? = some b := by
  have hmore : b = carriageReturn → rest.takeWhile (· ≠ lineFeed) ≠ [] := by
    intro hb
    obtain ⟨hne, hhead⟩ := hreturn hb
    obtain ⟨c, more, rfl⟩ := List.exists_cons_of_ne_nil hne
    have hc : c ≠ lineFeed := by simpa using hhead
    rw [List.takeWhile_cons_of_pos (by simpa using hc)]
    exact List.cons_ne_nil _ _
  rw [line_eq h, hbehind, List.takeWhile_cons_of_pos (by simpa using hfeed), withoutReturn]
  generalize rest.takeWhile (· ≠ lineFeed) = more at hmore
  split
  · next hlast =>
    have hne : more ≠ [] := by
      rintro rfl
      refine hmore ?_ rfl
      simpa using hlast
    rw [List.dropLast_append_of_ne_nil (List.cons_ne_nil _ _), List.dropLast_cons_of_ne_nil hne]
    simp
  · simp

end Split

/-! ## Locations -/

section Locations

variable {s : Source} (hlength : s.content.length < 2 ^ 32 - 1)

include hlength

theorem line_toNat {before behind : Bytes} (h : s.content = before ++ behind) :
    (s.locate before.length).line.toNat = 1 + before.count lineFeed := by
  have hcount : before.count lineFeed ≤ before.length := List.count_le_length
  have hfits : 1 + before.count lineFeed < 2 ^ 32 := by
    rw [h, List.length_append] at hlength
    omega
  rw [locate_eq h]
  exact UInt32.toNat_ofNat_of_lt' hfits

theorem column_toNat {before behind : Bytes} (h : s.content = before ++ behind) :
    (s.locate before.length).column.toNat = 1 + (lastLine before).length := by
  obtain ⟨lines, hsplit, -⟩ := Bytes.exists_lastLine before
  have hfits : (lastLine before).length + 1 < 2 ^ 32 := by
    rw [h, List.length_append, Bytes.length_lastLine hsplit] at hlength
    omega
  have hcolumn : (UInt32.ofNat (lastLine before).length).toNat = (lastLine before).length :=
    UInt32.toNat_ofNat_of_lt' (Nat.lt_of_succ_lt hfits)
  rw [locate_eq h]
  dsimp only
  rw [UInt32.toNat_add, hcolumn, UInt32.toNat_one, Nat.mod_eq_of_lt hfits, Nat.add_comm]

/-- What stands later is on a later line, or further on the same line. -/
theorem locate_lt {before text behind : Bytes} (h : s.content = before ++ (text ++ behind))
    (hne : text ≠ []) :
    Prod.Lex (· < ·) (· < ·) ((s.locate before.length).line, (s.locate before.length).column)
      ((s.locate (before ++ text).length).line, (s.locate (before ++ text).length).column) := by
  have hlater : s.content = (before ++ text) ++ behind := by rw [h, List.append_assoc]
  have hline := line_toNat hlength h
  have hline' := line_toNat hlength hlater
  rw [List.count_append] at hline'
  by_cases hfeed : lineFeed ∈ text
  · have hpos := List.count_pos_iff.mpr hfeed
    refine .left _ _ (UInt32.lt_iff_toNat_lt.mpr ?_)
    omega
  · rw [List.count_eq_zero_of_not_mem hfeed, Nat.add_zero, ← hline] at hline'
    have hcolumn := column_toNat hlength h
    have hcolumn' := column_toNat hlength hlater
    have hpos := List.length_pos_iff.mpr hne
    have hlast : (lastLine before ++ text).length = (lastLine before).length + text.length :=
      List.length_append
    rw [Bytes.lastLine_append hfeed, hlast] at hcolumn'
    rw [UInt32.toNat_inj.mp hline']
    refine .right _ (UInt32.lt_iff_toNat_lt.mpr ?_)
    omega

theorem locate_lt_of_lt {a b : Nat} (hlt : a < b) (hb : b ≤ s.content.length) :
    Prod.Lex (· < ·) (· < ·) ((s.locate a).line, (s.locate a).column)
      ((s.locate b).line, (s.locate b).column) := by
  have hsplit : s.content = s.content.take a ++
      ((s.content.drop a).take (b - a) ++ s.content.drop b) := by
    have hbehind : s.content.drop b = (s.content.drop a).drop (b - a) := by
      rw [List.drop_drop, Nat.add_sub_cancel' (Nat.le_of_lt hlt)]
    rw [hbehind, List.take_append_drop, List.take_append_drop]
  have hbefore : (s.content.take a).length = a := List.length_take_of_le (by omega)
  have htext : ((s.content.drop a).take (b - a)).length = b - a :=
    List.length_take_of_le (by rw [List.length_drop]; omega)
  have hne : (s.content.drop a).take (b - a) ≠ [] := by
    rw [← List.length_pos_iff, htext]
    omega
  have horder := locate_lt hlength hsplit hne
  rwa [List.length_append, hbefore, htext, Nat.add_sub_cancel' (Nat.le_of_lt hlt)] at horder

theorem line_toNat_of_le {offset : Nat} (h : offset ≤ s.content.length) :
    (s.locate offset).line.toNat = 1 + (s.content.take offset).count lineFeed := by
  have hline := line_toNat hlength (List.take_append_drop offset s.content).symm
  rwa [List.length_take_of_le h] at hline

theorem column_toNat_of_le {offset : Nat} (h : offset ≤ s.content.length) :
    (s.locate offset).column.toNat = 1 + (lastLine (s.content.take offset)).length := by
  have hcolumn := column_toNat hlength (List.take_append_drop offset s.content).symm
  rwa [List.length_take_of_le h] at hcolumn

/-- The text of a line has a byte where its location says, if it is no part of the
line's end. -/
theorem getElem_line_locate {offset : Nat} {b : UInt8} (hb : s.content[offset]? = some b)
    (hfeed : b ≠ lineFeed)
    (hreturn : ¬(b = carriageReturn ∧
      (s.content[offset + 1]? = some lineFeed ∨ offset + 1 = s.content.length))) :
    (s.line (s.locate offset).line.toNat)[(s.locate offset).column.toNat - 1]? = some b := by
  obtain ⟨hoffset, hget⟩ := List.getElem?_eq_some_iff.mp hb
  have hbehind : s.content.drop offset = b :: s.content.drop (offset + 1) := by
    rw [List.drop_eq_getElem_cons hoffset, hget]
  rw [line_toNat_of_le hlength (Nat.le_of_lt hoffset),
    column_toNat_of_le hlength (Nat.le_of_lt hoffset), Nat.add_sub_cancel_left]
  refine getElem_line (List.take_append_drop offset s.content).symm hbehind hfeed fun hb => ?_
  refine ⟨fun hnil => ?_, fun hhead => ?_⟩
  · have hend := List.drop_eq_nil_iff.mp hnil
    exact hreturn ⟨hb, .inr (by omega)⟩
  · rw [List.head?_drop] at hhead
    exact hreturn ⟨hb, .inl hhead⟩

end Locations

theorem number_bounds {s : Source} {number : Nat} (h : s.line number ≠ []) :
    1 ≤ number ∧ number ≤ 1 + s.content.count lineFeed := by
  by_cases hthere : number = 0 ∨ s.lineStarts.size < number
  · exact absurd (if_pos hthere) h
  · rw [size_lineStarts] at hthere
    omega

/-! ## The law -/

/-- In a document that is not too long the location of an offset has the line and the
column that counting gives, in the order of the offsets; the text of the line has the
byte in the column unless it is of the line's end, and no other lines have text. -/
theorem the_line_index_counts_line_feeds {s : Source} (hlength : s.content.length < 2 ^ 32 - 1) :
    (∀ offset ≤ s.content.length,
      (s.locate offset).line.toNat = 1 + (s.content.take offset).count lineFeed ∧
      (s.locate offset).column.toNat = 1 + (lastLine (s.content.take offset)).length) ∧
    (∀ a b, a < b → b ≤ s.content.length → Prod.Lex (· < ·) (· < ·)
      ((s.locate a).line, (s.locate a).column) ((s.locate b).line, (s.locate b).column)) ∧
    (∀ offset b, s.content[offset]? = some b → b ≠ lineFeed →
      ¬(b = carriageReturn ∧
        (s.content[offset + 1]? = some lineFeed ∨ offset + 1 = s.content.length)) →
      (s.line (s.locate offset).line.toNat)[(s.locate offset).column.toNat - 1]? = some b) ∧
    ∀ number, s.line number ≠ [] → 1 ≤ number ∧ number ≤ 1 + s.content.count lineFeed := by
  refine ⟨fun offset h => ?_, fun a b hlt hb => ?_, fun offset b hb hfeed hreturn => ?_,
    fun number h => ?_⟩
  · exact ⟨line_toNat_of_le hlength h, column_toNat_of_le hlength h⟩
  · exact locate_lt_of_lt hlength hlt hb
  · exact getElem_line_locate hlength hb hfeed hreturn
  · exact number_bounds h

/-- Of a carriage return that ends no line, and the line feed behind the one that does. -/
theorem a_byte_of_the_second_line :
    let s : Source := ⟨[], utf8 "a\r\nb\r\r\n"⟩
    s.content.length < 2 ^ 32 - 1 ∧ (s.locate 4).line.toNat = 2 ∧ (s.locate 4).column.toNat = 2 ∧
      (s.line 2)[1]? = some carriageReturn ∧
      Prod.Lex (· < ·) (· < ·) ((s.locate 2).line, (s.locate 2).column)
        ((s.locate 4).line, (s.locate 4).column) ∧
      s.line 3 = [] := by
  intro s
  have hlength : s.content.length < 2 ^ 32 - 1 := by decide +kernel
  obtain ⟨hcounts, horder, hbyte, -⟩ := the_line_index_counts_line_feeds hlength
  obtain ⟨hline, hcolumn⟩ := hcounts 4 (by decide +kernel)
  have hline : (s.locate 4).line.toNat = 2 := hline.trans (by decide +kernel)
  have hcolumn : (s.locate 4).column.toNat = 2 := hcolumn.trans (by decide +kernel)
  have hget := hbyte 4 carriageReturn (by decide +kernel) (by decide) (by decide +kernel)
  rw [hline, hcolumn] at hget
  exact ⟨hlength, hline, hcolumn, hget, horder 2 4 (by decide) (by decide +kernel),
    by decide +kernel⟩

end Source

end ShapeTraits
