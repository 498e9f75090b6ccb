-- The layouts of a value side by side. A reader that tells string literals from what
-- stands around them, and counts the containers that are open, finds the same bytes in both
-- but for blanks, and finds every line of the indented one as far in as it is deep.
import ShapeTraits.Proofs.PlainText
import ShapeTraits.Proofs.ValueMatching

namespace ShapeTraits

/-! ## Reading JSON text byte by byte -/

namespace JsonScan

/-- Where the next byte stands: outside of string literals, inside one, or inside one
behind the backslash that escapes it. -/
inductive Mode where
  | outside
  | quoted
  | escaped
  deriving DecidableEq, Repr

/-- What is known behind some bytes, with the number of arrays and objects that are open. -/
structure State where
  mode : Mode
  opened : Nat
  deriving DecidableEq, Repr

/-- Brackets and quotes mean something outside of literals only. -/
def State.step (s : State) (b : UInt8) : State :=
  match s.mode with
  | .outside =>
    if b = Byte.quote then { s with mode := .quoted }
    else if b = 0x5b ∨ b = 0x7b then { s with opened := s.opened + 1 }
    else if b = 0x5d ∨ b = 0x7d then { s with opened := s.opened - 1 }
    else s
  | .quoted =>
    if b = Byte.backslash then { s with mode := .escaped }
    else if b = Byte.quote then { s with mode := .outside }
    else s
  | .escaped => { s with mode := .quoted }

def State.after (s : State) (text : Bytes) : State := text.foldl State.step s

/-- How many containers are open before a byte and not closed by it. -/
def State.openAt (s : State) (b : UInt8) : Nat := min s.opened (s.step b).opened

/-- Outside of literals, with so many containers open. -/
def within (opened : Nat) : State := ⟨.outside, opened⟩

/-- The blanks that a layout is made of. -/
def isFiller (b : UInt8) : Bool := b == Byte.space || b == Byte.lineFeed

/-- The bytes that are no filler, or stand in a literal. -/
def unfilled (s : State) : Bytes → Bytes
  | [] => []
  | b :: rest =>
    if s.mode = .outside ∧ isFiller b = true then unfilled (s.step b) rest
    else b :: unfilled (s.step b) rest

/-- A line that is read from a state on: before its first byte that is no filler stand so
many spaces for each of the containers open there. -/
def Indented (width : Nat) (s : State) (line : Bytes) : Prop :=
  ∃ count b more, line = List.replicate count Byte.space ++ b :: more ∧ isFiller b = false ∧
    count = width * (s.after (List.replicate count Byte.space)).openAt b

/-- From one state to another, a text holds these bytes but for fillers. -/
structure Scans (s : State) (text kept : Bytes) (t : State) : Prop where
  after : s.after text = t
  unfilled : unfilled s text = kept

section Reading

variable {s t u : State} {d width : Nat} {a b kept more text : Bytes}

theorem after_append : s.after (a ++ b) = (s.after a).after b := List.foldl_append

theorem unfilled_append : unfilled s (a ++ b) = unfilled s a ++ unfilled (s.after a) b := by
  induction a generalizing s with
  | nil => rfl
  | cons c a ih =>
    rw [List.cons_append, unfilled, unfilled, ih]
    split <;> rfl

theorem Scans.nil : Scans s [] [] s := ⟨rfl, rfl⟩

theorem Scans.append (ha : Scans s a kept t) (hb : Scans t b more u) :
    Scans s (a ++ b) (kept ++ more) u := by
  constructor
  · rw [after_append, ha.after, hb.after]
  · rw [unfilled_append, ha.unfilled, ha.after, hb.unfilled]

theorem scans_spaces (count : Nat) :
    Scans (within d) (List.replicate count Byte.space) [] (within d) := by
  induction count with
  | zero => exact .nil
  | succ count ih =>
    have hone : Scans (within d) [Byte.space] [] (within d) := ⟨rfl, rfl⟩
    exact hone.append ih

theorem Indented.append {line : Bytes} (h : Indented width s line) (more : Bytes) :
    Indented width s (line ++ more) := by
  obtain ⟨count, c, rest, rfl, hc, hcount⟩ := h
  exact ⟨count, c, rest ++ more, by rw [List.append_assoc, List.cons_append], hc, hcount⟩

/-! ## Strings and plain text -/

/-- An escaped byte stays inside its literal. -/
theorem scans_escaped {c : UInt8} (h : Escaped c text) :
    Scans ⟨.quoted, d⟩ text text ⟨.quoted, d⟩ := by
  have hone {b : UInt8} (hb : b ≠ Byte.quote ∧ b ≠ Byte.backslash) :
      Scans ⟨.quoted, d⟩ [b] [b] ⟨.quoted, d⟩ := by
    constructor
    · simp [State.after, State.step, hb]
    · simp [JsonScan.unfilled]
  have hpair (b : UInt8) :
    Scans ⟨.quoted, d⟩ [Byte.backslash, b] [Byte.backslash, b] ⟨.quoted, d⟩ := ⟨rfl, rfl⟩
  cases h with
  | plain hquote hbackslash => exact hone ⟨hquote, hbackslash⟩
  | named => exact hpair _
  | unit value low safe =>
    simp only [List.mem_cons, List.not_mem_nil, or_false, forall_eq_or_imp, forall_eq] at safe
    obtain ⟨hp, hq, hr, ht⟩ := safe
    exact (hpair _).append ((hone hp).append ((hone hq).append ((hone hr).append (hone ht))))

theorem scans_jsonString (text : Bytes) :
    Scans (within d) (jsonString text) (jsonString text) (within d) := by
  have hescapes :
      Scans ⟨.quoted, d⟩ (text.flatMap jsonEscape) (text.flatMap jsonEscape) ⟨.quoted, d⟩ := by
    induction text with
    | nil => exact .nil
    | cons c text ih => exact (scans_escaped (escaped c)).append ih
  have hopening : Scans (within d) [Byte.quote] [Byte.quote] ⟨.quoted, d⟩ := ⟨rfl, rfl⟩
  have hclosing : Scans ⟨.quoted, d⟩ [Byte.quote] [Byte.quote] (within d) := ⟨rfl, rfl⟩
  exact (hopening.append hescapes).append hclosing

/-- A byte outside of literals that is no filler and opens and closes nothing. -/
def isInert (b : UInt8) : Bool :=
  !(isFiller b || [Byte.quote, 0x5b, 0x5d, 0x7b, 0x7d].contains b)

theorem inert_stays {c : UInt8} (h : isInert c = true) :
    isFiller c = false ∧ (within d).step c = within d := by
  have hc : isFiller c = false ∧ c ≠ Byte.quote ∧ c ≠ 0x5b ∧ c ≠ 0x5d ∧ c ≠ 0x7b ∧ c ≠ 0x7d := by
    simpa [isInert] using h
  exact ⟨hc.1, by simp [State.step, within, hc]⟩

theorem scans_inert (h : ∀ b ∈ text, isInert b = true) : Scans (within d) text text (within d) := by
  induction text with
  | nil => exact .nil
  | cons b text ih =>
    obtain ⟨hb, htext⟩ := List.forall_mem_cons.mp h
    obtain ⟨hkept, hstep⟩ := inert_stays hb
    have hone : Scans (within d) [b] [b] (within d) := by
      constructor
      · exact hstep
      · simp [JsonScan.unfilled, hkept]
    exact hone.append (ih htext)

theorem inert_number (x : Number) : ∀ b ∈ x.text, isInert b = true := by
  have hparts : ∀ b, Byte.isDigit b = true ∨ b = Byte.dot ∨ Numeral.isExponentLetter b = true ∨
      Numeral.isSign b = true → isInert b = true := by
    exact Byte.forall_of_lt (by decide +kernel)
  exact x.forall_text hparts (List.all_eq_true.mp rfl)

end Reading

/-! ## Texts whose lines are indented -/

/-- A text outside of literals, from where `d` containers are open to where `e` are: the bytes
that it holds but for fillers, and an indented line behind each of its line feeds. -/
structure Laid (width d e : Nat) (text kept : Bytes) : Prop where
  scans : Scans (within d) text kept (within e)
  lines : ∀ before line, text = before ++ Byte.lineFeed :: line →
    Indented width ((within d).after (before ++ [Byte.lineFeed])) line

/-- A text that begins with no filler, where so many of `d` containers are open at its first
byte and not closed by it. -/
def Begins (level d : Nat) (text : Bytes) : Prop :=
  ∃ b more, text = b :: more ∧ isFiller b = false ∧ (within d).openAt b = level

section Laying

variable {width d e f level : Nat} {a b kept more text : Bytes}

theorem Laid.append (ha : Laid width d e a kept) (hb : Laid width e f b more) :
    Laid width d f (a ++ b) (kept ++ more) := by
  refine ⟨ha.scans.append hb.scans, ?_⟩
  intro before line h
  -- The line feed stands in the first text or in the second one.
  obtain ⟨u, rfl, hu⟩ | ⟨u, rfl, hu⟩ := List.append_eq_append_iff.mp h
  · rw [List.append_assoc, after_append, ha.scans.after]
    exact hb.lines u line hu
  · cases u with
    | nil =>
      have hline := hb.lines [] line hu.symm
      rwa [← ha.scans.after, ← after_append, List.append_nil] at hline
    | cons c u =>
      obtain ⟨rfl, rfl⟩ := List.cons.inj hu
      exact (ha.lines before u rfl).append b

theorem laid_of_no_feed (h : Scans (within d) text kept (within e)) (hfeed : Byte.lineFeed ∉ text) :
    Laid width d e text kept := by
  refine ⟨h, ?_⟩
  rintro before line rfl
  exact absurd (List.mem_append_right before List.mem_cons_self) hfeed

theorem Begins.indented (h : Begins level d text) :
    Indented width (within d) (List.replicate (width * level) Byte.space ++ text) := by
  obtain ⟨b, more, rfl, hb, hlevel⟩ := h
  refine ⟨_, b, more, rfl, hb, ?_⟩
  rw [(scans_spaces _).after, hlevel]

/-- Behind the break before a level stands what begins at that level. -/
theorem Laid.behindBreak (h : Laid width d e text kept) (hbegins : Begins level d text) :
    Laid width d e ((Layout.indented width).lineBreak level ++ text) kept := by
  have hspaces : Laid width d d (List.replicate (width * level) Byte.space) [] :=
    laid_of_no_feed (scans_spaces _) fun hmem => absurd (List.eq_of_mem_replicate hmem) (by decide)
  have hrest := hspaces.append h
  have hfeed : Scans (within d) [Byte.lineFeed] [] (within d) := ⟨rfl, rfl⟩
  refine ⟨hfeed.append hrest.scans, ?_⟩
  intro before line hline
  rw [Layout.lineBreak, List.cons_append] at hline
  cases before with
  | nil =>
    obtain rfl := (List.cons.inj hline).2
    exact hbegins.indented
  | cons c before =>
    obtain ⟨rfl, hbefore⟩ := List.cons.inj hline
    exact hrest.lines before line hbefore

theorem laid_inert (h : ∀ b ∈ text, isInert b = true) : Laid width d d text text :=
  laid_of_no_feed (scans_inert h) fun hfeed => absurd (h _ hfeed) (by decide)

theorem laid_jsonString (text : Bytes) : Laid width d d (jsonString text) (jsonString text) :=
  laid_of_no_feed (scans_jsonString text) (isPlain_jsonString text).lineFeed_not_mem

theorem laid_colon : Laid width d d (Layout.indented width).colon Layout.compact.colon :=
  laid_of_no_feed ⟨rfl, rfl⟩ (by rw [Layout.colon_indented]; decide)

/-- A bracket that opens a container, or one that closes it. -/
theorem laid_bracket {b : UInt8} (h : b ∈ [0x5b, 0x7b] ∧ e = d + 1 ∨ b ∈ [0x5d, 0x7d] ∧ d = e + 1) :
    Laid width d e [b] [b] := by
  simp only [List.mem_cons, List.not_mem_nil, or_false] at h
  obtain ⟨rfl | rfl, rfl⟩ | ⟨rfl | rfl, rfl⟩ := h
  all_goals exact laid_of_no_feed ⟨rfl, rfl⟩ (by decide)

end Laying

/-! ## Things in a row -/

/-- The two texts of something that stands among others where `d` containers are open. -/
structure Item (width d : Nat) (text kept : Bytes) : Prop where
  laid : Laid width d d text kept
  begins : Begins d d text

section Rows

variable {width level : Nat} {α : Type} {text kept : α → Bytes} {as : List α}

theorem Item.behindBreak {d : Nat} {a b : Bytes} (h : Item width d a b) :
    Laid width d d ((Layout.indented width).lineBreak d ++ a) b :=
  h.laid.behindBreak h.begins

theorem laid_behindCommas (h : ∀ a ∈ as, Item width level (text a) (kept a)) :
    Laid width level level (Node.behindCommas (.indented width) level text as)
      (Node.behindCommas .compact level kept as) := by
  induction as with
  | nil => exact laid_inert (List.forall_mem_nil _)
  | cons a as ih =>
    obtain ⟨ha, has⟩ := List.forall_mem_cons.mp h
    have hcomma : Laid width level level [Byte.comma] [Byte.comma] :=
      laid_inert (List.forall_mem_singleton.mpr rfl)
    exact (hcomma.append ha.behindBreak).append (ih has)

theorem row_parts {layout : Layout} {opening closing : UInt8} (a : α) :
    Node.row layout level opening closing text (a :: as) =
      [opening] ++ ((layout.lineBreak (level + 1) ++ text a) ++
        (Node.behindCommas layout (level + 1) text as ++
          (layout.lineBreak level ++ [closing]))) := by
  simp [Node.row, Node.enclosed]

theorem item_row {opening closing : UInt8} (hopening : opening ∈ [0x5b, 0x7b])
    (hclosing : closing ∈ [0x5d, 0x7d]) (h : ∀ a ∈ as, Item width (level + 1) (text a) (kept a)) :
    Item width level (Node.row (.indented width) level opening closing text as)
      (Node.row .compact level opening closing kept as) := by
  have hopen : Laid width level (level + 1) [opening] [opening] :=
    laid_bracket (.inl ⟨hopening, rfl⟩)
  have hclose : Laid width (level + 1) level [closing] [closing] :=
    laid_bracket (.inr ⟨hclosing, rfl⟩)
  simp only [List.mem_cons, List.not_mem_nil, or_false] at hopening hclosing
  have hbegins (more : Bytes) : Begins level level (opening :: more) := by
    refine ⟨opening, more, rfl, ?_⟩
    rcases hopening with rfl | rfl <;> exact ⟨rfl, Nat.min_eq_left (Nat.le_succ level)⟩
  have hends : Begins level (level + 1) [closing] := by
    refine ⟨closing, [], rfl, ?_⟩
    rcases hclosing with rfl | rfl <;> exact ⟨rfl, Nat.min_eq_right (Nat.le_succ level)⟩
  cases as with
  | nil => exact ⟨hopen.append hclose, hbegins [closing]⟩
  | cons a as =>
    obtain ⟨ha, has⟩ := List.forall_mem_cons.mp h
    rw [row_parts, row_parts]
    refine ⟨hopen.append (ha.behindBreak.append ((laid_behindCommas has).append ?_)), hbegins _⟩
    exact hclose.behindBreak hends

end Rows

/-! ## Values -/

section Values

variable {width level : Nat}

theorem item_inert (text : Bytes) (h : ∀ b ∈ text, isInert b = true) (hne : text ≠ []) :
    Item width level text text := by
  refine ⟨laid_inert h, ?_⟩
  obtain ⟨b, more, rfl⟩ := List.exists_cons_of_ne_nil hne
  obtain ⟨hkept, hstep⟩ := inert_stays (h b List.mem_cons_self)
  refine ⟨b, more, rfl, hkept, ?_⟩
  rw [State.openAt, hstep, Nat.min_self, within]

theorem item_number (x : Number) : Item width level x.text x.text :=
  item_inert x.text (inert_number x) x.text_ne_nil

theorem item_string (text : Bytes) : Item width level (jsonString text) (jsonString text) :=
  ⟨laid_jsonString text, Byte.quote, _, rfl, rfl, Nat.min_self level⟩

theorem item_member {e : Entry Node}
    (h : Item width level (e.value.write (.indented width) level) (e.value.write .compact level)) :
    Item width level (Node.memberText (.indented width) level e)
      (Node.memberText .compact level e) :=
  ⟨((laid_jsonString e.key).append laid_colon).append h.laid, Byte.quote, _, rfl, rfl,
    Nat.min_self level⟩

theorem item_write (n : Node) (level : Nat) :
    Item width level (n.write (.indented width) level) (n.write .compact level) := by
  induction n generalizing level with
  | null l => exact item_inert (utf8 "null") (List.all_eq_true.mp rfl) (by decide)
  | boolean l v =>
    cases v
    · exact item_inert (utf8 "false") (List.all_eq_true.mp rfl) (by decide)
    · exact item_inert (utf8 "true") (List.all_eq_true.mp rfl) (by decide)
  | number l x => exact item_number x
  | string l text => exact item_string text
  | array l items ih =>
    rw [Node.write_array_row, Node.write_array_row]
    exact item_row (by decide) (by decide) fun n hn => ih n hn (level + 1)
  | object l entries ih =>
    rw [Node.write_object_row, Node.write_object_row]
    exact item_row (by decide) (by decide) fun e he => item_member (ih e he (level + 1))

end Values

end JsonScan

/-! ## The laws -/

open JsonScan

/-- Where the indentation is positive, the indented text is the compact one but for the
spaces and line feeds outside of string literals, and each of its lines is indented by so
many spaces for each container that is open at its first byte behind them and not closed by
it. Where it is not, the two texts are the same. -/
theorem both_layouts_carry_the_same_text (n : Node) (width : Int) :
    (0 < width → unfilled (within 0) (n.prettyText width) = n.text ∧
      ∀ before line, n.prettyText width = before ++ line →
        (before = [] ∨ before.getLast? = some Byte.lineFeed) →
          Indented width.toNat ((within 0).after before) line) ∧
      (width ≤ 0 → n.prettyText width = n.text) := by
  constructor
  · intro hwidth
    have hitem : Item width.toNat 0 (n.prettyText width) n.text := by
      rw [Node.prettyText, Layout.ofIndent, if_pos hwidth]
      exact item_write n 0
    refine ⟨hitem.laid.scans.unfilled, ?_⟩
    rintro before line h (rfl | hlast)
    · have hfirst : Indented width.toNat (within 0) (List.replicate (width.toNat * 0) Byte.space ++
          n.prettyText width) := hitem.begins.indented
      rwa [h, Nat.mul_zero] at hfirst
    · obtain ⟨front, rfl⟩ := List.getLast?_eq_some_iff.mp hlast
      rw [List.append_assoc] at h
      exact hitem.laid.lines front line h
  · intro hwidth
    rw [Node.prettyText, Layout.ofIndent, if_neg (Int.not_lt.mpr hwidth), Node.text]

/-- A key with a bracket, a quote and blanks in it opens nothing and keeps its blanks. -/
theorem a_key_of_brackets_and_blanks_is_kept :
    let key := utf8 "[ \"  "
    let n : Node :=
      .object .nowhere ⟨[⟨key, .nowhere, .array .nowhere [.null .nowhere, .array .nowhere []]⟩]⟩
    let before := utf8 "\x7b\n  \"[ \\\"  \": [\n"
    let line := utf8 "    null,\n    []\n  ]\n\x7d"
    (0 : Int) < 2 ∧ n.prettyText 2 = before ++ line ∧
      unfilled (within 0) (before ++ line) = utf8 "\x7b\"[ \\\"  \":[null,[]]\x7d" ∧
      Indented 2 ((within 0).after before) line := by
  intro key n before line
  have htext : n.prettyText 2 = before ++ line := by decide +kernel
  obtain ⟨hsame, hlines⟩ := (both_layouts_carry_the_same_text n 2).1 (by decide)
  have hcompact : n.text = utf8 "\x7b\"[ \\\"  \":[null,[]]\x7d" := by decide +kernel
  exact ⟨by decide, htext, by rw [← htext, hsame, hcompact],
    hlines before line htext (.inr (by decide +kernel))⟩

end ShapeTraits
