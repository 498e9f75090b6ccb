-- The text of a value is JSON by its grammar, compact or pretty, and the member names of each
-- object are different also as what they stand for.
import ShapeTraits.Proofs.EscapeLanguage
import ShapeTraits.Proofs.Overflow
import ShapeTraits.Proofs.Utf8Values
import ShapeTraits.Proofs.ValueMatching

namespace ShapeTraits

/-! ## The grammar -/

namespace Json

/-- Only spaces, tabs, line feeds and carriage returns. -/
def IsWhitespace (text : Bytes) : Prop :=
  ∀ b ∈ text, b ∈ [Byte.space, Byte.tab, Byte.lineFeed, Byte.carriageReturn]

/-- A bracket, a brace, a colon or a comma, with whitespace around it. -/
inductive IsSign (sign : UInt8) : Bytes → Prop
  | mk {before after : Bytes} (left : IsWhitespace before) (right : IsWhitespace after) :
      IsSign sign (before ++ sign :: after)

/-- A character that may stand for itself: no control character, quote or backslash. -/
def IsUnescaped (c : Char) : Prop :=
  0x20 ≤ c.toNat ∧ c.toNat ≤ 0x21 ∨ 0x23 ≤ c.toNat ∧ c.toNat ≤ 0x5b ∨
    0x5d ≤ c.toNat ∧ c.toNat ≤ 0x10ffff

/-- The code units of a character in UTF-16, by which names are compared. -/
def codeUnits (c : Char) : List Nat :=
  if c.toNat < 0x10000 then [c.toNat]
  else [0xd800 + (c.toNat - 0x10000) / 0x400, 0xdc00 + (c.toNat - 0x10000) % 0x400]

/-- The signs and letters behind a backslash with the code units they stand for. The letters
are b, f, n, r and t. -/
def escapes : List (UInt8 × Nat) :=
  [(Byte.quote, 0x22), (Byte.backslash, 0x5c), (Byte.slash, 0x2f), (0x62, 0x08), (0x66, 0x0c),
    (0x6e, 0x0a), (0x72, 0x0d), (0x74, 0x09)]

/-- A character as it is written in UTF-8, and the code units it stands for. -/
inductive IsCharacter : Bytes → List Nat → Prop
  | unescaped {c : Char} (h : IsUnescaped c) : IsCharacter (String.utf8EncodeChar c) (codeUnits c)
  | escape {letter : UInt8} {unit : Nat} (known : (letter, unit) ∈ escapes) :
      IsCharacter [Byte.backslash, letter] [unit]
  | unit {digits : Bytes} {unit : Nat} (spells : Escape.FourDigits digits unit) :
      IsCharacter (Byte.backslash :: 0x75 :: digits) [unit]

inductive AreCharacters : Bytes → List Nat → Prop
  | nil : AreCharacters [] []
  | cons {first rest : Bytes} {units more : List Nat} (head : IsCharacter first units)
      (tail : AreCharacters rest more) : AreCharacters (first ++ rest) (units ++ more)

/-- Characters between quotes, and what they stand for. -/
inductive IsString : Bytes → List Nat → Prop
  | mk {text : Bytes} {units : List Nat} (characters : AreCharacters text units) :
      IsString ([Byte.quote] ++ text ++ [Byte.quote]) units

mutual

/-- A value, and for each object in it the names of its members. -/
inductive IsValue : Bytes → List (List (List Nat)) → Prop
  | null : IsValue (utf8 "null") []
  | true : IsValue (utf8 "true") []
  | false : IsValue (utf8 "false") []
  | number {text : Bytes} (h : text ∈ Numeral.literals) : IsValue text []
  | string {text : Bytes} {units : List Nat} (h : IsString text units) : IsValue text []
  | emptyArray {left right : Bytes} (opening : IsSign 0x5b left) (closing : IsSign 0x5d right) :
      IsValue (left ++ right) []
  | array {left inner right : Bytes} {objects : List (List (List Nat))} (opening : IsSign 0x5b left)
      (elements : AreElements inner objects) (closing : IsSign 0x5d right) :
      IsValue (left ++ (inner ++ right)) objects
  | emptyObject {left right : Bytes} (opening : IsSign 0x7b left) (closing : IsSign 0x7d right) :
      IsValue (left ++ right) [[]]
  | object {left inner right : Bytes} {names : List (List Nat)} {objects : List (List (List Nat))}
      (opening : IsSign 0x7b left) (members : AreMembers inner names objects)
      (closing : IsSign 0x7d right) : IsValue (left ++ (inner ++ right)) (names :: objects)

/-- Values with commas between them. -/
inductive AreElements : Bytes → List (List (List Nat)) → Prop
  | one {text : Bytes} {objects : List (List (List Nat))} (value : IsValue text objects) :
      AreElements text objects
  | more {text comma rest : Bytes} {objects others : List (List (List Nat))}
      (value : IsValue text objects) (separator : IsSign 0x2c comma)
      (elements : AreElements rest others) :
      AreElements (text ++ (comma ++ rest)) (objects ++ others)

/-- Members with commas between them, and their names. -/
inductive AreMembers : Bytes → List (List Nat) → List (List (List Nat)) → Prop
  | one {key colon text : Bytes} {name : List Nat} {objects : List (List (List Nat))}
      (string : IsString key name) (separator : IsSign 0x3a colon)
      (value : IsValue text objects) : AreMembers (key ++ colon ++ text) [name] objects
  | more {key colon text comma rest : Bytes} {name : List Nat} {names : List (List Nat)}
      {objects others : List (List (List Nat))} (string : IsString key name)
      (separator : IsSign 0x3a colon) (value : IsValue text objects) (next : IsSign 0x2c comma)
      (members : AreMembers rest names others) :
      AreMembers (key ++ colon ++ text ++ (comma ++ rest)) (name :: names) (objects ++ others)

end

/-- A text of JSON: a value with whitespace around it. -/
inductive IsText : Bytes → List (List (List Nat)) → Prop
  | mk {before text after : Bytes} {objects : List (List (List Nat))} (left : IsWhitespace before)
      (value : IsValue text objects) (right : IsWhitespace after) :
      IsText (before ++ text ++ after) objects

/-! ## Characters -/

variable {b : UInt8} {c : Char} {units : List Nat}

/-- A byte is escaped to a letter behind a backslash, to a code unit or not at all. -/
theorem jsonEscape_cases :
    ∀ b, (∃ e ∈ escapes, jsonEscape b = [Byte.backslash, e.1] ∧ e.2 = b.toNat) ∨
    b < Byte.space ∧ jsonEscape b = Byte.backslash :: 0x75 :: Bytes.hexOfNat 4 b.toNat ∨
    Byte.space ≤ b ∧ b ≠ Byte.quote ∧ b ≠ Byte.backslash ∧ jsonEscape b = [b] := by
  exact Byte.forall_of_lt (by decide +kernel)

theorem fourDigits_hexOfNat (h : b < Byte.space) :
    Escape.FourDigits (Bytes.hexOfNat 4 b.toNat) b.toNat := by
  have hb : b.toNat < 0x20 := UInt8.lt_iff_toNat_lt.mp h
  have hdigit (k : Nat) := (hexDigit_means (k % 16) (Nat.mod_lt k (by decide))).1
  simp only [Escape.hexValue_eq_some] at hdigit
  have hdigits :=
    Escape.FourDigits.mk (hdigit (b.toNat / 16 / 16 / 16)) (hdigit (b.toNat / 16 / 16))
    (hdigit (b.toNat / 16)) (hdigit b.toNat)
  rw [hexOfNat_four]
  convert hdigits using 1
  omega

theorem codeUnits_of_lt (h : c.toNat < 0x10000) : codeUnits c = [c.toNat] := if_pos h

/-- A character is one unit that is no surrogate, or it takes two. -/
theorem number_of_char (c : Char) : c.toNat < 0x10000 ∧ (c.toNat < 0xd800 ∨ 0xdfff < c.toNat) ∨
    0x10000 ≤ c.toNat ∧ c.toNat < 0x110000 := by
  have hvalid : c.toNat < 0xd800 ∨ 0xdfff < c.toNat ∧ c.toNat < 0x110000 := c.valid
  omega

theorem char_of_lt (h : c.toNat < 0x80) :
    ∃ b, String.utf8EncodeChar c = [b] ∧ b.toNat = c.toNat := by
  have hsize : c.utf8Size = 1 := Char.utf8Size_eq_one_iff.mpr (Nat.le_of_lt_succ h)
  refine ⟨_, String.utf8EncodeChar_eq_singleton hsize, ?_⟩
  exact Nat.mod_eq_of_lt (Nat.lt_trans h (by decide))

theorem not_ascii_of_le (h : 0x80 ≤ c.toNat) :
    ∀ b ∈ String.utf8EncodeChar c, Byte.isAscii b = false := by
  rcases Bytes.char_bytes c with ⟨b, hb⟩ | hhigh
  · have hsize : c.utf8Size = 1 := by rw [← String.length_utf8EncodeChar, hb]; rfl
    have hlow : c.toNat ≤ 127 := Char.utf8Size_eq_one_iff.mp hsize
    omega
  · exact hhigh

/-- The printable bytes that are not escaped may stand for themselves. -/
theorem isUnescaped_of_byte (hvalue : b.toNat = c.toNat) (hlow : c.toNat < 0x80)
    (hspace : Byte.space ≤ b)
    (hquote : b ≠ Byte.quote) (hbackslash : b ≠ Byte.backslash) : IsUnescaped c := by
  have hne {sign : UInt8} (h : b ≠ sign) : c.toNat ≠ sign.toNat := by
    rw [← hvalue]
    exact mt UInt8.toNat_inj.mp h
  have hleast : 0x20 ≤ b.toNat := UInt8.le_iff_toNat_le.mp hspace
  have hnoquote : c.toNat ≠ 0x22 := hne hquote
  have hnobackslash : c.toNat ≠ 0x5c := hne hbackslash
  unfold IsUnescaped
  omega

theorem isUnescaped_of_le (h : 0x80 ≤ c.toNat) : IsUnescaped c := by
  unfold IsUnescaped
  rcases number_of_char c with hunit | ⟨-, hlast⟩
  · omega
  · omega

/-- The bytes of a longer character are not escaped. -/
theorem flatMap_jsonEscape_of_le (h : 0x80 ≤ c.toNat) :
    (String.utf8EncodeChar c).flatMap jsonEscape = String.utf8EncodeChar c := by
  have hself : ∀ b ∈ String.utf8EncodeChar c, jsonEscape b = [b] := by
    intro b hb
    rcases jsonEscape_bytes b with hplain | ⟨hascii, -⟩
    · exact hplain
    · rw [not_ascii_of_le h b hb] at hascii
      cases hascii
  rw [List.flatMap_congr hself, List.flatMap_singleton']

/-- An escaped character is a character that stands for it. -/
theorem isCharacter_escaped (c : Char) :
    IsCharacter ((String.utf8EncodeChar c).flatMap jsonEscape) (codeUnits c) := by
  rcases Nat.lt_or_ge c.toNat 0x80 with hlow | hhigh
  · obtain ⟨b, hb, hvalue⟩ := char_of_lt hlow
    have hunits : codeUnits c = [b.toNat] := by rw [codeUnits_of_lt (by omega), hvalue]
    rw [hb, List.flatMap_singleton]
    rcases jsonEscape_cases b with ⟨e, he, hescape, hmeant⟩ | ⟨hcontrol, hescape⟩ |
      ⟨hspace, hquote, hbackslash, hself⟩
    · rw [hescape, hunits, ← hmeant]
      exact .escape he
    · rw [hescape, hunits]
      exact .unit (fourDigits_hexOfNat hcontrol)
    · rw [hself, ← hb]
      exact .unescaped (isUnescaped_of_byte hvalue hlow hspace hquote hbackslash)
  · rw [flatMap_jsonEscape_of_le hhigh]
    exact .unescaped (isUnescaped_of_le hhigh)

theorem codeUnits_unique {c d : Char} {more others : List Nat}
    (h : codeUnits c ++ more = codeUnits d ++ others) :
    c = d ∧ more = others := by
  unfold codeUnits at h
  have hc := number_of_char c
  have hd := number_of_char d
  split at h <;> split at h
  all_goals simp only [List.cons_append, List.nil_append, List.cons.injEq] at h
  · exact ⟨Char.toNat_inj.mp h.1, h.2⟩
  · omega
  · omega
  · exact ⟨Char.toNat_inj.mp (by omega), h.2.2⟩

/-- Texts of the same code units are the same text. -/
theorem flatMap_codeUnits_injective :
    Function.Injective fun chars : List Char => chars.flatMap codeUnits := by
  have hsome (c : Char) (chars : List Char) : (c :: chars).flatMap codeUnits ≠ [] := by
    rw [List.flatMap_cons, codeUnits]
    split <;> simp
  intro chars others h
  dsimp only at h
  induction chars generalizing others with
  | nil =>
    cases others with
    | nil => rfl
    | cons d others => exact absurd h.symm (hsome d others)
  | cons c chars ih =>
    cases others with
    | nil => exact absurd h (hsome c chars)
    | cons d others =>
      obtain ⟨rfl, hrest⟩ := codeUnits_unique h
      rw [ih hrest]

/-! ## Strings -/

/-- The string of a text is a string that stands for it. -/
theorem isString_jsonString (chars : List Char) :
    IsString (jsonString (chars.flatMap String.utf8EncodeChar)) (chars.flatMap codeUnits) := by
  refine .mk ?_
  induction chars with
  | nil => exact .nil
  | cons c chars ih =>
    rw [List.flatMap_cons, List.flatMap_append]
    exact .cons (isCharacter_escaped c) ih

/-! ## Signs -/

variable {layout : Layout} {level : Nat}

theorem isWhitespace_nil : IsWhitespace [] := List.forall_mem_nil _

theorem isWhitespace_lineBreak : IsWhitespace (layout.lineBreak level) := by
  intro b hb
  cases layout with
  | compact => cases hb
  | indented width =>
    rcases List.mem_cons.mp hb with rfl | hb
    · decide
    · rw [List.eq_of_mem_replicate hb]
      decide

/-- A sign and the line break behind it. -/
theorem isSign_before {sign : UInt8} : IsSign sign (sign :: layout.lineBreak level) :=
  .mk isWhitespace_nil isWhitespace_lineBreak

/-- The line break before a sign, and the sign. -/
theorem isSign_behind {sign : UInt8} : IsSign sign (layout.lineBreak level ++ [sign]) :=
  .mk isWhitespace_lineBreak isWhitespace_nil

theorem isSign_alone {sign : UInt8} : IsSign sign [sign] := .mk isWhitespace_nil isWhitespace_nil

theorem isSign_colon : IsSign 0x3a layout.colon := by
  cases layout with
  | compact => exact isSign_alone
  | indented width =>
    have hspace : IsWhitespace [Byte.space] := List.forall_mem_singleton.mpr (by decide)
    exact .mk isWhitespace_nil hspace

/-! ## Values -/

theorem isValue_number (x : Number) : IsValue x.text [] := by
  by_cases h : x.IsFinite
  · obtain ⟨n, hn, htext, -⟩ := x.isWritten_of_finite h
    exact .number (Numeral.mem_literals.mpr ⟨n, hn, htext⟩)
  · rw [Number.text_of_not_isFinite h]
    exact .null

/-- The text is a value, and where no object of `n` has two equal keys no object of the
text has two equal names. -/
def IsTextOf (n : Node) (text : Bytes) : Prop :=
  ∃ objects, IsValue text objects ∧ (n.hasDistinctKeys → ∀ names ∈ objects, names.Nodup)

theorem behindCommas_eq {α : Type} {text : α → Bytes} (a : α) (as : List α) :
    Node.behindCommas layout level text (a :: as) =
      Byte.comma :: layout.lineBreak level ++
        (text a ++ Node.behindCommas layout level text as) := by
  rw [Node.behindCommas, List.flatMap_cons, List.append_assoc]
  rfl

/-- Some values with commas between them. -/
theorem areElements_behindCommas (layout : Layout) (level : Nat) {n : Node} {items : List Node}
    (h : ∀ x ∈ n :: items, IsTextOf x (x.write layout level)) : ∃ objects,
    AreElements
      (n.write layout level ++ Node.behindCommas layout level (Node.write layout level) items)
        objects ∧
      ((∀ x ∈ n :: items, x.hasDistinctKeys) → ∀ names ∈ objects, names.Nodup) := by
  induction items generalizing n with
  | nil =>
    obtain ⟨objects, hvalue, hnames⟩ := h n List.mem_cons_self
    refine ⟨objects, ?_, fun hkeys => hnames (hkeys n List.mem_cons_self)⟩
    rw [Node.behindCommas, List.flatMap_nil, List.append_nil]
    exact .one hvalue
  | cons next items ih =>
    obtain ⟨⟨objects, hvalue, hnames⟩, hrest⟩ := List.forall_mem_cons.mp h
    obtain ⟨others, helements, hothers⟩ := ih hrest
    refine ⟨objects ++ others, ?_, fun hkeys => ?_⟩
    · rw [behindCommas_eq]
      exact .more hvalue isSign_before helements
    · obtain ⟨hn, hkeys⟩ := List.forall_mem_cons.mp hkeys
      exact List.forall_mem_append.mpr ⟨hnames hn, hothers hkeys⟩

/-- Some members with commas between them, whose names are the characters of the keys. -/
theorem areMembers_behindCommas (layout : Layout) (level : Nat) {e : Entry Node}
    {entries : List (Entry Node)} (hkeys : ∀ x ∈ e :: entries, Bytes.IsUtf8 x.key)
    (hvalues : ∀ x ∈ e :: entries, IsTextOf x.value (x.value.write layout level)) :
    ∃ keys : List (List Char), ∃ objects,
      (e :: entries).map (·.key) = keys.map (·.flatMap String.utf8EncodeChar) ∧
      AreMembers
        (Node.memberText layout level e ++
          Node.behindCommas layout level (Node.memberText layout level) entries)
        (keys.map (·.flatMap codeUnits)) objects ∧
      ((∀ x ∈ e :: entries, x.value.hasDistinctKeys) → ∀ names ∈ objects, names.Nodup) := by
  induction entries generalizing e with
  | nil =>
    obtain ⟨key, hkey⟩ := Bytes.isUtf8_iff.mp (hkeys e List.mem_cons_self)
    obtain ⟨objects, hvalue, hnames⟩ := hvalues e List.mem_cons_self
    refine ⟨[key], objects, congrArg ([·]) hkey, ?_, fun hdistinct =>
      hnames (hdistinct e List.mem_cons_self)⟩
    rw [Node.behindCommas, List.flatMap_nil, List.append_nil, Node.memberText, hkey]
    exact .one (isString_jsonString key) isSign_colon hvalue
  | cons next entries ih =>
    obtain ⟨he, hkeys⟩ := List.forall_mem_cons.mp hkeys
    obtain ⟨key, hkey⟩ := Bytes.isUtf8_iff.mp he
    obtain ⟨⟨objects, hvalue, hnames⟩, hvalues⟩ := List.forall_mem_cons.mp hvalues
    obtain ⟨keys, others, hsame, hmembers, hothers⟩ := ih hkeys hvalues
    refine ⟨key :: keys, objects ++ others, ?_, ?_, fun hdistinct => ?_⟩
    · exact congrArg₂ List.cons hkey hsame
    · rw [behindCommas_eq, Node.memberText, hkey]
      exact .more (isString_jsonString key) isSign_colon hvalue isSign_before hmembers
    · obtain ⟨hdistinct, hrest⟩ := List.forall_mem_cons.mp hdistinct
      exact List.forall_mem_append.mpr ⟨hnames hdistinct, hothers hrest⟩

theorem row_eq {α : Type} {text : α → Bytes} {opening closing : UInt8} (a : α) (as : List α) :
    Node.row layout level opening closing text (a :: as) =
      opening :: layout.lineBreak (level + 1) ++
        ((text a ++ Node.behindCommas layout (level + 1) text as) ++
          (layout.lineBreak level ++ [closing])) := by
  simp [Node.row, Node.enclosed]

/-- The text of a value whose strings are valid is a value. -/
theorem isTextOf_write {n : Node} (h : n.IsUtf8) : IsTextOf n (n.write layout level) := by
  have hleaf {m : Node} {text : Bytes} (h : IsValue text []) : IsTextOf m text :=
    ⟨[], h, fun _ => List.forall_mem_nil _⟩
  induction n generalizing level with
  | null l => exact hleaf .null
  | boolean l v =>
    cases v with
    | true => exact hleaf .true
    | false => exact hleaf .false
  | number l x => exact hleaf (isValue_number x)
  | string l text =>
    obtain ⟨chars, rfl⟩ := Bytes.isUtf8_iff.mp (h text (List.mem_singleton_self text))
    exact hleaf (.string (isString_jsonString chars))
  | array l items ih =>
    rw [Node.write_array_row]
    cases items with
    | nil => exact hleaf (.emptyArray isSign_alone isSign_alone)
    | cons n items =>
      obtain ⟨objects, helements, hnames⟩ :=
        areElements_behindCommas layout (level + 1) fun x hx =>
          ih x hx (Node.isUtf8_array.mp h x hx)
      refine ⟨objects, ?_, fun hdistinct => hnames ((Node.hasDistinctKeys_array _ _).mp hdistinct)⟩
      rw [row_eq]
      exact .array isSign_before helements isSign_behind
  | object l entries ih =>
    rw [Node.write_object_row]
    cases entries with
    | nil =>
      refine ⟨[[]], .emptyObject isSign_alone isSign_alone, fun _ => ?_⟩
      exact List.forall_mem_singleton.mpr List.nodup_nil
    | cons e entries =>
      have hentries := Node.isUtf8_object.mp h
      obtain ⟨keys, objects, hkeys, hmembers, hnames⟩ :=
        areMembers_behindCommas layout (level + 1) (fun x hx => (hentries x hx).1) fun x hx =>
          ih x hx (hentries x hx).2
      refine ⟨keys.map (·.flatMap codeUnits) :: objects, ?_, fun hdistinct => ?_⟩
      · rw [row_eq]
        exact .object isSign_before hmembers isSign_behind
      · obtain ⟨hnodup, hvalues⟩ := (Node.hasDistinctKeys_object _ _).mp hdistinct
        rw [hkeys] at hnodup
        exact List.forall_mem_cons.mpr ⟨hnodup.of_map.map flatMap_codeUnits_injective,
          hnames hvalues⟩

end Json

/-! ## The law -/

/-- The text of a value with valid strings, compact or pretty, is JSON. Where the keys of
each object are different, as insertion keeps them, the names in the text are different,
read as what they stand for. -/
theorem Node.what_is_written_is_json {n : Node} (h : n.IsUtf8) {text : Bytes}
    (htext : text = n.text ∨ ∃ width : Int, text = n.prettyText width) :
    ∃ objects, Json.IsText text objects ∧ (n.hasDistinctKeys → ∀ names ∈ objects, names.Nodup) := by
  have hwritten : Json.IsTextOf n text := by
    rcases htext with rfl | ⟨width, rfl⟩
    · exact Json.isTextOf_write h
    · exact Json.isTextOf_write h
  obtain ⟨objects, hvalue, hnames⟩ := hwritten
  have hall : Json.IsText ([] ++ text ++ []) objects :=
    .mk Json.isWhitespace_nil hvalue Json.isWhitespace_nil
  rw [List.nil_append, List.append_nil] at hall
  exact ⟨objects, hall, hnames⟩

/-- A control byte and a quote stand in keys that are escaped, before an infinity, which
is written as null. -/
theorem Node.keys_with_escapes_are_written_as_json :
    let n : Node := .object .nowhere ⟨[⟨utf8 "\x01é", .nowhere, .array .nowhere []⟩,
      ⟨utf8 "\"", .nowhere, .number .nowhere (.double ⟨0x7ff0000000000000⟩)⟩]⟩
    n.IsUtf8 ∧ n.hasDistinctKeys ∧
      n.prettyText 2 = utf8 "\x7b\n  \"\\u0001é\": [],\n  \"\\\"\": null\n\x7d" ∧
      ∃ objects, Json.IsText (n.prettyText 2) objects ∧ ∀ names ∈ objects, names.Nodup := by
  intro n
  have hvalid : n.IsUtf8 :=
    List.forall_mem_cons.mpr ⟨Bytes.isUtf8_utf8 _,
      List.forall_mem_singleton.mpr (Bytes.isUtf8_utf8 _)⟩
  have hkeys : n.hasDistinctKeys := by decide
  obtain ⟨objects, htext, hnames⟩ := what_is_written_is_json hvalid (.inr ⟨2, rfl⟩)
  exact ⟨hvalid, hkeys, by decide +kernel, objects, htext, hnames hkeys⟩

end ShapeTraits
