-- The JSON text of a value is read back as the value: its layout is spelled as
-- tokens that the grammar derives the value from, and exactly those are read.
import ShapeTraits.Proofs.DoubleText
import ShapeTraits.Proofs.JsonStrings
import ShapeTraits.Proofs.ValueReading

namespace ShapeTraits

open Cursor Grammar

/-! ## Numbers -/

namespace Number

/-- The form in which a number comes back: an unsigned one that fits is signed. -/
def settled : Number → Number
  | uint64 v => if v.toNat < signedLimit then int64 (Int64.ofNat v.toNat) else uint64 v
  | x => x

/-- A number whose text is that of a numeral for the number. -/
def IsWritten (x : Number) : Prop :=
  ∃ n : Numeral, n.WellFormed ∧ n.text = x.text ∧ n.value = x.settled

theorem isWritten_int64 (v : Int64) : (int64 v).IsWritten := by
  refine ⟨.ofInt v.toInt, Numeral.wellFormed_ofInt _, Numeral.text_ofInt _, ?_⟩
  rw [Numeral.value_ofInt, ofDigits]
  change _ = int64 v
  have hle := v.le_toInt
  have hlt := v.toInt_lt
  by_cases h : v.toInt < 0
  · have hfits : v.toInt.natAbs ≤ signedLimit := by simp only [signedLimit]; omega
    simp only [h, decide_true, if_true, hfits]
    rw [show -(v.toInt.natAbs : Int) = v.toInt by omega, Int64.ofInt_toInt]
  · have hfits : v.toInt.natAbs < signedLimit := by simp only [signedLimit]; omega
    simp only [h, decide_false, Bool.false_eq_true, if_false, hfits, if_true]
    rw [← Int64.ofInt_eq_ofNat, show (v.toInt.natAbs : Int) = v.toInt by omega, Int64.ofInt_toInt]

theorem isWritten_uint64 (v : UInt64) : (uint64 v).IsWritten := by
  refine ⟨.ofInt v.toNat, Numeral.wellFormed_ofInt _, ?_, ?_⟩
  · rw [Numeral.text_ofInt, Bytes.ofInt, if_neg (by omega)]
    rfl
  · rw [Numeral.value_ofInt, ofDigits, settled]
    have hlt : v.toNat < unsignedLimit := v.toNat_lt
    simp only [Int.natAbs_natCast, hlt, if_true, UInt64.ofNat_toNat]
    rw [if_neg (by simp)]

theorem isWritten_double {x : Binary64} (hx : x.isFinite) : (double x).IsWritten :=
  Binary64.exists_numeral hx

/-- Every number is written but for the doubles that are not finite. -/
theorem isWritten_of_finite (x : Number) (hx : ∀ v, x = double v → v.isFinite) : x.IsWritten := by
  cases x with
  | int64 v => exact isWritten_int64 v
  | uint64 v => exact isWritten_uint64 v
  | double v => exact isWritten_double (hx v rfl)

end Number

/-! ## Layouts -/

namespace Byte

/-- All bytes but some. -/
def except (good : Bytes) (b : UInt8) : Bool := !good.contains b

section Except

variable {good : Bytes} {bad : UInt8 → Bool}

theorem avoided_of (h : (good.all fun b => !bad b) = true) (b : UInt8)
    (hb : except good b = false) :
    bad b = false := by
  unfold except at hb
  have hmem : b ∈ good := by simpa using hb
  simpa using List.all_eq_true.mp h b hmem

theorem except_of (h : (good.all fun b => !bad b) = true) (b : UInt8) (hb : bad b = true) :
    except good b = true := by
  by_cases hexcept : except good b = true
  · exact hexcept
  · rw [avoided_of h b (Bool.eq_false_iff.mpr hexcept)] at hb
    exact absurd hb Bool.false_ne_true

end Except

/-- The bytes that may not stand behind a value: all but what ends one. -/
def staysInValue : UInt8 → Bool := except [comma, lineFeed, 0x5d, 0x7d]

/-- The bytes that may not stand behind the last thing in a row. -/
def opensNothing : UInt8 → Bool := except [0x5d, 0x7d]

/-- The bytes that may not stand behind a colon or a blank. -/
def staysBlank (b : UInt8) : Bool := isBlank b || b == equals

theorem staysBlank_of_isBlank (b : UInt8) (hb : isBlank b = true) : staysBlank b = true := by
  unfold staysBlank
  rw [hb, Bool.true_or]

theorem isBlank_of_staysBlank (b : UInt8) (hb : staysBlank b = false) : isBlank b = false := by
  unfold staysBlank at hb
  exact (Bool.or_eq_false_iff.mp hb).1

end Byte

theorem gap_of_one {content : Token.Content} {text : Bytes} {w : List Token}
    (h : Spells.One content text w) (hk : content.kind.isGap = true) : Gap w := by
  obtain ⟨t, rfl, ht, -⟩ := h
  intro u hu
  rw [List.mem_singleton.mp hu, Token.kind, ht]
  exact hk

namespace Layout

theorem spells_lineBreak (layout : Layout) (level : Nat) :
    Spells (layout.lineBreak level) Byte.isBlank Gap := by
  cases layout with
  | compact => exact Spells.nil _ .nil
  | indented width =>
    rw [lineBreak]
    cases width * level with
    | zero => exact Spells.newline.imp nofun fun w hw => gap_of_one hw rfl
    | succ count =>
      exact Spells.newline.append (Spells.blanks count) (fun _ _ => Spells.avoids_anything _)
        fun x y hx hy => (gap_of_one hx rfl).append (gap_of_one hy rfl)

/-- A comma and a line break stand between two things. -/
theorem spells_separator (layout : Layout) (level : Nat) :
    Spells (Byte.comma :: layout.lineBreak level) Byte.isBlank Gap :=
  Spells.comma.append (spells_lineBreak layout level) (fun _ _ => Spells.avoids_anything _)
    fun _ _ hx hy => (gap_of_one hx rfl).append hy

theorem colon_compact : colon .compact = [Byte.colon] := rfl

theorem colon_indented (width : Nat) : colon (.indented width) = [Byte.colon, Byte.space] := rfl

theorem spells_colon (layout : Layout) : Spells layout.colon Byte.staysBlank
    fun w => ∃ t g, w = t :: g ∧ t.kind = .colon ∧ Gap g := by
  cases layout with
  | compact =>
    rw [colon_compact]
    refine Spells.colon.imp (fun b hb => ?_) ?_
    · unfold Byte.staysBlank
      rw [hb, Bool.or_true]
    · rintro w ⟨t, rfl, ht, -⟩
      exact ⟨t, [], rfl, by rw [Token.kind, ht]; rfl, .nil⟩
  | indented width =>
    rw [colon_indented]
    refine (Spells.colon.append (Spells.blanks 0) (fun _ _ => Bytes.avoids_cons rfl) ?_).imp
      Byte.staysBlank_of_isBlank fun _ h => h
    rintro x y ⟨t, rfl, ht, -⟩ hy
    exact ⟨t, y, rfl, by rw [Token.kind, ht]; rfl, gap_of_one hy rfl⟩

theorem colon_head (layout : Layout) : ∃ rest, layout.colon = Byte.colon :: rest := by
  cases layout with
  | compact => exact ⟨_, colon_compact⟩
  | indented width => exact ⟨_, colon_indented width⟩

theorem lineBreak_avoids (layout : Layout) (level : Nat) {bad : UInt8 → Bool} {rest : Bytes}
    (hfeed : bad Byte.lineFeed = false) (hrest : Bytes.Avoids bad rest) :
    Bytes.Avoids bad (layout.lineBreak level ++ rest) := by
  cases layout with
  | compact => exact hrest
  | indented width => exact Bytes.avoids_cons hfeed

end Layout

/-! ## Things in a row -/

/-- Texts behind one another, with separators between them and a line break
behind the last, are spelled as many things. -/
theorem spells_many {α β γ : Type} {F : Form β} {f : α → γ} {g : β → γ} {text : α → Bytes}
    (layout : Layout) (inner outer : Nat) (rest : List α)
    (a : α)
    (hspells : ∀ x ∈ a :: rest,
      Spells (text x) Byte.staysInValue fun w => ∃ b, F w b [] ∧ g b = f x)
    (hhead : ∀ x ∈ a :: rest, ∀ more, Bytes.Avoids Byte.staysBlank (text x ++ more)) :
    Spells (text a ++ (rest.flatMap (fun x => Byte.comma :: layout.lineBreak inner ++ text x) ++
        layout.lineBreak outer)) Byte.opensNothing
      fun w => ∃ bs, Many F w bs [] ∧ bs.map g = (a :: rest).map f := by
  induction rest generalizing a with
  | nil =>
    refine (hspells a List.mem_cons_self).append
      (layout.spells_lineBreak outer |>.imp ?_ fun _ h => h)
      (fun more hmore => ?_) ?_
    · exact Byte.except_of rfl
    · exact layout.lineBreak_avoids outer rfl (hmore.imp (Byte.avoided_of rfl))
    · rintro x y ⟨b, hb, hgb⟩ hy
      refine ⟨[b], ?_, by rw [List.map_singleton, List.map_singleton, hgb]⟩
      have hmany := Many.cons hb hy .nil
      simpa using hmany
  | cons a' rest ih =>
    obtain ⟨ha, hspells⟩ := List.forall_mem_cons.mp hspells
    obtain ⟨-, hhead⟩ := List.forall_mem_cons.mp hhead
    have hmore := ih a' hspells hhead
    have hseparated := (layout.spells_separator inner).append hmore
      (R := fun w => ∃ u v, w = u ++ v ∧ Gap u ∧
        ∃ bs, Many F v bs [] ∧ bs.map g = (a' :: rest).map f)
      (fun more _ => by
        rw [List.append_assoc]
        exact (hhead a' List.mem_cons_self _).imp Byte.isBlank_of_staysBlank)
      fun x y hx hy => ⟨x, y, rfl, hx, hy⟩
    have hall := ha.append hseparated (fun more _ => Bytes.avoids_cons rfl)
      (R := fun w => ∃ bs, Many F w bs [] ∧ bs.map g = (a :: a' :: rest).map f) ?_
    · simpa using hall
    · rintro x y ⟨b, hb, hgb⟩ ⟨u, v, rfl, hu, bs, hbs, hmap⟩
      refine ⟨b :: bs, ?_, by rw [List.map_cons, List.map_cons, hgb, hmap]⟩
      have hmany := Many.cons hb hu hbs
      simpa using hmany

namespace Node

/-! ## The text of arrays and objects -/

/-- The text of a member at a level. -/
def memberText (layout : Layout) (level : Nat) (e : Entry Node) : Bytes :=
  jsonString e.key ++ layout.colon ++ write layout level e.value

theorem writeItems_eq (layout : Layout) (level : Nat) (items : List Node) :
    writeItems layout level items =
      items.flatMap fun n => Byte.comma :: layout.lineBreak level ++ write layout level n := by
  induction items with
  | nil => rfl
  | cons n items ih =>
    rw [writeItems, ih, List.flatMap_cons]
    rfl

theorem writeMembers_eq (layout : Layout) (level : Nat) (entries : List (Entry Node)) :
    writeMembers layout level entries =
      entries.flatMap fun e =>
        Byte.comma :: layout.lineBreak level ++ memberText layout level e := by
  induction entries with
  | nil => rfl
  | cons e entries ih =>
    rw [writeMembers, ih, List.flatMap_cons]
    simp only [memberText, List.append_assoc]
    rfl

/-- The text of an array or object with something in it: the first thing, the
others, and the breaks and brackets around them. -/
def enclosed (layout : Layout) (level : Nat) (opening closing : UInt8)
    (first others : Bytes) : Bytes :=
  [opening] ++
    (layout.lineBreak (level + 1) ++ (first ++ (others ++ layout.lineBreak level) ++ [closing]))

theorem write_array_nil (layout : Layout) (level : Nat) (l : Location) :
    write layout level (array l []) = [0x5b, 0x5d] := by
  rw [write]
  rfl

theorem write_object_nil (layout : Layout) (level : Nat) (l : Location) :
    write layout level (object l ⟨[]⟩) = [0x7b, 0x7d] := by
  rw [write]
  rfl

theorem write_array (layout : Layout) (level : Nat) (l : Location) (n : Node) (items : List Node) :
    write layout level (array l (n :: items)) = enclosed layout level 0x5b 0x5d
      (write layout (level + 1) n)
      (items.flatMap fun n =>
        Byte.comma :: layout.lineBreak (level + 1) ++ write layout (level + 1) n) := by
  rw [write, writeItems_eq, enclosed]
  simp only [List.append_assoc]
  rfl

theorem write_object (layout : Layout) (level : Nat) (l : Location) (e : Entry Node)
    (entries : List (Entry Node)) :
    write layout level (object l ⟨e :: entries⟩) = enclosed layout level 0x7b 0x7d
      (memberText layout (level + 1) e)
      (entries.flatMap fun e =>
        Byte.comma :: layout.lineBreak (level + 1) ++ memberText layout (level + 1) e) := by
  rw [write, writeMembers_eq, enclosed]
  simp only [memberText, List.append_assoc]
  rfl

/-! ## Values as tokens -/

/-- Tokens that the grammar derives a value from, up to its locations. -/
def Stands (n : Node) (w : List Token) : Prop :=
  ∃ m, Value w m [] ∧ m.bare id = n.bare Number.settled

/-- Every keyword is a name. -/
theorem keyword_named : ∀ text ∈ keywords, (text.head?.any Byte.isIdentifierStart &&
    text.tail.all Byte.isIdentifierContinue) = true := by
  decide

theorem spells_keyword (text : Bytes) {n : Node} (hkeyword : text ∈ keywords)
    (hn : ∀ l, (meaning text l).bare id = n.bare Number.settled) :
    Spells text Byte.staysInValue (Stands n) := by
  have hname := keyword_named text hkeyword
  cases text with
  | nil => exact absurd hname (by decide)
  | cons b more =>
    obtain ⟨hb, hmore⟩ := Bool.and_eq_true_iff.mp hname
    refine (Spells.name hb (List.all_eq_true.mp hmore)).imp (Byte.except_of rfl) ?_
    rintro w ⟨t, rfl, hcontent, hlexeme⟩
    have hvalue := Value.id (.single (Token.kind_eq_identifier.mpr hcontent))
    rw [leaves, if_pos (hlexeme ▸ hkeyword)] at hvalue
    exact ⟨_, hvalue, by rw [hlexeme]; exact hn t.start⟩

theorem spells_number {x : Number} (hx : x.IsWritten) (l : Location) :
    Spells x.text Byte.staysInValue (Stands (number l x)) := by
  obtain ⟨numeral, hwell, htext, hvalue⟩ := hx
  rw [← htext]
  refine (Numeral.spells hwell).imp (Byte.except_of rfl) ?_
  rintro w ⟨t, rfl, hcontent, -⟩
  refine ⟨_, .number hcontent, ?_⟩
  rw [hvalue]
  rfl

theorem spells_string (l : Location) (text : Bytes) :
    Spells (jsonString text) Byte.staysInValue (Stands (string l text)) := by
  refine (spells_jsonString text).imp (Byte.except_of rfl) ?_
  rintro w ⟨t, rfl, hcontent, -⟩
  exact ⟨_, .string hcontent, rfl⟩

theorem spells_enclosed {layout : Layout} {level : Nat} {opening closing : UInt8}
    {first others : Bytes} {P Q : List Token → Prop} (hopening : opening ∈ [0x5b, 0x5d, 0x7b, 0x7d])
    (hclosing : closing = 0x5d ∨ closing = 0x7d)
    (hhead : ∀ more, Bytes.Avoids Byte.staysBlank (first ++ more))
    (hinside : Spells (first ++ (others ++ layout.lineBreak level)) Byte.opensNothing P)
    (hQ : ∀ l g w r, l.content = Scan.signContent opening → Gap g → P w →
      r.content = Scan.signContent closing → Q (l :: (g ++ w ++ [r]))) :
    Spells (enclosed layout level opening closing first others) Byte.staysInValue Q := by
  have hmem : closing ∈ [0x5b, 0x5d, 0x7b, 0x7d] := by rcases hclosing with rfl | rfl <;> decide
  have hclose := hinside.append (Spells.bracket hmem)
    (R := fun w => ∃ x r, w = x ++ [r] ∧ P x ∧ r.content = Scan.signContent closing)
    (fun more _ => Bytes.avoids_cons (by rcases hclosing with rfl | rfl <;> rfl))
    (fun x y hx ⟨r, hr, hcontent, _⟩ => ⟨x, r, by rw [hr], hx, hcontent⟩)
  have hbreak := (layout.spells_lineBreak (level + 1)).append hclose
    (R := fun w => ∃ g x r, w = g ++ x ++ [r] ∧ Gap g ∧ P x ∧ r.content = Scan.signContent closing)
    (fun more _ => by
      rw [List.append_assoc, List.append_assoc]
      exact (hhead _).imp Byte.isBlank_of_staysBlank)
    (fun g y hg ⟨x, r, hy, hx, hr⟩ => ⟨g, x, r, by rw [hy, List.append_assoc], hg, hx, hr⟩)
  refine (Spells.bracket hopening).append (hbreak.imp nofun fun _ h => h)
    (fun _ _ => Spells.avoids_anything _) ?_
  rintro x y ⟨l, rfl, hl, -⟩ ⟨g, w, r, rfl, hg, hw, hr⟩
  exact hQ l g w r hl hg hw hr

theorem spells_empty {opening closing : UInt8} {Q : List Token → Prop}
    (hopening : opening ∈ [0x5b, 0x5d, 0x7b, 0x7d]) (hclosing : closing ∈ [0x5b, 0x5d, 0x7b, 0x7d])
    (hQ : ∀ l r, l.content = Scan.signContent opening → r.content = Scan.signContent closing →
      Q [l, r]) : Spells [opening, closing] Byte.staysInValue Q := by
  refine ((Spells.bracket hopening).append (Spells.bracket hclosing)
    (fun _ _ => Spells.avoids_anything _) ?_).imp nofun fun _ h => h
  rintro x y ⟨l, rfl, hl, -⟩ ⟨r, rfl, hr, -⟩
  exact hQ l r hl hr

/-! ## Whole values -/

theorem avoids_string (text more : Bytes) :
    Bytes.Avoids Byte.staysBlank (jsonString text ++ more) := by
  rw [jsonString, List.append_assoc]
  exact Bytes.avoids_cons rfl

theorem avoids_number {x : Number} (hx : x.IsWritten) (more : Bytes) :
    Bytes.Avoids Byte.staysBlank (x.text ++ more) := by
  obtain ⟨numeral, hwell, htext, -⟩ := hx
  obtain ⟨b, rest, hb, hfirst⟩ := Numeral.text_head hwell
  rw [← htext, hb]
  have hstays : ∀ b, Byte.isDigit b = true ∨ b = Byte.minus → Byte.staysBlank b = false := by
    exact Byte.forall_of_lt (by decide +kernel)
  exact Bytes.avoids_cons (hstays b hfirst)

/-- No value begins with a blank or an equals sign. -/
theorem avoids_write {n : Node} (hn : ∀ x ∈ n.numbers, x.IsWritten) (layout : Layout) (level : Nat)
    (more : Bytes) : Bytes.Avoids Byte.staysBlank (write layout level n ++ more) := by
  cases n with
  | null => exact Bytes.avoids_cons rfl
  | boolean l v => cases v <;> exact Bytes.avoids_cons rfl
  | number l x => exact avoids_number (hn x (List.mem_singleton_self x)) more
  | string l text => exact avoids_string text more
  | array l items =>
    cases items with
    | nil => exact Bytes.avoids_cons rfl
    | cons n items =>
      rw [write_array, enclosed]
      exact Bytes.avoids_cons rfl
  | object l members =>
    obtain ⟨entries⟩ := members
    cases entries with
    | nil => exact Bytes.avoids_cons rfl
    | cons e entries =>
      rw [write_object, enclosed]
      exact Bytes.avoids_cons rfl

theorem avoids_member (layout : Layout) (level : Nat) (e : Entry Node) (more : Bytes) :
    Bytes.Avoids Byte.staysBlank (memberText layout level e ++ more) := by
  rw [memberText, List.append_assoc, List.append_assoc]
  exact avoids_string e.key _

theorem spells_member {layout : Layout} {level : Nat} {e : Entry Node}
    (hvalue : Spells (write layout level e.value) Byte.staysInValue (Stands e.value))
    (hhead : ∀ more, Bytes.Avoids Byte.staysBlank (write layout level e.value ++ more)) :
    Spells (memberText layout level e) Byte.staysInValue
      fun w => ∃ m, Grammar.Member Value w m [] ∧ bareEntry id m = bareEntry Number.settled e := by
  have hcolon := layout.spells_colon.append hvalue
    (R := fun w => ∃ t g v, w = t :: (g ++ v) ∧ t.kind = .colon ∧ Gap g ∧ Stands e.value v)
    (fun more _ => hhead more)
    (fun x v ⟨t, g, hx, ht, hg⟩ hv => ⟨t, g, v, by rw [hx]; rfl, ht, hg, hv⟩)
  rw [memberText, List.append_assoc]
  refine (spells_jsonString e.key).append hcolon (fun more _ => ?_) ?_
  · obtain ⟨rest, hrest⟩ := layout.colon_head
    rw [hrest]
    exact Bytes.avoids_cons rfl
  · rintro x y ⟨k, rfl, hk, -⟩ ⟨t, g, v, rfl, ht, hg, m, hm, hbare⟩
    refine ⟨⟨e.key, k.start, m⟩, .mk (.string hk) .nil ht hg hm, ?_⟩
    rw [bareEntry, bareEntry, hbare]

section Level

variable {layout : Layout} {level : Nat}

theorem spells_null (l : Location) :
    Spells (write layout level (null l)) Byte.staysInValue (Stands (null l)) := by
  rw [write]
  refine spells_keyword (utf8 "null") (by simp [keywords]) fun _ => ?_
  rw [meaning, if_neg (by decide), if_neg (by decide), if_pos rfl]
  rfl

theorem spells_boolean (l : Location) (v : Bool) :
    Spells (write layout level (boolean l v)) Byte.staysInValue (Stands (boolean l v)) := by
  cases v with
  | true =>
    rw [write, if_pos rfl]
    refine spells_keyword (utf8 "true") (by simp [keywords]) fun _ => ?_
    rw [meaning, if_pos rfl]
    rfl
  | false =>
    rw [write, if_neg Bool.false_ne_true]
    refine spells_keyword (utf8 "false") (by simp [keywords]) fun _ => ?_
    rw [meaning, if_neg (by decide), if_pos rfl]
    rfl

theorem spells_array {items : List Node} (l : Location)
    (hitems : ∀ n ∈ items, ∀ x ∈ n.numbers, x.IsWritten)
    (hspells : ∀ n ∈ items, Spells (write layout (level + 1) n) Byte.staysInValue (Stands n)) :
    Spells (write layout level (array l items)) Byte.staysInValue (Stands (array l items)) := by
  cases items with
  | nil =>
    rw [write_array_nil]
    refine spells_empty (by decide) (by decide) fun l r hl hr => ⟨.array l.start [], ?_, rfl⟩
    exact .array (Token.kind_eq_leftBracket.mpr hl) .nil .nil (by rw [Token.kind, hr]; rfl)
  | cons n items =>
    rw [write_array]
    have hinside := spells_many layout (level + 1) level items n hspells
      fun x hx => avoids_write (hitems x hx) layout (level + 1)
    refine spells_enclosed (by decide) (.inl rfl)
      (avoids_write (hitems n List.mem_cons_self) layout (level + 1)) hinside ?_
    rintro l g w r hl hg ⟨ms, hms, hbare⟩ hr
    refine ⟨_, .array (Token.kind_eq_leftBracket.mpr hl) hg hms (by rw [Token.kind, hr]; rfl), ?_⟩
    rw [bare_array, bare_array, hbare]

theorem spells_object {entries : List (Entry Node)} (l : Location)
    (hentries : ∀ e ∈ entries, ∀ x ∈ e.value.numbers, x.IsWritten)
    (hspells : ∀ e ∈ entries,
      Spells (write layout (level + 1) e.value) Byte.staysInValue (Stands e.value)) :
    Spells (write layout level (object l ⟨entries⟩)) Byte.staysInValue
      (Stands (object l ⟨entries⟩)) := by
  cases entries with
  | nil =>
    rw [write_object_nil]
    refine spells_empty (by decide) (by decide) fun l r hl hr => ⟨.object l.start ⟨[]⟩, ?_, rfl⟩
    exact .object (Token.kind_eq_leftBrace.mpr hl) .nil .nil (by rw [Token.kind, hr]; rfl)
  | cons e entries =>
    rw [write_object]
    have hinside := spells_many layout (level + 1) level entries e
      (fun x hx => spells_member (hspells x hx) (avoids_write (hentries x hx) layout (level + 1)))
      fun x _ => avoids_member layout (level + 1) x
    refine spells_enclosed (by decide) (.inr rfl) (avoids_member layout (level + 1) e) hinside ?_
    rintro l g w r hl hg ⟨ms, hms, hbare⟩ hr
    refine ⟨_, .object (Token.kind_eq_leftBrace.mpr hl) hg hms (by rw [Token.kind, hr]; rfl), ?_⟩
    rw [bare_object, bare_object, hbare]

end Level

theorem spells_write (layout : Layout) (level : Nat) (n : Node)
    (hn : ∀ x ∈ n.numbers, x.IsWritten) :
    Spells (write layout level n) Byte.staysInValue (Stands n) := by
  induction n generalizing level with
  | null l => exact spells_null l
  | boolean l v => exact spells_boolean l v
  | number l x => exact spells_number (hn x (List.mem_singleton_self x)) l
  | string l text => exact spells_string l text
  | array l items ih =>
    rw [numbers_array] at hn
    have hitems (n : Node) (hmem : n ∈ items) : ∀ x ∈ n.numbers, x.IsWritten := by
      intro x hx
      apply hn
      exact List.mem_flatMap.mpr ⟨n, hmem, hx⟩
    exact spells_array l hitems fun n hmem => ih n hmem (level + 1) (hitems n hmem)
  | object l entries ih =>
    rw [numbers_object] at hn
    have hentries (e : Entry Node) (hmem : e ∈ entries) : ∀ x ∈ e.value.numbers, x.IsWritten := by
      intro x hx
      apply hn
      exact List.mem_flatMap.mpr ⟨e, hmem, hx⟩
    exact spells_object l hentries fun e hmem => ih e hmem (level + 1) (hentries e hmem)

/-- What is written in a layout is read back. -/
theorem read_write (layout : Layout) {n : Node} (hnumbers : ∀ x ∈ n.numbers, x.IsWritten)
    (hkeys : n.hasDistinctKeys) {limit : Nat} (hdepth : n.depth ≤ limit) (file : Bytes) :
    lexicalErrors (Source.mk file (n.write layout 0)).tokens = [] ∧
      ∃ m d, read .forward none
        (ofTokens (Source.mk file (n.write layout 0)).tokens limit) = (.ok m, d) ∧
        m.bare id = n.bare Number.settled ∧ d.kind = .eof ∧ d.references = [] := by
  obtain ⟨w, eof, htokens, heof, hlex, m, hm, hbare⟩ :=
    (spells_write layout 0 n hnumbers).document file
  refine ⟨hlex, m, ?_⟩
  rw [htokens]
  obtain ⟨d, hread, hd, hmove⟩ :=
    (reads_value limit).complete (c := ofTokens (w ++ [eof]) limit) rfl
    ⟨hm, fits_of_bare hbare ⟨hkeys, hdepth⟩⟩ (ofTokens_ahead_of_end heof w limit)
    (notNext_cons (by rw [heof]; rfl))
  exact ⟨d, hread, hbare, (kind_of_ahead hd).trans heof, hmove.references⟩

/-! ## The laws -/

/-- The text of a value, compact or pretty, has no lexical errors and is read
back as the value up to its locations, with its numbers settled, to the end of
the text and without references. -/
theorem what_is_written_is_read_back {n : Node} {text : Bytes}
    (htext : text = n.text ∨ ∃ width : Int, text = n.prettyText width) (hkeys : n.hasDistinctKeys)
    (hfinite : ∀ x, .double x ∈ n.numbers → x.isFinite) {limit : Nat} (hdepth : n.depth ≤ limit)
    (file : Bytes) :
    lexicalErrors (Source.mk file text).tokens = [] ∧
      ∃ m d, read .forward none (ofTokens (Source.mk file text).tokens limit) = (.ok m, d) ∧
        m.bare id = n.bare Number.settled ∧ d.kind = .eof ∧ d.references = [] := by
  have hnumbers : ∀ x ∈ n.numbers, x.IsWritten := by
    intro x hx
    apply Number.isWritten_of_finite
    rintro v rfl
    exact hfinite v hx
  rcases htext with rfl | ⟨width, rfl⟩
  · exact read_write .compact hnumbers hkeys hdepth file
  · exact read_write (.ofIndent width) hnumbers hkeys hdepth file

/-- An empty key, an empty text, a half and an unsigned one, which comes back signed. -/
theorem a_half_and_an_unsigned_one_are_read_back :
    let half : Number := .double ⟨0x3fe0000000000000⟩
    let among (x : Number) : Node := .object .nowhere ⟨[⟨[], .nowhere, .string .nowhere []⟩,
      ⟨utf8 "x", .nowhere, .array .nowhere [.number .nowhere half, .number .nowhere x]⟩]⟩
    let text := (among (.uint64 1)).prettyText 2
    (among (.uint64 1)).hasDistinctKeys ∧ (among (.uint64 1)).depth = 2 ∧
      lexicalErrors (Source.mk [] text).tokens = [] ∧
      ∃ m d, read .forward none (ofTokens (Source.mk [] text).tokens 2) = (.ok m, d) ∧
        m.bare id = among (.int64 1) ∧ d.kind = .eof ∧ d.references = [] := by
  intro half among text
  have hfinite : ∀ x, .double x ∈ (among (.uint64 1)).numbers → x.isFinite := by
    intro x hx
    have hx : Number.double x ∈ [half, .uint64 1] := hx
    simp only [List.mem_cons, reduceCtorEq, List.not_mem_nil, or_false, half, Number.double.injEq]
      at hx
    rw [hx]
    decide
  refine ⟨by decide, by decide, ?_⟩
  exact what_is_written_is_read_back (n := among (.uint64 1)) (.inr ⟨2, rfl⟩) (by decide) hfinite
    (by decide) []

end Node

end ShapeTraits
