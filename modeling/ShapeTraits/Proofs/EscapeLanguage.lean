-- The language of escapes. A text is decoded exactly if it consists of items: bytes that
-- stand for themselves, and signs, code units and line ends behind a backslash. It then
-- stands for what its items stand for, and there is only one way to take it apart.
import ShapeTraits.Proofs.Utf8

namespace ShapeTraits.Escape

/-! ## Items -/

/-- The signs behind a backslash that stand for a byte, with that byte. The last five
are the letters b, f, n, r and t. -/
def signs : List (UInt8 × UInt8) :=
  [(Byte.quote, Byte.quote), (Byte.apostrophe, Byte.apostrophe), (Byte.backslash, Byte.backslash),
    (Byte.slash, Byte.slash), (0x62, 0x08), (0x66, 0x0c), (0x6e, Byte.lineFeed),
    (0x72, Byte.carriageReturn), (0x74, Byte.tab)]

/-- The hexadecimal digits in their order, in either case. -/
def hexRows : List Bytes := [utf8 "0123456789abcdef", utf8 "0123456789ABCDEF"]

/-- A hexadecimal digit counts as many as there are digits before it. -/
def Counts (digit : UInt8) (value : Nat) : Prop := ∃ row ∈ hexRows, row[value]? = some digit

/-- Four hexadecimal digits and their number. -/
inductive FourDigits : Bytes → Nat → Prop
  | mk {a b c d : UInt8} {p q r s : Nat} (first : Counts a p) (second : Counts b q)
    (third : Counts c r)
      (fourth : Counts d s) : FourDigits [a, b, c, d] (p * 16 ^ 3 + q * 16 ^ 2 + r * 16 + s)

/-- An item as it is written, and what it stands for. -/
inductive Item : (written meant : Bytes) → Prop
  | plain {b : UInt8} (other : b ≠ Byte.backslash) : Item [b] [b]
  | sign {b meant : UInt8} (known : (b, meant) ∈ signs) : Item [Byte.backslash, b] [meant]
  /-- A code unit that is no surrogate. -/
  | unit {digits : Bytes} {unit : Nat} (spells : FourDigits digits unit)
      (whole : unit < 0xd800 ∨ 0xdfff < unit) :
      Item (Byte.backslash :: unitMark :: digits) (String.utf8EncodeChar (Char.ofNat unit))
  /-- A high surrogate and a low one. -/
  | pair {first second : Bytes} {high low : Nat} (spellsHigh : FourDigits first high)
      (spellsLow : FourDigits second low) (isHigh : 0xd800 ≤ high ∧ high ≤ 0xdbff)
      (isLow : 0xdc00 ≤ low ∧ low ≤ 0xdfff) :
      Item (Byte.backslash :: unitMark :: first ++ Byte.backslash :: unitMark :: second)
        (String.utf8EncodeChar (Char.ofNat (0x10000 + (high - 0xd800) * 0x400 + (low - 0xdc00))))
  | lineFeed : Item [Byte.backslash, Byte.lineFeed] []
  | lineBreak : Item [Byte.backslash, Byte.carriageReturn, Byte.lineFeed] []
  | carriageReturn : Item [Byte.backslash, Byte.carriageReturn] []

/-- A piece of a text that is an item. -/
@[ext]
structure Piece where
  written : Bytes
  meant : Bytes
  isItem : Item written meant

/-- A line feed behind a carriage return belongs to the same item. -/
def Piece.EndsBefore (p : Piece) (rest : Bytes) : Prop :=
  p.written = [Byte.backslash, Byte.carriageReturn] → rest.head? ≠ some Byte.lineFeed

/-- A text taken apart into items. -/
inductive ConsistsOf : Bytes → List Piece → Prop
  | nil : ConsistsOf [] []
  | cons {rest : Bytes} {pieces : List Piece} (p : Piece) (ends : p.EndsBefore rest)
      (behind : ConsistsOf rest pieces) : ConsistsOf (p.written ++ rest) (p :: pieces)

/-- What some items stand for together. -/
def meaning (pieces : List Piece) : Bytes := pieces.flatMap Piece.meant

/-! ## Signs and digits -/

variable {b first : UInt8} {text rest meant digits : Bytes} {unit taken : Nat}

theorem named_eq_some {sign : UInt8} : named? b = some sign ↔ (b, sign) ∈ signs := by
  have hknown : ∀ b, (named? b).all (fun sign => signs.contains (b, sign)) = true :=
    Byte.forall_of_lt (by decide +kernel)
  have hnamed : signs.all (fun s => named? s.1 == some s.2) = true := by decide
  constructor
  · intro h
    have hb := hknown b
    rw [h] at hb
    simpa using hb
  · intro h
    simpa using List.all_eq_true.mp hnamed _ h

theorem hexValue_eq_some {value : Nat} : Byte.hexValue? b = some value ↔ Counts b value := by
  have hcounts : ∀ b, (Byte.hexValue? b).all (fun v => hexRows.any (·[v]? == some b)) = true :=
    Byte.forall_of_lt (by decide +kernel)
  have hvalues :
      ∀ v < 16, hexRows.all (fun row => row[v]?.all (Byte.hexValue? · == some v)) = true := by
    decide +kernel
  have hlength : hexRows.all (fun row => row.length == 16) = true := by decide +kernel
  unfold Counts
  constructor
  · intro h
    have hb := hcounts b
    rw [h] at hb
    simpa using hb
  · rintro ⟨row, hrow, h⟩
    have hrow16 : row.length = 16 := by simpa using List.all_eq_true.mp hlength row hrow
    have hlt : value < 16 := hrow16 ▸ (List.getElem?_eq_some_iff.mp h).1
    have hvalue := List.all_eq_true.mp (hvalues value hlt) row hrow
    rw [h] at hvalue
    simpa using hvalue

theorem codeUnit_append (h : FourDigits digits unit) (rest : Bytes) :
    codeUnit? (digits ++ rest) = some unit := by
  cases h with
  | mk ha hb hc hd =>
    rw [← hexValue_eq_some] at ha hb hc hd
    simp only [List.cons_append, codeUnit?, ha, hb, hc, hd, Option.bind_eq_bind, Option.bind_some]
    congr 1
    omega

theorem fourDigits_of_codeUnit (h : codeUnit? text = some unit) :
    ∃ digits rest, text = digits ++ rest ∧ FourDigits digits unit := by
  match text with
  | [] | [_] | [_, _] | [_, _, _] => cases h
  | a :: b :: c :: d :: rest =>
    simp only [codeUnit?, Option.bind_eq_bind, Option.bind_eq_some_iff] at h
    obtain ⟨p, hp, q, hq, r, hr, s, hs, hunit⟩ := h
    rw [hexValue_eq_some] at hp hq hr hs
    refine ⟨[a, b, c, d], rest, rfl, ?_⟩
    have hvalue : unit = p * 16 ^ 3 + q * 16 ^ 2 + r * 16 + s := by
      cases hunit
      omega
    rw [hvalue]
    exact .mk hp hq hr hs

theorem FourDigits.length (h : FourDigits digits unit) : digits.length = 4 := by
  cases h
  rfl

theorem drop_pair {first second : Bytes} {high low : Nat} (hfirst : FourDigits first high)
    (hsecond : FourDigits second low) (rest : Bytes) :
    (first ++ Byte.backslash :: unitMark :: (second ++ rest)).drop 10 = rest := by
  have hlength : 10 = (first ++ Byte.backslash :: unitMark :: second).length := by
    rw [List.length_append, List.length_cons, List.length_cons, hfirst.length, hsecond.length]
  have hsplit : first ++ Byte.backslash :: unitMark :: (second ++ rest) =
      (first ++ Byte.backslash :: unitMark :: second) ++ rest := by simp
  rw [hsplit, hlength, List.drop_left]

theorem encode_unit (hbound : unit < 0x10000) (hwhole : unit < 0xd800 ∨ 0xdfff < unit) :
    encodeCodePoint unit = String.utf8EncodeChar (Char.ofNat unit) := by
  refine Bytes.encodeCodePoint_eq ?_
  unfold Nat.isValidChar
  omega

theorem encode_pair {high low : Nat} (hhigh : 0xd800 ≤ high ∧ high ≤ 0xdbff)
    (hlow : 0xdc00 ≤ low ∧ low ≤ 0xdfff) : encodeCodePoint (combine high low) =
      String.utf8EncodeChar (Char.ofNat (0x10000 + (high - 0xd800) * 0x400 + (low - 0xdc00))) := by
  refine Bytes.encodeCodePoint_eq (.inr ?_)
  unfold combine
  omega

/-! ## Single items -/

/-- Only a carriage return at the end can go on. -/
theorem Piece.endsBefore_of_ne {p : Piece} (h : p.written ≠ [Byte.backslash, Byte.carriageReturn])
    (rest : Bytes) : p.EndsBefore rest :=
  fun hwritten => absurd hwritten h

theorem escape_ne (h : b ≠ Byte.carriageReturn) (more : Bytes) :
    Byte.backslash :: b :: more ≠ [Byte.backslash, Byte.carriageReturn] :=
  fun heq => h (List.cons.inj (List.cons.inj heq).2).1

theorem item_unit (after : Bytes) : item Byte.backslash (unitMark :: after) = unicode after := rfl

/-- The code units that are found are an item. -/
theorem piece_of_unicode (h : unicode text = .ok (meant, taken)) : ∃ p : Piece, p.meant = meant ∧
    Byte.backslash :: unitMark :: text = p.written ++ (unitMark :: text).drop taken ∧
      p.written ≠ [Byte.backslash, Byte.carriageReturn] := by
  have hmark (more : Bytes) :
      Byte.backslash :: unitMark :: more ≠ [Byte.backslash, Byte.carriageReturn] :=
    escape_ne (by decide) more
  rcases unicode_eq_ok h with
    ⟨unit, hunit, hhigh, hlow, hmeant, rfl⟩ | ⟨high, low, hunit, hhigh, hlow, hmeant, rfl⟩
  · have hbound := (codeUnit_digits hunit).1
    obtain ⟨digits, rest, rfl, hdigits⟩ := fourDigits_of_codeUnit hunit
    simp only [isHighSurrogate, isLowSurrogate, Bool.and_eq_true, decide_eq_true_eq] at hhigh hlow
    have hitem := Item.unit hdigits (by omega)
    rw [← encode_unit hbound (by omega), ← hmeant] at hitem
    refine ⟨⟨_, _, hitem⟩, rfl, ?_, hmark _⟩
    simp [← hdigits.length]
  · obtain ⟨first, rest, rfl, hfirst⟩ := fourDigits_of_codeUnit hunit
    obtain ⟨behind, hbehind, hother, hisLow⟩ := lowSurrogate_eq_some hlow
    obtain ⟨second, more, rfl, hsecond⟩ := fourDigits_of_codeUnit hother
    rw [← hfirst.length, List.drop_left] at hbehind
    subst hbehind
    simp only [isHighSurrogate, isLowSurrogate, Bool.and_eq_true, decide_eq_true_eq] at hhigh hisLow
    have hitem := Item.pair hfirst hsecond hhigh hisLow
    rw [← encode_pair hhigh hisLow, ← hmeant] at hitem
    refine ⟨⟨_, _, hitem⟩, rfl, ?_, hmark _⟩
    rw [List.drop_succ_cons, drop_pair hfirst hsecond]
    simp

/-- What is found behind a backslash or instead of one is an item. -/
theorem piece_of_item (h : item first rest = .ok (meant, taken)) :
    ∃ p : Piece, p.meant = meant ∧ first :: rest = p.written ++ rest.drop taken ∧
      p.EndsBefore (rest.drop taken) := by
  by_cases hfirst : first ≠ Byte.backslash
  · rw [item_plain hfirst] at h
    cases h
    exact ⟨⟨_, _, .plain hfirst⟩, rfl, rfl, Piece.endsBefore_of_ne (by simp) _⟩
  rw [not_not.mp hfirst] at h ⊢
  obtain ⟨b, after, rfl, hbehind⟩ := item_eq_ok h
  rcases hbehind with ⟨sign, hnamed, rfl, rfl⟩ | ⟨rfl, rfl, rfl⟩ | ⟨rfl, rfl, rfl⟩ | ⟨rfl, hunicode⟩
  · have hknown := named_eq_some.mp hnamed
    have hreturn : b ≠ Byte.carriageReturn := by
      rintro rfl
      simp +decide [signs] at hknown
    exact ⟨⟨_, _, .sign hknown⟩, rfl, rfl, Piece.endsBefore_of_ne (escape_ne hreturn _) _⟩
  · exact ⟨⟨_, _, .lineFeed⟩, rfl, rfl, Piece.endsBefore_of_ne (by decide) _⟩
  · split
    · next hhead =>
      obtain ⟨more, rfl⟩ := List.head?_eq_some_iff.mp hhead
      exact ⟨⟨_, _, .lineBreak⟩, rfl, rfl, Piece.endsBefore_of_ne (by decide) _⟩
    · next hhead => exact ⟨⟨_, _, .carriageReturn⟩, rfl, rfl, fun _ => hhead⟩
  · obtain ⟨p, hmeant, hwritten, hne⟩ := piece_of_unicode hunicode
    exact ⟨p, hmeant, hwritten, Piece.endsBefore_of_ne hne _⟩

theorem unicode_of_unit (h : FourDigits digits unit) (hwhole : unit < 0xd800 ∨ 0xdfff < unit)
    (rest : Bytes) :
    unicode (digits ++ rest) = .ok (String.utf8EncodeChar (Char.ofNat unit), 5) := by
  have hunit := codeUnit_append h rest
  have hhigh : isHighSurrogate unit = false := by
    simp [isHighSurrogate]
    omega
  have hlow : isLowSurrogate unit = false := by
    simp [isLowSurrogate]
    omega
  rw [unicode, hunit, ← encode_unit (codeUnit_digits hunit).1 hwhole]
  simp [hhigh, hlow]

theorem unicode_of_pair {first second : Bytes} {high low : Nat} (hfirst : FourDigits first high)
    (hsecond : FourDigits second low) (hhigh : 0xd800 ≤ high ∧ high ≤ 0xdbff)
    (hlow : 0xdc00 ≤ low ∧ low ≤ 0xdfff) (rest : Bytes) :
    unicode (first ++ Byte.backslash :: unitMark :: (second ++ rest)) =
      .ok (String.utf8EncodeChar
        (Char.ofNat (0x10000 + (high - 0xd800) * 0x400 + (low - 0xdc00))), 11) := by
  have hishigh : isHighSurrogate high = true := by simpa [isHighSurrogate] using hhigh
  have hislow : isLowSurrogate low = true := by simpa [isLowSurrogate] using hlow
  have hbehind : lowSurrogate? ((first ++ Byte.backslash :: unitMark :: (second ++ rest)).drop 4) =
      some low := by
    rw [← hfirst.length, List.drop_left]
    simp [lowSurrogate?, codeUnit_append hsecond, hislow]
  rw [unicode, codeUnit_append hfirst, ← encode_pair hhigh hlow]
  simp [hishigh, hbehind]

/-- An item is found where it stands. -/
theorem item_of_piece (p : Piece) (h : p.EndsBefore rest) : ∃ first more taken,
    p.written ++ rest = first :: more ∧ item first more = .ok (p.meant, taken) ∧
      more.drop taken = rest := by
  obtain ⟨written, meant, hitem⟩ := p
  cases hitem with
  | @plain b hb => exact ⟨b, rest, 0, rfl, item_plain hb rest, rfl⟩
  | @sign b meant hknown =>
    refine ⟨Byte.backslash, b :: rest, 1, rfl, ?_, rfl⟩
    simp [item, named_eq_some.mpr hknown]
  | @unit digits unit hdigits hwhole =>
    refine ⟨Byte.backslash, unitMark :: (digits ++ rest), 5, rfl, ?_, ?_⟩
    · rw [item_unit, unicode_of_unit hdigits hwhole]
    · rw [List.drop_succ_cons, ← hdigits.length, List.drop_left]
  | @pair first second high low hfirst hsecond hhigh hlow =>
    refine ⟨Byte.backslash, unitMark :: (first ++ Byte.backslash :: unitMark :: (second ++ rest)),
      11, ?_, ?_, ?_⟩
    · exact List.append_assoc (Byte.backslash :: unitMark :: first) _ _
    · rw [item_unit, unicode_of_pair hfirst hsecond hhigh hlow]
    · rw [List.drop_succ_cons, drop_pair hfirst hsecond]
  | lineFeed => exact ⟨Byte.backslash, Byte.lineFeed :: rest, 1, rfl, rfl, rfl⟩
  | lineBreak =>
    exact ⟨Byte.backslash, Byte.carriageReturn :: Byte.lineFeed :: rest, 2, rfl, rfl, rfl⟩
  | carriageReturn =>
    refine ⟨Byte.backslash, Byte.carriageReturn :: rest, 1, rfl, ?_, rfl⟩
    have hnamed : named? Byte.carriageReturn = none := rfl
    simp [item, hnamed, h rfl]

/-! ## Whole texts -/

/-- What is decoded consists of items. -/
theorem consistsOf_of_decode (h : decode text = .ok meant) :
    ∃ pieces, ConsistsOf text pieces ∧ meant = meaning pieces := by
  fun_induction decode text generalizing meant with
  | case1 =>
    cases h
    exact ⟨[], .nil, rfl⟩
  | case2 => cases h
  | case3 first rest itself taken hitem ih =>
    obtain ⟨more, hmore, rfl⟩ := ok_of_map h
    obtain ⟨pieces, hpieces, rfl⟩ := ih hmore
    obtain ⟨p, rfl, hwritten, hends⟩ := piece_of_item hitem
    rw [hwritten]
    exact ⟨p :: pieces, .cons p hends hpieces, rfl⟩

/-- What consists of items is decoded. -/
theorem decode_of_consistsOf {pieces : List Piece} (h : ConsistsOf text pieces) :
    decode text = .ok (meaning pieces) := by
  induction h with
  | nil => rw [decode]; rfl
  | @cons rest pieces p hends _ ih =>
    obtain ⟨first, more, taken, hwritten, hitem, hrest⟩ := item_of_piece p hends
    rw [hwritten, decode_cons hitem, hrest, ih]
    rfl

/-- A text is taken apart in one way: its first item is found, and so on. -/
theorem ConsistsOf.unique {pieces others : List Piece} (h : ConsistsOf text pieces)
    (hothers : ConsistsOf text others) : pieces = others := by
  induction h generalizing others with
  | nil =>
    generalize hnil : ([] : Bytes) = text at hothers
    cases hothers with
    | nil => rfl
    | cons q hends _ =>
      obtain ⟨first, more, taken, hwritten, -⟩ := item_of_piece q hends
      rw [hwritten] at hnil
      cases hnil
  | @cons rest pieces p hends _ ih =>
    generalize htext : p.written ++ rest = text at hothers
    obtain ⟨first, more, taken, hwritten, hitem, hrest⟩ := item_of_piece p hends
    cases hothers with
    | nil =>
      rw [hwritten] at htext
      cases htext
    | @cons rest' others q hends' hothers =>
      obtain ⟨first', more', taken', hwritten', hitem', hrest'⟩ := item_of_piece q hends'
      rw [hwritten, hwritten', List.cons.injEq] at htext
      obtain ⟨rfl, rfl⟩ := htext
      rw [hitem, Except.ok.injEq, Prod.mk.injEq] at hitem'
      obtain ⟨hmeant, rfl⟩ := hitem'
      obtain rfl : rest = rest' := hrest.symm.trans hrest'
      have hsame : p.written = q.written := List.append_cancel_right (hwritten.trans hwritten'.symm)
      rw [ih hothers, Piece.ext hsame hmeant]

/-! ## The law -/

/-- A text is decoded exactly if it consists of items, and stands for what they stand for
behind what was there before; and there is one way at most to take it apart. -/
theorem exactly_the_texts_that_consist_of_items_are_decoded (before text : Bytes) :
    (∀ out, decodeOnto before text = .ok out ↔
      ∃ pieces, ConsistsOf text pieces ∧ out = before ++ meaning pieces) ∧
    ∀ pieces others, ConsistsOf text pieces → ConsistsOf text others → pieces = others := by
  refine ⟨fun out => ⟨fun h => ?_, ?_⟩, fun _ _ => ConsistsOf.unique⟩
  · obtain ⟨meant, hmeant, rfl⟩ := ok_of_map h
    obtain ⟨pieces, hpieces, rfl⟩ := consistsOf_of_decode hmeant
    exact ⟨pieces, hpieces, rfl⟩
  · rintro ⟨pieces, hpieces, rfl⟩
    rw [decodeOnto, decode_of_consistsOf hpieces]
    rfl

end ShapeTraits.Escape
