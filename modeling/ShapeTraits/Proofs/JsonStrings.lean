-- Strings in JSON text: an escaped byte is an item of a string literal that
-- stands for the byte, so a string literal is read back as its text.
import ShapeTraits.Node.Json
import ShapeTraits.Proofs.Spelling

namespace ShapeTraits

/-! ## Escaped bytes -/

/-- What an escaped byte looks like: itself, a backslash and a letter or sign, or
a backslash and a code unit. -/
inductive Escaped (b : UInt8) : Bytes → Prop
  | plain (quote : b ≠ Byte.quote) (backslash : b ≠ Byte.backslash) : Escaped b [b]
  | named {c} (means : Escape.named? c = some b) : Escaped b [Byte.backslash, c]
  | unit {p q r s} (value : Escape.codeUnit? [p, q, r, s] = some b.toNat) (low : b.toNat < 0x20)
      (safe : ∀ c ∈ [p, q, r, s], c ≠ Byte.quote ∧ c ≠ Byte.backslash) :
      Escaped b [Byte.backslash, Escape.unitMark, p, q, r, s]

theorem hexDigit_means : ∀ k < 16, Byte.hexValue? (Byte.ofHexDigit k) = some k ∧
    Byte.ofHexDigit k ≠ Byte.quote ∧ Byte.ofHexDigit k ≠ Byte.backslash := by
  decide

theorem hexOfNat_four (k : Nat) : Bytes.hexOfNat 4 k =
    [Byte.ofHexDigit (k / 16 / 16 / 16 % 16), Byte.ofHexDigit (k / 16 / 16 % 16),
      Byte.ofHexDigit (k / 16 % 16), Byte.ofHexDigit (k % 16)] := rfl

theorem escaped_unit {b : UInt8} (h : b < 0x20) :
    Escaped b (utf8 "\\u" ++ Bytes.hexOfNat 4 b.toNat) := by
  have hb : b.toNat < 0x20 := UInt8.lt_iff_toNat_lt.mp h
  have hdigit (k : Nat) := hexDigit_means (k % 16) (Nat.mod_lt k (by decide))
  rw [hexOfNat_four]
  refine .unit ?_ hb ?_
  · simp only [Escape.codeUnit?, hdigit, Option.bind_eq_bind, Option.bind_some]
    congr 1
    omega
  · intro c hc
    simp only [List.mem_cons, List.not_mem_nil, or_false] at hc
    rcases hc with rfl | rfl | rfl | rfl
    all_goals exact (hdigit _).2

theorem escaped (b : UInt8) : Escaped b (jsonEscape b) := by
  unfold jsonEscape
  split
  · next h => exact .named (by rw [h]; rfl)
  split
  · next h => exact .named (by rw [h]; rfl)
  split
  · next h => exact .named (by rw [h]; rfl)
  split
  · next h => exact .named (by rw [h]; rfl)
  split
  · next h => exact .named (by rw [h]; rfl)
  split
  · next h => exact .named (by rw [h]; rfl)
  split
  · next h => exact .named (by rw [h]; rfl)
  split
  · next h => exact escaped_unit h
  · exact .plain ‹_› ‹_›

/-! ## Bodies of literals -/

namespace Scan

theorem body_plain {isClose : Bytes → Bool} {b : UInt8} {rest : Bytes}
    (hclose : isClose (b :: rest) = false) (hb : b ≠ Byte.backslash) :
    body isClose (b :: rest) = (body isClose rest).after 1 := by
  rw [body.eq_def]
  simp [hclose, hb]

theorem body_escape {isClose : Bytes → Bool} {c : UInt8} {rest : Bytes}
    (hclose : isClose (Byte.backslash :: c :: rest) = false) :
    body isClose (Byte.backslash :: c :: rest) = (body isClose rest).after 2 := by
  simp [body, hclose]

theorem Body.after_after (k j : Nat) (found : Body) :
    (found.after k).after j = found.after (j + k) := by
  simp [after, Nat.add_assoc]

/-- No escaped byte closes a string. -/
theorem body_escaped {b : UInt8} {text rest : Bytes} (h : Escaped b text) :
    body closesString (text ++ rest) = (body closesString rest).after text.length := by
  have hclose {c : UInt8} {more : Bytes} (hc : c ≠ Byte.quote) : closesString (c :: more) = false :=
    beq_eq_false_iff_ne.mpr hc
  cases h with
  | plain hquote hbackslash => exact body_plain (hclose hquote) hbackslash
  | named => exact body_escape (hclose (by decide))
  | @unit p q r s value low safe =>
    simp only [List.mem_cons, List.not_mem_nil, or_false, forall_eq_or_imp, forall_eq] at safe
    obtain ⟨hp, hq, hr, hs⟩ := safe
    simp only [List.cons_append, List.nil_append]
    rw [body_escape (hclose (by decide)), body_plain (hclose hp.1) hp.2,
      body_plain (hclose hq.1) hq.2, body_plain (hclose hr.1) hr.2, body_plain (hclose hs.1) hs.2]
    simp only [Body.after_after]
    rfl

theorem body_flatMap (text rest : Bytes) :
    body closesString (text.flatMap jsonEscape ++ Byte.quote :: rest) =
      ⟨(text.flatMap jsonEscape).length, true⟩ := by
  induction text with
  | nil =>
    rw [List.flatMap_nil, List.nil_append, body.eq_def]
    rfl
  | cons b text ih =>
    rw [List.flatMap_cons, List.append_assoc, body_escaped (escaped b), ih, List.length_append]
    rfl

end Scan

/-! ## Decoding -/

namespace Escape

theorem decode_cons {b : UInt8} {rest meant : Bytes} {taken : Nat}
    (h : item b rest = .ok (meant, taken)) :
    decode (b :: rest) = (decode (rest.drop taken)).map (meant ++ ·) := by
  rw [decode, h]

theorem encodeCodePoint_of_lt {b : UInt8} (h : b.toNat < 0x80) : encodeCodePoint b.toNat = [b] := by
  rw [encodeCodePoint, if_pos h, UInt8.ofNat_toNat]

theorem codeUnit?_append {p q r s : UInt8} (rest : Bytes) :
    codeUnit? (p :: q :: r :: s :: rest) = codeUnit? [p, q, r, s] := rfl

theorem item_of_escaped {b : UInt8} {text : Bytes} (h : Escaped b text) (rest : Bytes) :
    ∃ c more taken, text ++ rest = c :: more ∧ item c more = .ok ([b], taken) ∧
      more.drop taken = rest := by
  cases h with
  | plain hquote hbackslash => exact ⟨b, rest, 0, rfl, if_pos hbackslash, rfl⟩
  | @named c means =>
    refine ⟨Byte.backslash, c :: rest, 1, rfl, ?_, rfl⟩
    simp [item, means]
  | @unit p q r s value low safe =>
    refine ⟨Byte.backslash, unitMark :: p :: q :: r :: s :: rest, 5, rfl, ?_, rfl⟩
    have hnamed : named? unitMark = none := rfl
    have hhigh : isHighSurrogate b.toNat = false := by simp [isHighSurrogate]; omega
    have hlow : isLowSurrogate b.toNat = false := by simp [isLowSurrogate]; omega
    have hunicode : unicode (p :: q :: r :: s :: rest) = .ok ([b], 5) := by
      rw [unicode, codeUnit?_append, value]
      simp [hhigh, hlow, encodeCodePoint_of_lt (Nat.lt_trans low (by decide))]
    rw [item, if_neg (by simp)]
    simp only [hnamed, hunicode]
    rfl

theorem decode_flatMap (text : Bytes) : decode (text.flatMap jsonEscape) = .ok text := by
  induction text with
  | nil =>
    rw [List.flatMap_nil, decode]
  | cons b text ih =>
    obtain ⟨c, more, taken, hsplit, hitem, hdrop⟩ :=
      item_of_escaped (escaped b) (text.flatMap jsonEscape)
    rw [List.flatMap_cons, hsplit, decode_cons hitem, hdrop, ih]
    rfl

end Escape

/-! ## Whole strings -/

theorem jsonEscape_head (b : UInt8) : ∃ c more, jsonEscape b = c :: more ∧ c ≠ Byte.quote := by
  have h := escaped b
  cases htext : jsonEscape b with
  | nil =>
    rw [htext] at h
    cases h
  | cons c more =>
    rw [htext] at h
    refine ⟨c, more, rfl, ?_⟩
    cases h with
    | plain hquote => exact hquote
    | named => decide
    | unit => decide

/-- Only two quotes at once could begin a text block, and the second is not
behind the literal. -/
theorem quoted_jsonString (text : Bytes) {rest : Bytes}
    (hrest : Bytes.Avoids (· == Byte.quote) rest) :
    Scan.quoted (text.flatMap jsonEscape ++ Byte.quote :: rest) =
      Scan.string (text.flatMap jsonEscape ++ Byte.quote :: rest) := by
  cases text with
  | nil =>
    cases rest with
    | nil => rfl
    | cons b rest =>
      have hb : b ≠ Byte.quote := by simpa using hrest.head
      simp [Scan.quoted, hb]
  | cons b text =>
    obtain ⟨c, more, hc, hne⟩ := jsonEscape_head b
    rw [List.flatMap_cons, hc]
    simp only [List.cons_append, Scan.quoted]
    split
    · next heq =>
      simp only [List.cons.injEq] at heq
      obtain ⟨rfl, -⟩ := heq
      exact if_neg fun h => hne h.1
    · rfl

/-- A string is one token of its text, unless a quote follows it. -/
theorem spells_jsonString (text : Bytes) :
    Spells (jsonString text) (· == Byte.quote) (Spells.One (.string text) (jsonString text)) := by
  refine Spells.token (by simp [jsonString]) (fun rest hrest => ?_) rfl
  have hsplit : jsonString text ++ rest =
      Byte.quote :: (text.flatMap jsonEscape ++ Byte.quote :: rest) := by
    simp [jsonString]
  have hnext : Scan.next (jsonString text ++ rest) =
      Scan.quoted (text.flatMap jsonEscape ++ Byte.quote :: rest) := by
    rw [hsplit]
    rfl
  rw [hnext, quoted_jsonString text hrest, Scan.string]
  simp only [Scan.body_flatMap, if_true, List.take_left, Scan.decoded, Escape.decode_flatMap]
  simp [jsonString]

end ShapeTraits
