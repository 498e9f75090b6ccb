-- What the text of a value is made of: printable bytes, line breaks and strings. So the
-- compact text is one line of plain bytes: no control byte stands in it.
import ShapeTraits.Proofs.JsonRoundTrip

namespace ShapeTraits

/-! ## Printable bytes -/

/-- A byte that is an ASCII character and no control byte. -/
def Byte.isPrintable (b : UInt8) : Bool := Byte.space ≤ b && b < 0x80

open Byte (isPrintable)

namespace Numeral

theorem printable_of : ∀ b, Byte.isDigit b = true ∨ b = Byte.dot ∨ isExponentLetter b = true ∨
    isSign b = true → isPrintable b = true := by
  exact Byte.forall_of_lt (by decide +kernel)

/-- What holds of digits, points, exponent letters and signs holds of a whole numeral. -/
theorem forall_text {P : UInt8 → Prop} {n : Numeral} (h : n.WellFormed)
    (hP : ∀ b, Byte.isDigit b = true ∨ b = Byte.dot ∨ isExponentLetter b = true ∨
      isSign b = true → P b) :
    ∀ b ∈ n.text, P b := by
  have hdigits {digits : Bytes} (hd : Digits digits) : ∀ b ∈ digits, P b :=
    fun b hb => hP b (.inl (hd.2 b hb))
  have hsign : ∀ b ∈ (if n.negative then [Byte.minus] else []), P b := by
    cases n.negative
    · exact List.forall_mem_nil _
    · exact List.forall_mem_singleton.mpr (hP _ (.inr (.inr (.inr rfl))))
  have hfraction : ∀ b ∈ fractionText n.fraction, P b := by
    cases hf : n.fraction with
    | none => exact List.forall_mem_nil _
    | some digits =>
      exact List.forall_mem_cons.mpr ⟨hP _ (.inr (.inl rfl)), hdigits (h.fraction digits hf)⟩
  have hexponent : ∀ b ∈ exponentText n.exponent, P b := by
    cases he : n.exponent with
    | none => exact List.forall_mem_nil _
    | some e =>
      have hsign : ∀ b ∈ e.sign.toList, P b := fun b hb =>
        hP b (.inr (.inr (.inr (h.sign e he b (Option.mem_toList.mp hb)))))
      rw [exponentText, Exponent.text, List.forall_mem_append, List.forall_mem_append,
        List.forall_mem_singleton]
      exact ⟨⟨hP _ (.inr (.inr (.inl (h.letter e he)))), hsign⟩, hdigits (h.exponent e he)⟩
  rw [text_eq, List.forall_mem_append, List.forall_mem_append, List.forall_mem_append]
  exact ⟨hsign, hdigits h.whole, hfraction, hexponent⟩

end Numeral

namespace Number

/-- What is not finite stands as a keyword. -/
theorem isWritten_or_text_eq (x : Number) : x.IsWritten ∨ x.text = utf8 "null" := by
  by_cases h : ∀ v, x = .double v → v.isFinite
  · exact .inl (isWritten_of_finite x h)
  · obtain ⟨v, hnot⟩ := Classical.not_forall.mp h
    obtain ⟨rfl, hv⟩ := Classical.not_imp.mp hnot
    rw [text, doubleText, if_neg hv]
    exact .inr rfl

theorem forall_text {P : UInt8 → Prop} (x : Number)
    (hP : ∀ b, Byte.isDigit b = true ∨ b = Byte.dot ∨ Numeral.isExponentLetter b = true ∨
      Numeral.isSign b = true → P b)
    (hnull : ∀ b ∈ utf8 "null", P b) : ∀ b ∈ x.text, P b := by
  obtain ⟨n, hwell, htext, -⟩ | htext := x.isWritten_or_text_eq
  · exact htext ▸ Numeral.forall_text hwell hP
  · exact htext ▸ hnull

theorem text_ne_nil (x : Number) : x.text ≠ [] := by
  obtain ⟨n, hwell, htext, -⟩ | htext := x.isWritten_or_text_eq
  · obtain ⟨b, rest, hb, -⟩ := Numeral.text_head hwell
    rw [← htext, hb]
    exact List.cons_ne_nil b rest
  · rw [htext]
    decide

theorem text_printable (x : Number) : x.text.all isPrintable = true :=
  List.all_eq_true.mpr (x.forall_text Numeral.printable_of (List.all_eq_true.mp rfl))

end Number

/-! ## Written values -/

namespace Node

section Written

variable {P : Bytes → Prop} {layout : Layout}
    (printable : ∀ text, text.all isPrintable = true → P text)
  (append : ∀ a b, P a → P b → P (a ++ b)) (lineBreak : ∀ level, P (layout.lineBreak level))

include printable append

theorem flatMap_holds {α : Type} {f : α → Bytes} {as : List α} (h : ∀ a ∈ as, P (f a)) :
    P (as.flatMap f) := by
  induction as with
  | nil => exact printable [] rfl
  | cons a as ih =>
    obtain ⟨ha, has⟩ := List.forall_mem_cons.mp h
    exact append _ _ ha (ih has)

theorem memberText_holds {level : Nat} {e : Entry Node} (hkey : P (jsonString e.key))
    (hvalue : P (e.value.write layout level)) : P (memberText layout level e) := by
  have hcolon : P layout.colon := by
    cases layout with
    | compact => exact printable _ rfl
    | indented width =>
      rw [Layout.colon_indented]
      exact printable _ rfl
  exact append _ _ (append _ _ hkey hcolon) hvalue

include lineBreak

theorem enclosed_holds {level : Nat} {opening closing : UInt8} {first others : Bytes}
    (hopening : isPrintable opening = true) (hclosing : isPrintable closing = true)
    (hfirst : P first)
    (hothers : P others) : P (enclosed layout level opening closing first others) := by
  have hone {b : UInt8} (hb : isPrintable b = true) : P [b] := printable _ (by simp [hb])
  unfold enclosed
  exact append _ _ (hone hopening) (append _ _ (lineBreak _)
    (append _ _ (append _ _ hfirst (append _ _ hothers (lineBreak _))) (hone hclosing)))

/-- What holds of printable text, of line breaks and of the strings in a value, and of
two texts together if it holds of both, holds of the text of the value. -/
theorem write_holds {n : Node} (level : Nat) (strings : ∀ text ∈ n.strings, P (jsonString text)) :
    P (n.write layout level) := by
  have hbehind (level : Nat) {text : Bytes} (h : P text) :
      P (Byte.comma :: layout.lineBreak level ++ text) :=
    append _ _ (append [Byte.comma] _ (printable _ rfl) (lineBreak level)) h
  induction n generalizing level with
  | null l =>
    rw [write]
    exact printable _ rfl
  | boolean l v =>
    rw [write]
    cases v <;> exact printable _ rfl
  | number l x =>
    rw [write]
    exact printable _ x.text_printable
  | string l text =>
    rw [write]
    exact strings text (List.mem_singleton_self text)
  | array l items ih =>
    cases items with
    | nil =>
      rw [write_array_nil]
      exact printable _ rfl
    | cons n items =>
      rw [strings_array, List.forall_mem_flatMap, List.forall_mem_cons] at strings
      obtain ⟨hn, hitems⟩ := List.forall_mem_cons.mp ih
      rw [write_array]
      refine enclosed_holds printable append lineBreak rfl rfl (hn (level + 1) strings.1)
        (flatMap_holds printable append fun x hx => hbehind _ ?_)
      exact hitems x hx (level + 1) (strings.2 x hx)
  | object l entries ih =>
    cases entries with
    | nil =>
      rw [write_object_nil]
      exact printable _ rfl
    | cons e entries =>
      have hentry (x : Entry Node) (hx : x ∈ e :: entries) :
          P (memberText layout (level + 1) x) := by
        have hstrings : ∀ text ∈ x.key :: x.value.strings, P (jsonString text) := by
          rw [strings_object, List.forall_mem_flatMap] at strings
          exact strings x hx
        obtain ⟨hkey, hvalue⟩ := List.forall_mem_cons.mp hstrings
        exact memberText_holds printable append hkey (ih x hx (level + 1) hvalue)
      obtain ⟨hfirst, hothers⟩ := List.forall_mem_cons.mp hentry
      rw [write_object]
      exact enclosed_holds printable append lineBreak rfl rfl hfirst
        (flatMap_holds printable append fun x hx => hbehind _ (hothers x hx))

end Written

end Node

/-! ## Plain bytes -/

/-- No byte is a control byte. -/
def Bytes.IsPlain (text : Bytes) : Prop := ∀ b ∈ text, Byte.space ≤ b

-- Named, for a search also offers a run over all two hundred and fifty-six bytes.
instance (text : Bytes) : Decidable text.IsPlain :=
  List.decidableBAll (Byte.space ≤ ·) text

namespace Bytes

variable {a b text : Bytes}

theorem isPlain_append : IsPlain (a ++ b) ↔ IsPlain a ∧ IsPlain b := List.forall_mem_append

theorem isPlain_of_printable (h : text.all isPrintable = true) : IsPlain text := by
  intro b hb
  have hb := List.all_eq_true.mp h b hb
  simp only [isPrintable, Bool.and_eq_true, decide_eq_true_eq] at hb
  exact hb.1

theorem IsPlain.lineFeed_not_mem (h : IsPlain text) : Byte.lineFeed ∉ text :=
  fun hmem => absurd (h _ hmem) (by decide)

end Bytes

open Bytes

theorem isPlain_jsonEscape : ∀ b, IsPlain (jsonEscape b) := by
  exact Byte.forall_of_lt (by decide +kernel)

theorem isPlain_jsonString (text : Bytes) : IsPlain (jsonString text) := by
  have hescaped : IsPlain (text.flatMap jsonEscape) := by
    intro b hb
    obtain ⟨c, -, hb⟩ := List.mem_flatMap.mp hb
    exact isPlain_jsonEscape c b hb
  rw [jsonString, isPlain_append, isPlain_append]
  exact ⟨⟨by decide, hescaped⟩, by decide⟩

theorem Node.isPlain_text (n : Node) : IsPlain n.text := by
  have hbreak (level : Nat) : IsPlain (Layout.compact.lineBreak level) := List.forall_mem_nil _
  exact write_holds (fun _ => isPlain_of_printable) (fun _ _ ha hb => isPlain_append.mpr ⟨ha, hb⟩)
    hbreak 0 fun text _ => isPlain_jsonString text

end ShapeTraits
