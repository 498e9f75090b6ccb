-- Which tokens a text is spelled as, whatever stands around it: a token by what
-- the scanner finds, and texts behind one another by their parts.
import ShapeTraits.Token.Lexer

namespace ShapeTraits

/-! ## What comes next -/

/-- The next byte, if there is one, is not bad. -/
def Bytes.Avoids (bad : UInt8 → Bool) (text : Bytes) : Prop :=
  ∀ b, text.head? = some b → bad b = false

namespace Bytes

variable {bad worse : UInt8 → Bool} {b : UInt8} {text rest : Bytes}

theorem avoids_nil : Avoids bad [] := fun _ h => nomatch h

theorem avoids_cons (h : bad b = false) : Avoids bad (b :: rest) := by
  intro c hc
  rw [List.head?_cons, Option.some.injEq] at hc
  exact hc ▸ h

theorem Avoids.head (h : Avoids bad (b :: rest)) : bad b = false := h b rfl

theorem Avoids.imp (h : Avoids worse text) (hbad : ∀ b, worse b = false → bad b = false) :
    Avoids bad text :=
  fun b hb => hbad b (h b hb)

theorem Avoids.takeWhile_eq (h : Avoids bad rest) : rest.takeWhile bad = [] := by
  cases rest with
  | nil => rfl
  | cons b rest => exact List.takeWhile_cons_of_neg (Bool.eq_false_iff.mp h.head)

theorem avoids_of_takeWhile (h : rest.takeWhile bad = []) : Avoids bad rest := by
  intro b hb
  obtain ⟨behind, rfl⟩ := List.head?_eq_some_iff.mp hb
  cases hbad : bad b with
  | false => rfl
  | true =>
    rw [List.takeWhile_cons_of_pos hbad] at h
    cases h

/-- What is taken from a text of good bytes stops where the text does. -/
theorem Avoids.takeWhile_append (h : Avoids bad rest) (ht : ∀ b ∈ text, bad b = true) :
    (text ++ rest).takeWhile bad = text := by
  rw [List.takeWhile_append_of_pos ht, h.takeWhile_eq, List.append_nil]

/-- What is taken from a text does not change by text behind it that nothing is taken
from. -/
theorem Avoids.takeWhile_append_eq (h : Avoids bad rest) (text : Bytes) :
    (text ++ rest).takeWhile bad = text.takeWhile bad := by
  induction text with
  | nil => exact h.takeWhile_eq
  | cons b text ih => rw [List.cons_append, List.takeWhile_cons, List.takeWhile_cons, ih]

end Bytes

/-! ## Spellings -/

/-- Wherever a text stands before a byte that is not bad, the tokens there begin
with some that have a property, none of them an error, and go on behind the text. -/
def Spells (text : Bytes) (bad : UInt8 → Bool) (P : List Token → Prop) : Prop :=
  ∀ l rest, l.ahead = text ++ rest → Bytes.Avoids bad rest →
    ∃ w k, Lexer.tokens l = w ++ Lexer.tokens k ∧ k.ahead = rest ∧
      (∀ t ∈ w, t.error? = none) ∧ P w

namespace Spells

variable {a b text : Bytes} {bad worse : UInt8 → Bool} {P Q R : List Token → Prop}

theorem nil (bad : UInt8 → Bool) (h : P []) : Spells [] bad P :=
  fun l _ hl _ => ⟨[], l, rfl, hl, List.forall_mem_nil _, h⟩

theorem imp (h : Spells text bad P) (hbad : ∀ b, bad b = true → worse b = true)
    (hpq : ∀ w, P w → Q w) : Spells text worse Q := by
  intro l rest hl hrest
  have hrest' : Bytes.Avoids bad rest := hrest.imp fun b hb =>
    Bool.eq_false_iff.mpr fun hb' => Bool.eq_false_iff.mp hb (hbad b hb')
  obtain ⟨w, k, htokens, hk, herror, hw⟩ := h l rest hl hrest'
  exact ⟨w, k, htokens, hk, herror, hpq w hw⟩

/-- One text behind another is spelled as the tokens of both, if the second does
not begin with a byte that changes the first. -/
theorem append (ha : Spells a bad P) (hb : Spells b worse Q)
    (hnext : ∀ rest, Bytes.Avoids worse rest → Bytes.Avoids bad (b ++ rest))
    (hR : ∀ x y, P x → Q y → R (x ++ y)) : Spells (a ++ b) worse R := by
  intro l rest hl hrest
  rw [List.append_assoc] at hl
  obtain ⟨x, k, hx, hk, hxerror, hP⟩ := ha l _ hl (hnext rest hrest)
  obtain ⟨y, j, hy, hj, hyerror, hQ⟩ := hb k rest hk hrest
  refine ⟨x ++ y, j, by rw [hx, hy, List.append_assoc], hj, ?_, hR x y hP hQ⟩
  exact fun t ht => (List.mem_append.mp ht).elim (hxerror t) (hyerror t)

/-- One token of a content. -/
def One (content : Token.Content) (text : Bytes) (w : List Token) : Prop :=
  ∃ t : Token, w = [t] ∧ t.content = content ∧ t.lexeme = text

/-- A text that the scanner takes as a whole is one token. -/
theorem token {content : Token.Content} (hne : text ≠ [])
    (hnext : ∀ rest, Bytes.Avoids bad rest → Scan.next (text ++ rest) = ⟨content, text.length⟩)
    (hcontent : content.fault? = none) :
    Spells text bad (One content text) := by
  intro l rest hl hrest
  have hscan : Scan.next l.ahead = ⟨content, text.length⟩ := by rw [hl, hnext rest hrest]
  have hahead : l.ahead ≠ [] := by
    rw [hl]
    exact List.append_ne_nil_of_left_ne_nil hne rest
  have htoken : l.token.content = content := congrArg Scan.content hscan
  have hlexeme : l.lexeme = text := by
    rw [Lexer.lexeme, hscan, hl]
    exact List.take_left
  refine ⟨[l.token], l.rest, ?_, ?_, ?_, l.token, rfl, htoken, hlexeme⟩
  · rw [Lexer.tokens, if_neg hahead]
    rfl
  · have hdrop : l.rest.ahead = l.ahead.drop (Scan.next l.ahead).width := rfl
    rw [hdrop, hscan, hl]
    exact List.drop_left
  · intro t ht
    rw [List.mem_singleton.mp ht, Token.error?, htoken, hcontent]
    rfl

/-- The tokens of a whole document are those of its text, and the end; none of them is
an error. -/
theorem document (h : Spells text bad P) (file : Bytes) :
    ∃ w eof, (Source.mk file text).tokens = w ++ [eof] ∧ eof.kind = .eof ∧
      lexicalErrors (Source.mk file text).tokens = [] ∧ P w := by
  obtain ⟨w, k, htokens, hk, herror, hw⟩ :=
    h (.ofSource ⟨file, text⟩) [] (List.append_nil text).symm Bytes.avoids_nil
  have hcontent : k.token.content = .eof := congrArg Scan.content (congrArg Scan.next hk)
  have hall : (Source.mk file text).tokens = w ++ [k.token] := by
    rw [Source.tokens, htokens, Lexer.tokens, if_pos hk]
  refine ⟨w, k.token, hall, congrArg Token.Content.kind hcontent, ?_, hw⟩
  rw [hall, lexicalErrors, List.filterMap_eq_nil_iff, List.forall_mem_append]
  refine ⟨herror, List.forall_mem_singleton.mpr ?_⟩
  rw [Token.error?, hcontent]
  rfl

end Spells

/-! ## Blanks, signs and names -/

/-- What can be tried on the bytes one after another holds of every byte. -/
theorem Byte.forall_of_lt {p : UInt8 → Prop} (h : ∀ n < 256, p (UInt8.ofNat n)) (b : UInt8) : p b :=
  UInt8.ofNat_toNat (x := b) ▸ h b.toNat b.toNat_lt

namespace Spells

/-- No byte changes what stands before it. -/
def anything (_ : UInt8) : Bool := false

theorem avoids_anything (text : Bytes) : Bytes.Avoids anything text := fun _ _ => rfl

theorem comma : Spells [Byte.comma] anything (One .comma [Byte.comma]) :=
  token (List.cons_ne_nil _ _) (fun _ _ => rfl) rfl

theorem newline : Spells [Byte.lineFeed] anything (One .newline [Byte.lineFeed]) :=
  token (List.cons_ne_nil _ _) (fun _ _ => rfl) rfl

theorem colon : Spells [Byte.colon] (· == Byte.equals) (One .colon [Byte.colon]) := by
  refine token (List.cons_ne_nil _ _) (fun rest hrest => ?_) rfl
  have hsign : Scan.next ([Byte.colon] ++ rest) = Scan.sign Byte.colon rest := rfl
  rw [hsign, Scan.sign, if_neg]
  · rfl
  · intro h
    exact absurd (hrest _ h.2) (by decide)

/-- A bracket or brace is a token by itself. -/
theorem bracket {b : UInt8} (hb : b ∈ [0x5b, 0x5d, 0x7b, 0x7d]) :
    Spells [b] anything (One (Scan.signContent b) [b]) := by
  simp only [List.mem_cons, List.not_mem_nil, or_false] at hb
  rcases hb with rfl | rfl | rfl | rfl
  all_goals exact token (List.cons_ne_nil _ _) (fun _ _ => rfl) rfl

theorem blanks (count : Nat) : Spells (List.replicate (count + 1) Byte.space) Byte.isBlank
    (One .space (List.replicate (count + 1) Byte.space)) := by
  refine token (by simp) (fun rest hrest => ?_) rfl
  have hblank : ∀ b ∈ List.replicate count Byte.space, Byte.isBlank b = true := by
    intro b hb
    rw [List.eq_of_mem_replicate hb]
    rfl
  have htake := hrest.takeWhile_append hblank
  have hnext : Scan.next (List.replicate (count + 1) Byte.space ++ rest) =
      ⟨.space, 1 + ((List.replicate count Byte.space ++ rest).takeWhile Byte.isBlank).length⟩ := rfl
  rw [hnext, htake, List.length_replicate, List.length_replicate, Nat.add_comm]

theorem starts_no_other_token : ∀ b : UInt8, Byte.isIdentifierStart b = true →
    Byte.isBlank b = false ∧ b ≠ Byte.lineFeed ∧ b ≠ Byte.carriageReturn ∧ b ≠ Byte.comma ∧
      b ≠ Byte.slash := by
  exact Byte.forall_of_lt (by decide +kernel)

theorem name {b : UInt8} {more : Bytes} (hb : Byte.isIdentifierStart b = true)
    (hmore : ∀ c ∈ more, Byte.isIdentifierContinue c = true) :
    Spells (b :: more) Byte.isIdentifierContinue (One .identifier (b :: more)) := by
  refine token (List.cons_ne_nil _ _) (fun rest hrest => ?_) rfl
  obtain ⟨hblank, hfeed, hreturn, hcomma, hslash⟩ := starts_no_other_token b hb
  have hnext : Scan.next (b :: more ++ rest) = Scan.token b (more ++ rest) := rfl
  rw [hnext, Scan.token]
  simp only [hblank, hfeed, hreturn, hcomma, hslash, hb, false_and, if_false, if_true,
    Bool.false_eq_true]
  rw [hrest.takeWhile_append hmore, List.length_cons, Nat.add_comm]

end Spells

end ShapeTraits
