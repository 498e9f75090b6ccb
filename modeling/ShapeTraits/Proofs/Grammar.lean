-- The grammar of the document language, over tokens. Each relation says which
-- tokens stand for a value, a trait or a statement, and which names they leave
-- for later; none of them says how such tokens are read.
import ShapeTraits.Apply
import ShapeTraits.Proofs.NodeShape

namespace ShapeTraits

/-- The kinds of tokens that go on with an id. -/
def Token.Kind.joinsId : Token.Kind → Bool
  | .dot | .pound | .dollar => true
  | _ => false

/-- The kinds of tokens that go on with a trait that has no value yet. -/
def Token.Kind.joinsTrait (k : Token.Kind) : Bool := k.joinsId || k == .leftParen

namespace Grammar

/-! ## Gaps and repetitions -/

/-- Only trivia. -/
def Trivia (w : List Token) : Prop := ∀ t ∈ w, t.kind.isTrivia = true

/-- Only trivia and documentation. -/
def Gap (w : List Token) : Prop := ∀ t ∈ w, t.kind.isGap = true

theorem Trivia.nil : Trivia [] := List.forall_mem_nil _

theorem Gap.nil : Gap [] := List.forall_mem_nil _

theorem Gap.append {g h : List Token} (hg : Gap g) (hh : Gap h) : Gap (g ++ h) :=
  fun t ht => (List.mem_append.mp ht).elim (hg t) (hh t)

/-- What some tokens stand for, with the names they leave for later. -/
abbrev Form (α : Type) := List Token → α → List Reference → Prop

/-- Any number of things, with a gap behind each. -/
inductive Many {α : Type} (P : Form α) : Form (List α)
  | nil : Many P [] [] []
  | cons {v g w a as refs later} (first : P v a refs) (gap : Gap g) (rest : Many P w as later) :
      Many P (v ++ g ++ w) (a :: as) (refs ++ later)

/-! ## Ids -/

/-- The names behind dots, each with its dot. -/
inductive Segments : List Token → Bytes → Prop
  | nil : Segments [] []
  | cons {dot name w text} (sign : dot.kind = .dot) (isName : name.kind = .identifier)
      (rest : Segments w text) : Segments (dot :: name :: w) (utf8 "." ++ name.lexeme ++ text)

/-- A sign and a name, or nothing. -/
inductive Part (kind : Token.Kind) (sign : Bytes) : List Token → Bytes → Prop
  | absent : Part kind sign [] []
  | present {mark name} (isSign : mark.kind = kind) (isName : name.kind = .identifier) :
      Part kind sign [mark, name] (sign ++ name.lexeme)

/-- An id and its text, without any gaps. -/
inductive Id : List Token → Bytes → Prop
  | mk {first w x y a b d} (isName : first.kind = .identifier) (segments : Segments w a)
      (shape : Part .pound (utf8 "#") x b) (member : Part .dollar (utf8 "$") y d) :
      Id (first :: (w ++ x ++ y)) (first.lexeme ++ a ++ b ++ d)

/-- A name alone is an id. -/
theorem Id.single {t : Token} (h : t.kind = .identifier) : Id [t] t.lexeme := by
  simpa using Id.mk h .nil .absent .absent

/-- The names that are values. -/
def keywords : List Bytes := [utf8 "true", utf8 "false", utf8 "null"]

/-- What an id stands for: a keyword for its value, any other for its text. -/
def meaning (id : Bytes) (l : Location) : Node :=
  if id = utf8 "true" then .boolean l true
  else if id = utf8 "false" then .boolean l false
  else if id = utf8 "null" then .null l
  else .string l id

/-- The names that an id leaves for later: itself, unless it is a keyword. -/
def leaves (id : Bytes) (l : Location) : List Reference :=
  if id ∈ keywords then [] else [⟨id, l⟩]

/-! ## Values -/

/-- A name or a string as a key. -/
inductive Key : Token → Bytes → Prop
  | name {t} (isName : t.content = .identifier) : Key t t.lexeme
  | string {t text} (isString : t.content = .string text) : Key t text

/-- A key, a colon and a value. -/
inductive Member (V : Form Node) : Form (Entry Node)
  | mk {k colon g h v key n refs} (isKey : Key k key) (before : Gap g)
      (isColon : colon.kind = .colon) (behind : Gap h) (value : V v n refs) :
      Member V (k :: (g ++ colon :: (h ++ v))) ⟨key, k.start, n⟩ refs

/-- A value: a string, a text block, a number, an id, an object or an array. -/
inductive Value : Form Node
  | string {t text} (isString : t.content = .string text) : Value [t] (.string t.start text) []
  | textBlock {t text} (isBlock : t.content = .textBlock text) :
      Value [t] (.string t.start text) []
  | number {t value} (isNumber : t.content = .number value) : Value [t] (.number t.start value) []
  | id {t w text} (isId : Id (t :: w) text) :
      Value (t :: w) (meaning text t.start) (leaves text t.start)
  | object {l r g w entries refs} (opens : l.kind = .leftBrace) (gap : Gap g)
      (members : Many (Member Value) w entries refs) (closes : r.kind = .rightBrace) :
      Value (l :: (g ++ w ++ [r])) (.object l.start ⟨entries⟩) refs
  | array {l r g w items refs} (opens : l.kind = .leftBracket) (gap : Gap g)
      (values : Many Value w items refs) (closes : r.kind = .rightBracket) :
      Value (l :: (g ++ w ++ [r])) (.array l.start items) refs

/-! ## Traits -/

/-- What stands between the parentheses of a trait at a location: a value, of
names only a single one, or the members of an object. -/
inductive Body (location : Location) : Form Node
  | object {l w n refs} (opens : l.kind = .leftBrace) (value : Value (l :: w) n refs) :
      Body location (l :: w) n refs
  | array {l w n refs} (opens : l.kind = .leftBracket) (value : Value (l :: w) n refs) :
      Body location (l :: w) n refs
  | textBlock {t text} (isBlock : t.content = .textBlock text) :
      Body location [t] (.string location text) []
  | number {t value} (isNumber : t.content = .number value) :
      Body location [t] (.number location value) []
  | string {t text} (isString : t.content = .string text) :
      Body location [t] (.string location text) []
  | name {t} (isName : t.content = .identifier) :
      Body location [t] (meaning t.lexeme location) (leaves t.lexeme location)
  | members {w e entries refs} (members : Many (Member Value) w (e :: entries) refs) :
      Body location w (.object e.keyLocation ⟨e :: entries⟩) refs

/-- A trait: its name alone, or directly before parentheses. -/
inductive Trait : Form ShapeTraits.Trait
  | bare {sign w name} (isSign : sign.kind = .at) (isId : Id w name) :
      Trait (sign :: w) ⟨name, .null sign.start, .bare, sign.start⟩ []
  | empty {sign w name l g r} (isSign : sign.kind = .at) (isId : Id w name)
      (opens : l.kind = .leftParen) (gap : Gap g) (closes : r.kind = .rightParen) :
      Trait (sign :: (w ++ l :: (g ++ [r]))) ⟨name, .null sign.start, .bare, sign.start⟩ []
  | value {sign w name l g b h r n refs} (isSign : sign.kind = .at) (isId : Id w name)
      (opens : l.kind = .leftParen) (gap : Gap g) (body : Body sign.start b n refs) (behind : Gap h)
      (closes : r.kind = .rightParen) :
      Trait (sign :: (w ++ l :: (g ++ b ++ h ++ [r]))) ⟨name, n, .value, sign.start⟩ refs

/-! ## Statements -/

/-- The traits of a statement: one, or any number between braces. -/
inductive Traits : Form (List ShapeTraits.Trait)
  | one {w t refs} (trait : Trait w t refs) : Traits w [t] refs
  | block {l g w r ts refs} (opens : l.kind = .leftBrace) (gap : Gap g)
      (traits : Many Trait w ts refs) (closes : r.kind = .rightBrace) :
      Traits (l :: (g ++ w ++ [r])) ts refs

/-- A statement: its keyword, a blank or line break, its target and its traits. -/
inductive Statement : Form Apply
  | mk {first blank g w h ts target traits refs} (isName : first.content = .identifier)
      (isKeyword : first.lexeme = Apply.keyword)
      (isBlank : blank.kind = .space ∨ blank.kind = .newline) (before : Trivia g)
      (isId : Id w target) (behind : Trivia h) (isTraits : Traits ts traits refs) :
      Statement (first :: blank :: (g ++ w ++ h ++ ts)) ⟨target, first.start, traits⟩ refs

/-- A document: statements with gaps around them, up to the end. -/
inductive Document : Form (List Apply)
  | mk {g w eof statements refs} (gap : Gap g) (isStatements : Many Statement w statements refs)
      (isEnd : eof.kind = .eof) : Document (g ++ w ++ [eof]) statements refs

/-! ## Repetitions -/

section Repetitions

variable {α : Type} {P Q : Form α} {w : List Token} {as : List α} {refs : List Reference}

theorem Many.imp (h : Many P w as refs) (hpq : ∀ v a r, P v a r → Q v a r) : Many Q w as refs := by
  induction h with
  | nil => exact .nil
  | cons first gap _ ih => exact .cons (hpq _ _ _ first) gap ih

theorem Many.forall (h : Many P w as refs) {p : α → Prop} (hp : ∀ v a r, P v a r → p a) :
    ∀ a ∈ as, p a := by
  induction h with
  | nil => exact fun _ ha => absurd ha List.not_mem_nil
  | cons first _ _ ih => exact List.forall_mem_cons.mpr ⟨hp _ _ _ first, ih⟩

/-- A property that each thing has goes into the form. -/
theorem Many.withProperty (h : Many P w as refs) {p : α → Prop} (hp : ∀ a ∈ as, p a) :
    Many (fun v a r => P v a r ∧ p a) w as refs := by
  induction h with
  | nil => exact .nil
  | cons first gap _ ih =>
    obtain ⟨ha, has⟩ := List.forall_mem_cons.mp hp
    exact .cons ⟨first, ha⟩ gap (ih has)

theorem Member.imp {V W : Form Node} {e : Entry Node} (h : Member V w e refs)
    (hvw : ∀ v n r, V v n r → W v n r) : Member W w e refs := by
  cases h with
  | mk isKey before isColon behind value => exact .mk isKey before isColon behind (hvw _ _ _ value)

end Repetitions

/-! ## Induction over values -/

/-- What holds of every text, number and id, and of every object and array when it
holds of the values inside, holds of every value. -/
theorem Value.byParts {motive : Form Node}
    (string : ∀ {t text}, t.content = .string text → motive [t] (.string t.start text) [])
    (textBlock : ∀ {t text}, t.content = .textBlock text → motive [t] (.string t.start text) [])
    (number : ∀ {t value}, t.content = .number value → motive [t] (.number t.start value) [])
    (id : ∀ {t w text}, Id (t :: w) text →
      motive (t :: w) (meaning text t.start) (leaves text t.start))
    (object : ∀ {l r g w entries refs}, l.kind = .leftBrace → Gap g →
      Many (Member motive) w entries refs → r.kind = .rightBrace →
      motive (l :: (g ++ w ++ [r])) (.object l.start ⟨entries⟩) refs)
    (array : ∀ {l r g w items refs}, l.kind = .leftBracket → Gap g → Many motive w items refs →
      r.kind = .rightBracket → motive (l :: (g ++ w ++ [r])) (.array l.start items) refs)
    {w : List Token} {n : Node} {refs : List Reference} (h : Value w n refs) : motive w n refs :=
  @Value.rec (fun w n refs _ => motive w n refs) (fun w es refs _ => Many (Member motive) w es refs)
    (fun w ns refs _ => Many motive w ns refs) (fun w e refs _ => Member motive w e refs)
    string textBlock number id (fun opens gap _ closes ih => object opens gap ih closes)
    (fun opens gap _ closes ih => array opens gap ih closes)
    .nil (fun _ gap _ first rest => .cons first gap rest)
    .nil (fun _ gap _ first rest => .cons first gap rest)
    (fun isKey before isColon behind _ ih => .mk isKey before isColon behind ih) w n refs h

/-! ## Values that fit -/

/-- The values without equal keys that are not deeper than so many levels. -/
def ValueWithin (levels : Nat) : Form Node := fun w n refs => Value w n refs ∧ n.Fits levels

section Within

variable {levels : Nat} {w : List Token} {refs : List Reference}

theorem many_valueWithin {items : List Node} : Many (ValueWithin levels) w items refs ↔
    Many Value w items refs ∧ ∀ n ∈ items, n.Fits levels :=
  ⟨fun h => ⟨h.imp fun _ _ _ hv => hv.1, h.forall fun _ _ _ hv => hv.2⟩,
    fun h => h.1.withProperty h.2⟩

theorem many_memberWithin {entries : List (Entry Node)} :
    Many (Member (ValueWithin levels)) w entries refs ↔
      Many (Member Value) w entries refs ∧ ∀ e ∈ entries, e.value.Fits levels := by
  constructor
  · intro h
    refine ⟨h.imp fun _ _ _ he => he.imp fun _ _ _ hv => hv.1, h.forall fun _ _ _ he => ?_⟩
    cases he with
    | mk _ _ _ _ value => exact value.2
  · rintro ⟨h, hfits⟩
    refine (h.withProperty hfits).imp fun _ _ _ he => ?_
    obtain ⟨hmember, hfit⟩ := he
    cases hmember with
    | mk isKey before isColon behind value => exact .mk isKey before isColon behind ⟨value, hfit⟩

end Within

end Grammar

end ShapeTraits
