-- What is read from a valid document is valid UTF-8: every string and every key of a
-- value, the names and values of traits, the targets of statements, and the JSON text of
-- them all.
import ShapeTraits.Proofs.DocumentReading
import ShapeTraits.Proofs.PlainText
import ShapeTraits.Proofs.StatementRecords
import ShapeTraits.Proofs.Utf8

namespace ShapeTraits

open Bytes
open Byte (isAscii isPrintable)

/-! ## The text of values -/

theorem isUtf8_of_printable {text : Bytes} (h : text.all isPrintable = true) : IsUtf8 text := by
  refine isUtf8_of_ascii (List.all_eq_true.mpr fun b hb => ?_)
  have hprintable : isPrintable b = true := List.all_eq_true.mp h b hb
  exact (Bool.and_eq_true_iff.mp hprintable).2

/-- Only ASCII bytes are escaped. -/
theorem jsonEscape_bytes : ∀ b, jsonEscape b = [b] ∨
    isAscii b = true ∧ (jsonEscape b).all isAscii = true := by
  exact Byte.forall_of_lt (by decide +kernel)

theorem jsonString_isUtf8 {text : Bytes} (h : IsUtf8 text) : IsUtf8 (jsonString text) := by
  have hescaped (before : Bytes) (hbefore : IsUtf8 (before ++ text)) :
      IsUtf8 (before ++ text.flatMap jsonEscape) := by
    clear h
    -- `before` holds the start of a character that is not escaped.
    induction text generalizing before with
    | nil => exact hbefore
    | cons b text ih =>
      rw [List.flatMap_cons]
      rcases jsonEscape_bytes b with hplain | ⟨hb, hescape⟩
      · rw [hplain, ← List.append_assoc]
        exact ih (before ++ [b]) (by simpa using hbefore)
      · obtain ⟨hstart, hrest⟩ := hbefore.split hb
        exact hstart.append ((isUtf8_of_ascii hescape).append (ih [] hrest))
  have hquote : IsUtf8 [Byte.quote] := isUtf8_of_ascii rfl
  exact (hquote.append (hescaped [] h)).append hquote

theorem lineBreak_isUtf8 (layout : Layout) (level : Nat) : IsUtf8 (layout.lineBreak level) := by
  cases layout with
  | compact => exact isUtf8_nil
  | indented width =>
    have hspaces : (List.replicate (width * level) Byte.space).all isAscii = true := by
      rw [List.all_replicate]
      exact ite_eq_left_iff.mpr fun _ => rfl
    exact isUtf8_of_ascii hspaces

namespace Node

/-- Every string and key of a value is valid UTF-8. -/
def IsUtf8 (n : Node) : Prop := ∀ text ∈ n.strings, Bytes.IsUtf8 text

theorem write_isUtf8 {n : Node} (h : n.IsUtf8) (layout : Layout) (level : Nat) :
    Bytes.IsUtf8 (n.write layout level) :=
  write_holds (fun _ => isUtf8_of_printable)
    (fun _ _ ha hb => ha.append hb) (lineBreak_isUtf8 layout) level fun text htext =>
      jsonString_isUtf8 (h text htext)

theorem isUtf8_of_none {n : Node} (h : n.strings = []) : n.IsUtf8 := by
  unfold IsUtf8
  rw [h]
  exact List.forall_mem_nil _

theorem isUtf8_string {l : Location} {text : Bytes} (h : Bytes.IsUtf8 text) :
    (string l text).IsUtf8 :=
  List.forall_mem_singleton.mpr h

theorem isUtf8_array {l : Location} {items : List Node} :
    (array l items).IsUtf8 ↔ ∀ n ∈ items, n.IsUtf8 := by
  unfold IsUtf8
  rw [strings_array, List.forall_mem_flatMap]

end Node

/-- The key of a member is valid UTF-8, and so is its value. -/
def Entry.IsUtf8 (e : Entry Node) : Prop := Bytes.IsUtf8 e.key ∧ e.value.IsUtf8

/-- All members are valid UTF-8. -/
def KeyedList.IsUtf8 (members : KeyedList Node) : Prop := ∀ e ∈ members.entries, e.IsUtf8

theorem Node.isUtf8_object {l : Location} {members : KeyedList Node} :
    (object l members).IsUtf8 ↔ members.IsUtf8 := by
  unfold IsUtf8
  rw [strings_object, List.forall_mem_flatMap]
  exact forall₂_congr fun e _ => List.forall_mem_cons

namespace KeyedList

variable {members more : KeyedList Node} {key : Bytes} {l : Location} {value : Node}

theorem isUtf8_empty : (empty : KeyedList Node).IsUtf8 := List.forall_mem_nil _

theorem IsUtf8.insert (hmembers : members.IsUtf8) (hkey : Bytes.IsUtf8 key) (hvalue : value.IsUtf8)
    (h : members.insert? key l value = some more) : more.IsUtf8 := by
  obtain ⟨-, rfl⟩ := insert?_eq_some.mp h
  exact List.forall_mem_append.mpr ⟨hmembers, List.forall_mem_singleton.mpr ⟨hkey, hvalue⟩⟩

theorem IsUtf8.insertNew (hmembers : members.IsUtf8) (hkey : Bytes.IsUtf8 key)
    (hvalue : value.IsUtf8) :
    (members.insertNew key l value).IsUtf8 := by
  unfold KeyedList.insertNew
  cases h : members.insert? key l value with
  | none => exact hmembers
  | some more => exact hmembers.insert hkey hvalue h

end KeyedList

/-! ## Statements as values -/

theorem Node.IsUtf8.copy {n : Node} (h : n.IsUtf8) : n.copy.IsUtf8 := by
  induction n with
  | array l items ih =>
    have hitems : ∀ n ∈ items, n.IsUtf8 := isUtf8_array.mp h
    rw [Node.copy, isUtf8_array]
    clear h
    induction items with
    | nil => exact List.forall_mem_nil _
    | cons n items ihitems =>
      rw [List.forall_mem_cons] at ih hitems
      rw [copyItems, List.forall_mem_cons]
      exact ⟨ih.1 hitems.1, ihitems ih.2 hitems.2⟩
  | object l entries ih =>
    have hentries : ∀ e ∈ entries, e.IsUtf8 := isUtf8_object.mp h
    rw [Node.copy, isUtf8_object]
    clear h
    -- The members copied so far are valid.
    have hcopied (copied : KeyedList Node) (hcopied : copied.IsUtf8) :
        (copyMembers entries copied).IsUtf8 := by
      induction entries generalizing copied with
      | nil => exact hcopied
      | cons e entries ihentries =>
        rw [List.forall_mem_cons] at ih hentries
        rw [copyMembers]
        exact ihentries ih.2 hentries.2 _ (hcopied.insertNew hentries.1.1 (ih.1 hentries.1.2))
    exact hcopied .empty KeyedList.isUtf8_empty
  | _ => exact h

/-- The name and the value of a trait are valid UTF-8. -/
def Trait.IsUtf8 (t : Trait) : Prop := Bytes.IsUtf8 t.name ∧ t.value.IsUtf8

/-- The target and the traits of a statement are valid UTF-8. -/
def Apply.IsUtf8 (s : Apply) : Prop := Bytes.IsUtf8 s.target ∧ ∀ t ∈ s.traits, t.IsUtf8

namespace Apply

theorem field_isUtf8 {members : KeyedList Node} (hmembers : members.IsUtf8) (key : String)
    {value : Node} (hvalue : value.IsUtf8) : (field (utf8 key) value members).IsUtf8 :=
  hmembers.insertNew (isUtf8_utf8 key) hvalue

theorem traitNode_isUtf8 {t : Trait} (h : t.IsUtf8) : (traitNode t).IsUtf8 := by
  have hkind : Bytes.IsUtf8 t.kind.text := by
    cases t.kind <;> exact isUtf8_utf8 _
  have hname :=
    field_isUtf8 KeyedList.isUtf8_empty "name" (Node.isUtf8_string (l := t.location) h.1)
  unfold traitNode
  rw [Node.isUtf8_object]
  exact field_isUtf8 (field_isUtf8 hname "kind" (Node.isUtf8_string hkind)) "value" h.2.copy

theorem toNode_isUtf8 {s : Apply} (h : s.IsUtf8) : s.toNode.IsUtf8 := by
  have htraits : (Node.array s.location (s.traits.map traitNode)).IsUtf8 := by
    rw [Node.isUtf8_array, List.forall_mem_map]
    exact fun t ht => traitNode_isUtf8 (h.2 t ht)
  unfold toNode
  rw [Node.isUtf8_object]
  exact field_isUtf8 (field_isUtf8 KeyedList.isUtf8_empty "target" (Node.isUtf8_string h.1))
    "traits" htraits

end Apply

/-! ## Cursors over a document -/

/-- The tokens ahead are some of a document, but for the end that is added to tokens
without one, and the documentation that waits is from there. -/
structure Cursor.IsOver (s : Source) (c : Cursor) : Prop where
  ahead : ∀ t ∈ c.ahead, t ∈ s.tokens ∨ t = .missingEof
  docs : ∀ line ∈ c.docs, ∃ t ∈ s.tokens, t.content = .docComment line

namespace Cursor

variable {s : Source} {c : Cursor}

theorem isOver_ofTokens {tokens : List Token} (h : tokens ⊆ s.tokens) (limit : Nat) :
    (ofTokens tokens limit).IsOver s := by
  constructor
  · intro t ht
    unfold ofTokens at ht
    dsimp only at ht
    split at ht
    · exact .inl (h ht)
    · rcases List.mem_append.mp ht with ht | ht
      · exact .inl (h ht)
      · exact .inr (List.mem_singleton.mp ht)
  · exact List.forall_mem_nil _

theorem IsOver.current (h : c.IsOver s) : c.current ∈ s.tokens ∨ c.current = .missingEof := by
  unfold Cursor.current
  cases ha : c.ahead with
  | nil => exact .inr rfl
  | cons t rest => exact h.ahead t (by simp [ha])

theorem IsOver.dropDocs (h : c.IsOver s) (l : Location) : (c.dropDocs l).IsOver s := by
  unfold Cursor.dropDocs
  split
  · exact h
  · exact ⟨h.ahead, List.forall_mem_nil _⟩

theorem IsOver.take (h : c.IsOver s) {t : Token} (ht : t ∈ s.tokens) : (c.take t).IsOver s := by
  unfold Cursor.take
  split
  · next line hcontent =>
    refine ⟨h.ahead, List.forall_mem_append.mpr ⟨h.docs, ?_⟩⟩
    exact List.forall_mem_singleton.mpr ⟨t, ht, hcontent⟩
  · split
    · exact h
    · exact h.dropDocs t.start

theorem IsOver.advance (h : c.IsOver s) : c.advance.IsOver s := by
  unfold Cursor.advance
  split
  · exact h
  · next t rest ha =>
    split
    · exact h
    · next hend =>
      have ht : t ∈ s.tokens :=
        (h.ahead t (by simp [ha])).resolve_right fun hmissing => hend (by rw [hmissing]; rfl)
      exact ⟨fun u hu => h.ahead u (by simp [ha, hu]), (h.take ht).docs⟩

theorem IsOver.skip (h : c.IsOver s) (among : Token.Kind → Bool) : (c.skip among).IsOver s := by
  fun_induction Cursor.skip among c with
  | case1 => exact h
  | case2 c _ _ ih => exact ih h.advance
  | case3 => exact h

theorem IsOver.takeDocs (h : c.IsOver s) : c.takeDocs.2.IsOver s := by
  unfold Cursor.takeDocs
  split
  · exact h
  · exact ⟨h.ahead, List.forall_mem_nil _⟩

end Cursor

/-! ## Readings -/

section Readings

variable {α β : Type} {s : Source}

/-- From any cursor over a document on, a reading leaves one, and what it answers has a
property. -/
def Yields (s : Source) (read : Reading α) (P : α → Prop) : Prop :=
  ∀ c, c.IsOver s → (read c).2.IsOver s ∧ ∀ a, (read c).1 = .ok a → P a

namespace Yields

variable {P : α → Prop} {Q : β → Prop}

protected theorem pure {a : α} (h : P a) : Yields s (pure a) P := by
  intro c hc
  refine ⟨hc, fun b hb => ?_⟩
  cases hb
  exact h

/-- An error is no answer. -/
theorem of_error {e : ParseError} (a : α) (h : Except.error e = .ok a) : P a := by
  cases h

theorem refuse (e : ParseError) : Yields s (Reading.refuse e) P := fun _ hc => ⟨hc, of_error⟩

theorem unexpected (kinds : List Token.Kind) : Yields s (Reading.unexpected kinds) P :=
  fun _ hc => ⟨hc, of_error⟩

theorem change {f : Cursor → Cursor} (hf : ∀ c, c.IsOver s → (f c).IsOver s) :
    Yields s (Reading.change f) fun _ => True :=
  fun c hc => ⟨hf c hc, fun _ _ => trivial⟩

theorem current : Yields s Reading.current fun t => t ∈ s.tokens ∨ t = .missingEof := by
  intro c hc
  refine ⟨hc, fun t ht => ?_⟩
  cases ht
  exact hc.current

theorem kind : Yields s Reading.kind fun _ => True := fun _ hc => ⟨hc, fun _ _ => trivial⟩

theorem location : Yields s Reading.location fun _ => True := fun _ hc => ⟨hc, fun _ _ => trivial⟩

theorem expect (kinds : List Token.Kind) : Yields s (Reading.expect kinds) fun _ => True := by
  intro c hc
  unfold Reading.expect
  split
  · exact ⟨hc, fun _ _ => trivial⟩
  · exact ⟨hc, fun _ _ => trivial⟩

theorem advance : Yields s Reading.advance fun _ => True := change fun _ hc => hc.advance

theorem skipGap : Yields s Reading.skipGap fun _ => True := change fun _ hc => hc.skip _

theorem skipTrivia : Yields s Reading.skipTrivia fun _ => True := change fun _ hc => hc.skip _

theorem note (e : Log.Event) : Yields s (Reading.note e) fun _ => True :=
  change fun _ hc => ⟨hc.ahead, hc.docs⟩

theorem imp {read : Reading α} {R : α → Prop} (h : Yields s read P) (hpr : ∀ a, P a → R a) :
    Yields s read R :=
  fun c hc => ⟨(h c hc).1, fun a ha => hpr a ((h c hc).2 a ha)⟩

/-! ## Steps made of steps -/

theorem bind {first : Reading α} {next : α → Reading β} (hfirst : Yields s first P)
    (hnext : ∀ a, P a → Yields s (next a) Q) : Yields s (first >>= next) Q := by
  intro c hc
  obtain ⟨hover, hanswer⟩ := hfirst c hc
  rw [Reading.bind_apply]
  rcases hread : first c with ⟨answer, d⟩
  rw [hread] at hover hanswer
  cases answer with
  | error e => exact ⟨hover, of_error⟩
  | ok a => exact hnext a (hanswer a rfl) d hover

theorem andAlways {read : Reading α} {f : Cursor → Cursor} (h : Yields s read P)
    (hf : ∀ c, c.IsOver s → (f c).IsOver s) : Yields s (read.andAlways f) P := by
  intro c hc
  obtain ⟨hover, hanswer⟩ := h c hc
  exact ⟨hf _ hover, hanswer⟩

theorem nested {read : Reading α} (h : Yields s read P) : Yields s (Reading.nested read) P := by
  intro c hc
  have henter : c.enter.IsOver s := ⟨hc.ahead, hc.docs⟩
  have hleave (d : Cursor) (hd : d.IsOver s) : d.leave.IsOver s := ⟨hd.ahead, hd.docs⟩
  unfold Reading.nested
  dsimp only
  split
  · exact ⟨hleave _ henter, of_error⟩
  · exact h.andAlways hleave c.enter henter

theorem untilKind {stop : Token.Kind → Bool} {step : α → Reading α}
    (hstep : ∀ a, P a → Yields s (step a) P)
    {a : α} (ha : P a) : Yields s (Reading.untilKind stop step a) P := by
  intro c hc
  induction hn : c.ahead.length using Nat.strongRecOn generalizing a c with
  | ind n ih =>
    subst hn
    by_cases hstop : stop c.kind = true
    · rw [Reading.untilKind_stop hstop]
      exact Yields.pure ha c hc
    obtain ⟨hover, hanswer⟩ := hstep a ha c hc
    rw [Reading.untilKind, if_neg hstop]
    rcases hread : step a c with ⟨answer, d⟩
    rw [hread] at hover hanswer
    cases answer with
    | error e => exact ⟨hover, of_error⟩
    | ok b =>
      dsimp only
      split
      · next hlt => exact ih _ hlt (hanswer b rfl) d hover rfl
      · exact Yields.pure (hanswer b rfl) d hover

theorem ite {p : Prop} [Decidable p] {yes no : Reading α} (hyes : Yields s yes P)
    (hno : Yields s no P) :
    Yields s (if p then yes else no) P := by
  by_cases h : p
  · rwa [if_pos h]
  · rwa [if_neg h]

theorem gather {read : Reading α} (h : Yields s read P) {as : List α} (has : ∀ a ∈ as, P a) :
    Yields s (Reading.gather read as) fun as => ∀ a ∈ as, P a :=
  h.bind fun _ ha => skipGap.bind fun _ _ =>
    Yields.pure (List.forall_mem_append.mpr ⟨has, List.forall_mem_singleton.mpr ha⟩)

/-! ## Reading a valid document -/

section Valid

variable (hvalid : Bytes.IsUtf8 s.content)

include hvalid

theorem meant {t : Token} (ht : t ∈ s.tokens ∨ t = .missingEof) {content : Token.Content}
    (hcontent : t.content = content) {said : Bytes} (hsaid : content.meant? t.lexeme = some said) :
    Bytes.IsUtf8 said := by
  subst hcontent
  rcases ht with ht | rfl
  · exact Source.meant_isUtf8 hvalid ht hsaid
  · cases hsaid

theorem takeDocs : Yields s Reading.takeDocs fun docs => ∀ text ∈ docs, Bytes.IsUtf8 text := by
  intro c hc
  refine ⟨hc.takeDocs, fun docs hdocs text htext => ?_⟩
  obtain rfl : c.takeDocs.1 = docs := Except.ok.inj hdocs
  by_cases hnone : c.docs = []
  · simp [Cursor.takeDocs, hnone] at htext
  · obtain rfl : joinWith [Byte.lineFeed] c.docs = text := by
      simpa [Cursor.takeDocs, hnone] using htext
    refine isUtf8_joinWith (isUtf8_of_ascii rfl) fun line hline => ?_
    obtain ⟨t, ht, hcontent⟩ := hc.docs line hline
    exact meant hvalid (.inl ht) hcontent rfl

omit hvalid in
theorem resolve {name : Bytes} (hname : Bytes.IsUtf8 name) (l : Location) :
    Yields s (Resolver.forward.resolve name l) Node.IsUtf8 := by
  intro c hc
  unfold Resolver.resolve
  dsimp only
  split
  · next value hkeyword =>
    refine ⟨hc, fun n hn => ?_⟩
    cases hn
    unfold Resolver.keyword? at hkeyword
    (repeat' split at hkeyword) <;> cases hkeyword
    all_goals exact Node.isUtf8_of_none rfl
  · refine ⟨⟨hc.ahead, hc.docs⟩, fun n hn => ?_⟩
    cases hn
    exact Node.isUtf8_string hname

/-- A name is the text of its token. -/
theorem name {id : Bytes} (hid : Bytes.IsUtf8 id) : Yields s (ShapeId.name id) Bytes.IsUtf8 := by
  intro c hc
  by_cases hk : c.kind = .identifier
  · have hcontent : c.current.content = .identifier := Token.kind_eq_identifier.mp hk
    have hread : ShapeId.name id c = (.ok (id ++ c.current.lexeme), c.advance) :=
      ShapeId.name_eq_ok.mpr ⟨hk, rfl, rfl⟩
    rw [hread]
    refine ⟨hc.advance, fun b hb => ?_⟩
    cases hb
    exact hid.append (meant hvalid hc.current hcontent rfl)
  · have hread : ShapeId.name id c = (.error (c.unexpected [.identifier]), c) :=
      Reading.expect_bind_of_not_mem (by simpa using hk)
    rw [hread]
    exact ⟨hc, of_error⟩

theorem part (kind : Token.Kind) (separator : String) {id : Bytes} (hid : Bytes.IsUtf8 id) :
    Yields s (ShapeId.part kind (utf8 separator) id) Bytes.IsUtf8 :=
  Yields.kind.bind fun _ _ => ite
    (advance.bind fun _ _ => name hvalid (hid.append (isUtf8_utf8 separator))) (Yields.pure hid)

theorem shapeId : Yields s ShapeId.read Bytes.IsUtf8 :=
  (name hvalid isUtf8_nil).bind fun _ hfirst =>
    (untilKind (fun _ hid => part hvalid .dot "." hid) hfirst).bind fun _ hsegments =>
      (part hvalid .pound "#" hsegments).bind fun _ hshape => part hvalid .dollar "$" hshape

theorem key (expected : List Token.Kind) :
    Yields s (Member.key expected) fun found => Bytes.IsUtf8 found.1 := by
  refine current.bind fun t ht => ?_
  cases hcontent : t.content with
  | string text => exact Yields.pure (meant hvalid ht hcontent rfl)
  | identifier => exact Yields.pure (meant hvalid ht hcontent rfl)
  | _ => exact unexpected expected

omit hvalid in
theorem colon : Yields s Member.colon fun _ => True :=
  skipGap.bind fun _ _ => (expect _).bind fun _ _ => advance.bind fun _ _ => skipGap

theorem member {owner : MemberOwner} {expected : List Token.Kind} {value : Reading Node}
    (hvalue : Yields s value Node.IsUtf8) (members : KeyedList Node) (hmembers : members.IsUtf8) :
    Yields s (Member.read owner expected value members) KeyedList.IsUtf8 := by
  refine (key hvalid expected).bind fun ⟨name, l⟩ hname => advance.bind fun _ _ =>
      colon.bind fun _ _ =>
    hvalue.bind fun n hn => ?_
  cases hinsert : members.insert? name l n with
  | none => exact refuse _
  | some more => exact skipGap.bind fun _ _ => Yields.pure (hmembers.insert hname hn hinsert)

theorem object {value : Reading Node} (hvalue : Yields s value Node.IsUtf8) :
    Yields s (Node.readObject value) Node.IsUtf8 :=
  location.bind fun _ _ => advance.bind fun _ _ => skipGap.bind fun _ _ =>
    (untilKind (member hvalid hvalue) KeyedList.isUtf8_empty).bind fun _ hmembers =>
      advance.bind fun _ _ => Yields.pure (Node.isUtf8_object.mpr hmembers)

omit hvalid in
theorem array {value : Reading Node} (hvalue : Yields s value Node.IsUtf8) :
    Yields s (Node.readArray value) Node.IsUtf8 :=
  location.bind fun _ _ => advance.bind fun _ _ => skipGap.bind fun _ _ =>
    (untilKind (fun _ => hvalue.gather) (List.forall_mem_nil _)).bind fun _ hitems =>
      advance.bind fun _ _ => Yields.pure (Node.isUtf8_array.mpr hitems)

theorem valueWith {inner : Reading Node} (hinner : Yields s inner Node.IsUtf8)
    (given : Option Location) :
    Yields s (Node.readWith .forward inner given) Node.IsUtf8 := by
  refine current.bind fun t ht => ?_
  dsimp only
  cases hcontent : t.content with
  | string | textBlock =>
    exact advance.bind fun _ _ => Yields.pure (Node.isUtf8_string (meant hvalid ht hcontent rfl))
  | number => exact advance.bind fun _ _ => Yields.pure (Node.isUtf8_of_none rfl)
  | identifier => exact (shapeId hvalid).bind fun _ hid => resolve hid _
  | leftBrace => exact nested (object hvalid hinner)
  | leftBracket => exact nested (array hinner)
  | _ => exact unexpected _

theorem value (given : Option Location) : Yields s (Node.read .forward given) Node.IsUtf8 := by
  have hlevels (k : Nat) (given : Option Location) :
      Yields s (Node.readWithin .forward k given) Node.IsUtf8 := by
    induction k generalizing given with
    | zero => exact valueWith hvalid (unexpected []) given
    | succ k ih => exact valueWith hvalid (ih none) given
  exact fun c hc => hlevels _ given c hc

/-! ## Traits and statements -/

theorem members {name : Bytes} (hname : Bytes.IsUtf8 name) (l : Location) :
    Yields s (Trait.readMembers .forward name l) Node.IsUtf8 :=
  nested <| (value hvalid none).bind fun _ hvalue => skipGap.bind fun _ _ =>
    (untilKind (member hvalid (value hvalid none))
      (KeyedList.isUtf8_empty.insertNew hname hvalue)).bind
      fun _ hmembers => Yields.pure (Node.isUtf8_object.mpr hmembers)

theorem keyed {name : Bytes} (hname : Bytes.IsUtf8 name) (l : Location) {alone : Reading Node}
    (halone : Yields s alone Node.IsUtf8) :
    Yields s (Trait.readKeyed .forward name l alone) Node.IsUtf8 :=
  advance.bind fun _ _ => skipGap.bind fun _ _ => Yields.kind.bind fun _ _ =>
    ite (advance.bind fun _ _ => skipGap.bind fun _ _ => members hvalid hname l) halone

theorem body (l : Location) : Yields s (Trait.readBody .forward l) Node.IsUtf8 := by
  have hskip (c : Cursor) (hc : c.IsOver s) : c.skipGap.IsOver s := hc.skip _
  refine current.bind fun t ht => ?_
  cases hcontent : t.content with
  | leftBrace | leftBracket => exact (value hvalid _).andAlways hskip
  | textBlock =>
    exact advance.bind fun _ _ => skipGap.bind fun _ _ =>
      Yields.pure (Node.isUtf8_string (meant hvalid ht hcontent rfl))
  | number =>
    exact advance.bind fun _ _ => skipGap.bind fun _ _ => Yields.pure (Node.isUtf8_of_none rfl)
  | string =>
    have hsaid := meant hvalid ht hcontent rfl
    exact keyed hvalid hsaid _ (Yields.pure (Node.isUtf8_string hsaid))
  | identifier =>
    have hsaid := meant hvalid ht hcontent rfl
    exact keyed hvalid hsaid _ (resolve hsaid _)
  | _ => exact unexpected _

theorem trait : Yields s (Trait.read .forward) Trait.IsUtf8 := by
  refine location.bind fun _ _ => (expect _).bind fun _ _ => advance.bind fun _ _ =>
    (shapeId hvalid).bind fun _ hname => Yields.kind.bind fun _ _ => ite ?_ ?_
  · refine advance.bind fun _ _ => skipGap.bind fun _ _ => Yields.kind.bind fun _ _ => ite ?_ ?_
    · exact advance.bind fun _ _ => Yields.pure ⟨hname, Node.isUtf8_of_none rfl⟩
    · exact (body hvalid _).bind fun _ hvalue => skipGap.bind fun _ _ => (expect _).bind fun _ _ =>
        advance.bind fun _ _ => (note _).bind fun _ _ => Yields.pure ⟨hname, hvalue⟩
  · exact (note _).bind fun _ _ => Yields.pure ⟨hname, Node.isUtf8_of_none rfl⟩

theorem traits : Yields s (Trait.readAll .forward) fun ts => ∀ t ∈ ts, t.IsUtf8 :=
  untilKind (fun _ => (trait hvalid).gather) (List.forall_mem_nil _)

theorem docs : Yields s Trait.readDocs fun docs => ∀ t ∈ docs.toList, t.IsUtf8 := by
  refine skipTrivia.bind fun _ _ => current.bind fun _ _ =>
    ite ?_ (Yields.pure (List.forall_mem_nil _))
  refine skipGap.bind fun _ _ => (takeDocs hvalid).bind fun docs hdocs => Yields.pure ?_
  cases docs with
  | none => exact List.forall_mem_nil _
  | some text =>
    exact List.forall_mem_singleton.mpr ⟨isUtf8_utf8 _, Node.isUtf8_string (hdocs text rfl)⟩

theorem leading : Yields s (Trait.readLeading .forward) fun ts => ∀ t ∈ ts, t.IsUtf8 :=
  (docs hvalid).bind fun _ hdocs => (traits hvalid).bind fun _ htraits => skipGap.bind fun _ _ =>
    Yields.pure (List.forall_mem_append.mpr ⟨htraits, hdocs⟩)

omit hvalid in
theorem keyword : Yields s Apply.readKeyword fun _ => True := by
  refine current.bind fun t _ => ?_
  cases t.content with
  | identifier => exact ite advance (refuse _)
  | error => exact refuse _
  | _ => exact refuse _

theorem statementTraits : Yields s (Apply.readTraits .forward) fun ts => ∀ t ∈ ts, t.IsUtf8 := by
  refine Yields.kind.bind fun k _ => ?_
  cases k with
  | «at» => exact (trait hvalid).bind fun _ ht => Yields.pure (List.forall_mem_singleton.mpr ht)
  | leftBrace =>
    exact advance.bind fun _ _ => skipGap.bind fun _ _ => (traits hvalid).bind fun _ hts =>
      (expect _).bind fun _ _ => advance.bind fun _ _ => Yields.pure hts
  | _ => exact unexpected _

theorem statement : Yields s (Apply.read .forward) Apply.IsUtf8 :=
  location.bind fun _ _ => keyword.bind fun _ _ => (expect _).bind fun _ _ =>
    skipTrivia.bind fun _ _ => (shapeId hvalid).bind fun _ htarget => skipTrivia.bind fun _ _ =>
      (statementTraits hvalid).bind fun _ htraits => (note _).bind fun _ _ =>
        Yields.pure ⟨htarget, htraits⟩

theorem document : Yields s (Apply.readAll .forward) fun ss => ∀ a ∈ ss, a.IsUtf8 :=
  skipGap.bind fun _ _ => untilKind (fun _ => (statement hvalid).gather) (List.forall_mem_nil _)

end Valid

end Yields

end Readings

/-! ## The laws -/

/-- Every string and key of a value is valid UTF-8, and so is its JSON text in every
layout. -/
structure Node.IsValid (n : Node) : Prop where
  strings : ∀ text ∈ n.strings, Bytes.IsUtf8 text
  text : Bytes.IsUtf8 n.text
  prettyText : ∀ indent, Bytes.IsUtf8 (n.prettyText indent)

theorem Node.IsUtf8.isValid {n : Node} (h : n.IsUtf8) : n.IsValid :=
  ⟨h, write_isUtf8 h _ 0, fun _ => write_isUtf8 h _ 0⟩

/-- The name of a trait is valid UTF-8, and its value is valid. -/
structure Trait.IsValid (t : Trait) : Prop where
  name : Bytes.IsUtf8 t.name
  value : t.value.IsValid

/-- The target of a statement is valid UTF-8, and its traits are valid, and so is the
value that it is written as. -/
structure Apply.IsValid (s : Apply) : Prop where
  target : Bytes.IsUtf8 s.target
  traits : ∀ t ∈ s.traits, t.IsValid
  toNode : s.toNode.IsValid

theorem Trait.IsUtf8.isValid {t : Trait} (h : t.IsUtf8) : t.IsValid := ⟨h.1, h.2.isValid⟩

theorem Apply.IsUtf8.isValid {s : Apply} (h : s.IsUtf8) : s.IsValid :=
  ⟨h.1, fun t ht => (h.2 t ht).isValid, (toNode_isUtf8 h).isValid⟩

/-- Every literal and every line of documentation in a document that is valid UTF-8 stands
for valid UTF-8. From fresh tokens of it, or wherever a reading left them, all that is read
is valid. -/
theorem what_is_read_from_utf8_is_utf8 {s : Source} (h : Bytes.IsUtf8 s.content) :
    (∀ t ∈ s.tokens, t.kind ∈ [.string, .textBlock, .docComment] →
      ∃ text, t.content.text? = some text ∧ Bytes.IsUtf8 text) ∧
    (∀ tokens limit, tokens ⊆ s.tokens → (Cursor.ofTokens tokens limit).IsOver s) ∧
    (∀ given, Yields s (Node.read .forward given) Node.IsValid) ∧
    Yields s ShapeId.read Bytes.IsUtf8 ∧
    Yields s (Trait.read .forward) Trait.IsValid ∧
    Yields s (Trait.readAll .forward) (fun ts => ∀ t ∈ ts, t.IsValid) ∧
    Yields s (Trait.readLeading .forward) (fun ts => ∀ t ∈ ts, t.IsValid) ∧
    Yields s (Apply.read .forward) Apply.IsValid ∧
    Yields s (Apply.readAll .forward) (fun ss => ∀ a ∈ ss, a.IsValid) := by
  refine ⟨fun t ht hkind => ?_, fun tokens limit hsub => Cursor.isOver_ofTokens hsub limit,
    fun given => (Yields.value h given).imp fun _ hn => hn.isValid, Yields.shapeId h,
    (Yields.trait h).imp fun _ ht => ht.isValid,
    (Yields.traits h).imp fun _ hts t ht => (hts t ht).isValid,
    (Yields.leading h).imp fun _ hts t ht => (hts t ht).isValid,
    (Yields.statement h).imp fun _ ha => ha.isValid,
    (Yields.document h).imp fun _ hss a ha => (hss a ha).isValid⟩
  cases hcontent : t.content with
  | string text | textBlock text | docComment text =>
    exact ⟨text, rfl, Source.meant_isUtf8 h ht (by rw [Token.meant?, hcontent]; rfl)⟩
  | _ => simp [Token.kind, hcontent, Token.Content.kind] at hkind

/-- Two halves of a surrogate pair are one character, between two that are not
escaped. -/
theorem a_surrogate_pair_is_read_as_one_character :
    let s : Source := ⟨[], utf8 "\"é\\ud83d\\ude00ß\""⟩
    Bytes.IsUtf8 s.content ∧ ∃ n c, Node.read .forward none (.ofTokens s.tokens 0) = (.ok n, c) ∧
      n.strings = [utf8 "é😀ß"] ∧ n.IsValid := by
  intro s
  have hvalid : Bytes.IsUtf8 s.content := isUtf8_utf8 _
  have hstrings : (Node.read .forward none (.ofTokens s.tokens 0)).1.toOption.map Node.strings =
      some [utf8 "é😀ß"] := by decide +kernel
  obtain ⟨n, hread, hn⟩ := Reading.ok_of_view hstrings
  obtain ⟨-, hover, hvalue, -⟩ := what_is_read_from_utf8_is_utf8 hvalid
  have hanswer :=
    (hvalue none _ (hover s.tokens 0 (List.Subset.refl _))).2 n (congrArg Prod.fst hread)
  exact ⟨hvalid, n, _, hread, hn, hanswer⟩

end ShapeTraits
