-- Values compared place by place. Equality compares the shapes of two values and the
-- numbers at the same places, and so does their text, which no two other values share.
import Mathlib.Data.List.Forall2
import ShapeTraits.Proofs.JsonRoundTrip
import ShapeTraits.Proofs.NumberLiterals

namespace ShapeTraits

/-! ## Lists side by side -/

section Lists

variable {α β : Type} {R S : α → β → Prop} {as cs : List α} {bs ds : List β}

theorem forall₂_append (h : as.length = bs.length) :
    List.Forall₂ R (as ++ cs) (bs ++ ds) ↔ List.Forall₂ R as bs ∧ List.Forall₂ R cs ds := by
  induction as generalizing bs with
  | nil =>
    rw [List.eq_nil_of_length_eq_zero h.symm]
    simp
  | cons a as ih =>
    cases bs with
    | nil => cases h
    | cons b bs => simp only [List.cons_append, List.forall₂_cons, ih (Nat.succ.inj h), and_assoc]

theorem forall₂_imp_mem (h : ∀ a ∈ as, ∀ b ∈ bs, R a b → S a b) (hall : List.Forall₂ R as bs) :
    List.Forall₂ S as bs := by
  induction hall with
  | nil => exact .nil
  | cons hab _ ih =>
    refine .cons (h _ List.mem_cons_self _ List.mem_cons_self hab) (ih fun a ha b hb => ?_)
    exact h a (List.mem_cons_of_mem _ ha) b (List.mem_cons_of_mem _ hb)

theorem forall₂_congr_mem (h : ∀ a ∈ as, ∀ b ∈ bs, R a b ↔ S a b) :
    List.Forall₂ R as bs ↔ List.Forall₂ S as bs :=
  ⟨forall₂_imp_mem fun a ha b hb => (h a ha b hb).mp,
    forall₂_imp_mem fun a ha b hb => (h a ha b hb).mpr⟩

end Lists

/-! ## Matching values -/

namespace Node

/-- A value without its locations and with all its numbers alike. -/
def shape (n : Node) : Node := n.bare fun _ => .int64 0

/-- Values of one shape, with related numbers at the same places. -/
@[mk_iff]
structure Matches (R : Number → Number → Prop) (a b : Node) : Prop where
  shape : a.shape = b.shape
  numbers : List.Forall₂ R a.numbers b.numbers

section Matching

variable {R S : Number → Number → Prop} {a b : Node} {l m : Location}

theorem kind_bare (f : Number → Number) (n : Node) : (n.bare f).kind = n.kind := by
  cases n with
  | object l members =>
    obtain ⟨entries⟩ := members
    rfl
  | _ => rfl

theorem numbers_bare (f : Number → Number) (n : Node) : (n.bare f).numbers = n.numbers.map f := by
  induction n with
  | array l items ih =>
    rw [bare_array, numbers_array, numbers_array, List.flatMap_map, List.map_flatMap]
    exact List.flatMap_congr ih
  | object l entries ih =>
    rw [bare_object, numbers_object, numbers_object, List.flatMap_map, List.map_flatMap]
    exact List.flatMap_congr ih
  | _ => rfl

theorem Matches.kind (h : Matches R a b) : a.kind = b.kind := by
  have hkind := congrArg Node.kind h.shape
  rwa [Node.shape, Node.shape, kind_bare, kind_bare] at hkind

theorem length_numbers (h : a.shape = b.shape) : a.numbers.length = b.numbers.length := by
  have hnumbers := congrArg (List.length ∘ Node.numbers) h
  simpa [Node.shape, numbers_bare] using hnumbers

theorem matches_congr (h : ∀ x ∈ a.numbers, ∀ y ∈ b.numbers, R x y ↔ S x y) :
    Matches R a b ↔ Matches S a b := by
  rw [matches_iff, matches_iff, forall₂_congr_mem h]

/-- Where things side by side have values of one shape, their numbers are related place
by place exactly if those of each of them are. -/
theorem forall₂_numbers {α β : Type} {f : α → β} {value : α → Node}
    (hf : ∀ x y, f x = f y → (value x).shape = (value y).shape) {as bs : List α} :
    as.map f = bs.map f ∧
        List.Forall₂ R (as.flatMap fun x => (value x).numbers)
          (bs.flatMap fun x => (value x).numbers) ↔
      List.Forall₂
        (fun x y => f x = f y ∧ List.Forall₂ R (value x).numbers (value y).numbers) as bs := by
  induction as generalizing bs with
  | nil => cases bs <;> simp
  | cons a as ih =>
    cases bs with
    | nil => simp
    | cons b bs =>
      rw [List.map_cons, List.map_cons, List.cons.injEq, List.flatMap_cons, List.flatMap_cons,
        List.forall₂_cons, ← ih, and_assoc, and_assoc]
      refine and_congr_right fun hab => ?_
      rw [forall₂_append (length_numbers (hf a b hab)), and_left_comm]

theorem matches_array {items others : List Node} :
    Matches R (array l items) (array m others) ↔ List.Forall₂ (Matches R) items others := by
  have hplaces : items.map Node.shape = others.map Node.shape ∧
      List.Forall₂ R (items.flatMap numbers) (others.flatMap numbers) ↔ _ :=
    forall₂_numbers fun _ _ h => h
  rw [matches_iff, Node.shape, Node.shape, bare_array, bare_array, numbers_array, numbers_array]
  simp only [array.injEq, true_and]
  exact hplaces.trans (forall₂_congr_mem fun x _ y _ => (matches_iff R x y).symm)

theorem matches_object {entries others : List (Entry Node)} :
    Matches R (object l ⟨entries⟩) (object m ⟨others⟩) ↔
      List.Forall₂ (fun e d => e.key = d.key ∧ Matches R e.value d.value) entries others := by
  have hentry (e d : Entry Node) :
      bareEntry (fun _ => .int64 0) e = bareEntry (fun _ => .int64 0) d ↔
      e.key = d.key ∧ e.value.shape = d.value.shape := by
    simp [bareEntry, Node.shape]
  have hplaces : entries.map (bareEntry fun _ => .int64 0) =
      others.map (bareEntry fun _ => .int64 0) ∧
      List.Forall₂ R (entries.flatMap fun e => e.value.numbers)
        (others.flatMap fun e => e.value.numbers) ↔ _ :=
    forall₂_numbers fun e d h => ((hentry e d).mp h).2
  rw [matches_iff, Node.shape, Node.shape, bare_object, bare_object, numbers_object, numbers_object]
  simp only [object.injEq, KeyedList.mk.injEq, true_and]
  refine hplaces.trans (forall₂_congr_mem fun e _ d _ => ?_)
  rw [hentry, and_assoc, matches_iff]

/-! ## Equality -/

theorem equalItems_eq {items others : List Node} :
    equalItems items others = true ↔ List.Forall₂ (fun a b => a.equal b = true) items others := by
  induction items generalizing others with
  | nil => cases others <;> simp [equalItems]
  | cons a items ih =>
    cases others with
    | nil => simp [equalItems]
    | cons b others => rw [equalItems, Bool.and_eq_true, ih, List.forall₂_cons]

theorem equalMembers_eq {entries others : List (Entry Node)} : equalMembers entries others = true ↔
    List.Forall₂ (fun e d => e.key = d.key ∧ e.value.equal d.value = true) entries others := by
  induction entries generalizing others with
  | nil => cases others <;> simp [equalMembers]
  | cons e entries ih =>
    cases others with
    | nil => simp [equalMembers]
    | cons d others =>
      rw [equalMembers, Bool.and_eq_true, Bool.and_eq_true, beq_iff_eq, ih, List.forall₂_cons]

theorem kind_of_equal (h : a.equal b = true) : a.kind = b.kind := by
  cases a <;> cases b <;> first | rfl | simp [equal] at h

theorem equal_iff_of_kind_ne (h : a.kind ≠ b.kind) :
    a.equal b = true ↔ Matches (fun x y => x.equal y = true) a b :=
  iff_of_false (mt kind_of_equal h) (mt Matches.kind h)

/-- Values are equal exactly if they match by the equality of numbers. -/
theorem equal_iff (a b : Node) : a.equal b = true ↔ Matches (fun x y => x.equal y = true) a b := by
  induction a generalizing b with
  | null l =>
    cases b with
    | null m => simp [matches_iff, equal, Node.shape, bare, numbers]
    | _ => exact equal_iff_of_kind_ne fun hkind => by cases hkind
  | boolean l v =>
    cases b with
    | boolean m w => simp [matches_iff, equal, Node.shape, bare, numbers]
    | _ => exact equal_iff_of_kind_ne fun hkind => by cases hkind
  | number l x =>
    cases b with
    | number m y => simp [matches_iff, equal, Node.shape, bare, numbers]
    | _ => exact equal_iff_of_kind_ne fun hkind => by cases hkind
  | string l text =>
    cases b with
    | string m other => simp [matches_iff, equal, Node.shape, bare, numbers]
    | _ => exact equal_iff_of_kind_ne fun hkind => by cases hkind
  | array l items ih =>
    cases b with
    | array m others =>
      rw [equal, equalItems_eq, matches_array]
      exact forall₂_congr_mem fun n hn other _ => ih n hn other
    | _ => exact equal_iff_of_kind_ne fun hkind => by cases hkind
  | object l entries ih =>
    cases b with
    | object m members =>
      obtain ⟨others⟩ := members
      rw [equal, equalMembers_eq, matches_object]
      exact forall₂_congr_mem fun e he d _ => and_congr_right fun _ => ih e he d.value
    | _ => exact equal_iff_of_kind_ne fun hkind => by cases hkind

/-! ## Texts before more text -/

theorem jsonString_unique {text other r s : Bytes}
    (h : jsonString text ++ r = jsonString other ++ s) :
    text = other ∧ r = s := by
  have hsplit (text r : Bytes) : jsonString text ++ r =
      Byte.quote :: (text.flatMap jsonEscape ++ Byte.quote :: r) := by
    simp [jsonString]
  rw [hsplit, hsplit, List.cons.injEq] at h
  -- Both escaped texts end before the first quote that closes them.
  have hlength : (text.flatMap jsonEscape).length = (other.flatMap jsonEscape).length := by
    have hbody := congrArg (Scan.body Scan.closesString) h.2
    rw [Scan.body_flatMap, Scan.body_flatMap, Scan.Body.mk.injEq] at hbody
    exact hbody.1
  obtain ⟨hescaped, hrest⟩ := List.append_inj h.2 hlength
  refine ⟨?_, (List.cons.inj hrest).2⟩
  have hmeant := congrArg Escape.decode hescaped
  rw [Escape.decode_flatMap, Escape.decode_flatMap] at hmeant
  exact Except.ok.inj hmeant

theorem number_unique {x y : Number} (hx : x.IsWritten) (hy : y.IsWritten) {r s : Bytes}
    (hr : Bytes.Avoids Byte.staysInValue r) (hs : Bytes.Avoids Byte.staysInValue s)
    (h : x.text ++ r = y.text ++ s) : x.text = y.text ∧ r = s := by
  obtain ⟨n, hn, hntext, -⟩ := hx
  obtain ⟨k, hk, hktext, -⟩ := hy
  have hread := Numeral.read_append hn (hr.imp (Byte.avoided_of rfl))
  rw [hntext, h, ← hktext, Numeral.read_append hk (hs.imp (Byte.avoided_of rfl))] at hread
  have htext : x.text = y.text := by rw [← hntext, ← hktext, Except.ok.inj hread]
  rw [htext] at h
  exact ⟨htext, List.append_cancel_left h⟩

/-- The kind of value that a byte begins, if any. -/
def opens (b : UInt8) : Option Kind :=
  if b = 0x6e then some .null
  else if b = 0x74 ∨ b = 0x66 then some .boolean
  else if Byte.isDigit b ∨ b = Byte.minus then some .number
  else if b = Byte.quote then some .string
  else if b = 0x5b then some .array
  else if b = 0x7b then some .object
  else none

theorem opens_number : ∀ b, Byte.isDigit b = true ∨ b = Byte.minus → opens b = some .number := by
  exact Byte.forall_of_lt (by decide +kernel)

/-- The first byte of a value tells its kind. -/
theorem write_head {n : Node} (hn : ∀ x ∈ n.numbers, x.IsWritten) (layout : Layout) (level : Nat) :
    ∃ b more, n.write layout level = b :: more ∧ opens b = some n.kind := by
  cases n with
  | null l => exact ⟨_, _, rfl, rfl⟩
  | boolean l v => cases v <;> exact ⟨_, _, rfl, rfl⟩
  | number l x =>
    obtain ⟨numeral, hwell, htext, -⟩ := hn x (List.mem_singleton_self x)
    obtain ⟨b, more, hb, hfirst⟩ := Numeral.text_head hwell
    exact ⟨b, more, by rw [write, ← htext, hb], opens_number b hfirst⟩
  | string l text => exact ⟨_, _, rfl, rfl⟩
  | array l items => cases items <;> exact ⟨_, _, rfl, rfl⟩
  | object l members =>
    obtain ⟨entries⟩ := members
    cases entries <;> exact ⟨_, _, rfl, rfl⟩

/-- Two things are told from each other by their texts, also before more text that ends
a value: if there the bytes are the same, the things are related, and what follows is
the same. -/
def Tells {α : Type} (text : α → Bytes) (P : α → α → Prop) (a b : α) : Prop :=
  ∀ r s, Bytes.Avoids Byte.staysInValue r → Bytes.Avoids Byte.staysInValue s →
    text a ++ r = text b ++ s →
    P a b ∧ r = s

section Rows

variable {α : Type} {text : α → Bytes} {P : α → α → Prop} {layout : Layout} {level : Nat}
    {closing : UInt8}
  {r s : Bytes}

/-- Behind the last thing in a row stands a line break or a bracket. -/
theorem avoids_stop (hclosing : closing = 0x5d ∨ closing = 0x7d) {bad : UInt8 → Bool}
    (hfeed : bad Byte.lineFeed = false) (hbad : bad 0x5d = false ∧ bad 0x7d = false) (r : Bytes) :
    Bytes.Avoids bad (layout.lineBreak level ++ closing :: r) := by
  refine layout.lineBreak_avoids level hfeed (Bytes.avoids_cons ?_)
  rcases hclosing with rfl | rfl
  · exact hbad.1
  · exact hbad.2

/-- The texts of things, each behind a comma and a line break. -/
def behindCommas (layout : Layout) (level : Nat) (text : α → Bytes) (as : List α) : Bytes :=
  as.flatMap fun a => Byte.comma :: layout.lineBreak level ++ text a

theorem behindCommas_cons {inner : Nat} (a : α) (as : List α) (r : Bytes) :
    behindCommas layout inner text (a :: as) ++ r =
      Byte.comma ::
        (layout.lineBreak inner ++ (text a ++ (behindCommas layout inner text as ++ r))) := by
  simp [behindCommas]

theorem behindCommas_unique {inner : Nat} (hclosing : closing = 0x5d ∨ closing = 0x7d)
    {as bs : List α} (htells : ∀ a ∈ as, ∀ b ∈ bs, Tells text P a b)
    (h : behindCommas layout inner text as ++ (layout.lineBreak level ++ closing :: r) =
      behindCommas layout inner text bs ++ (layout.lineBreak level ++ closing :: s)) :
    List.Forall₂ P as bs ∧ r = s := by
  have hcomma (more r : Bytes) : Byte.comma :: more ≠ layout.lineBreak level ++ closing :: r := by
    intro heq
    have havoids : Bytes.Avoids (· == Byte.comma) (layout.lineBreak level ++ closing :: r) :=
      avoids_stop hclosing rfl ⟨rfl, rfl⟩ r
    rw [← heq] at havoids
    exact absurd havoids.head (by decide)
  have hstop (cs : List α) (r : Bytes) : Bytes.Avoids Byte.staysInValue
      (behindCommas layout inner text cs ++ (layout.lineBreak level ++ closing :: r)) := by
    cases cs with
    | nil => exact avoids_stop hclosing rfl ⟨rfl, rfl⟩ r
    | cons c cs =>
      rw [behindCommas_cons]
      exact Bytes.avoids_cons rfl
  induction as generalizing bs with
  | nil =>
    cases bs with
    | nil => exact ⟨.nil, (List.cons.inj (List.append_cancel_left h)).2⟩
    | cons b bs =>
      rw [behindCommas_cons] at h
      exact absurd h.symm (hcomma _ r)
  | cons a as ih =>
    cases bs with
    | nil =>
      rw [behindCommas_cons] at h
      exact absurd h (hcomma _ s)
    | cons b bs =>
      rw [behindCommas_cons, behindCommas_cons, List.cons.injEq] at h
      obtain ⟨hab, hrest⟩ :=
        htells a List.mem_cons_self b List.mem_cons_self _ _ (hstop as r) (hstop bs s)
        (List.append_cancel_left h.2)
      obtain ⟨hall, hrs⟩ :=
        ih (fun x hx y hy =>
          htells x (List.mem_cons_of_mem a hx) y (List.mem_cons_of_mem b hy)) hrest
      exact ⟨.cons hab hall, hrs⟩

/-- The text of some things between brackets. -/
def row (layout : Layout) (level : Nat) (opening closing : UInt8) (text : α → Bytes) :
    List α → Bytes
  | [] => [opening, closing]
  | a :: as =>
    enclosed layout level opening closing (text a) (behindCommas layout (level + 1) text as)

/-- Behind its bracket a row that is not empty goes on as behind a comma. -/
theorem row_cons {opening : UInt8} (a : α) (as : List α) (r : Bytes) :
    ∃ more, row layout level opening closing text (a :: as) ++ r = opening :: more ∧
      more = layout.lineBreak (level + 1) ++ (text a ++
        (behindCommas layout (level + 1) text as ++ (layout.lineBreak level ++ closing :: r))) ∧
      Byte.comma :: more =
        behindCommas layout (level + 1) text (a :: as) ++
          (layout.lineBreak level ++ closing :: r) := by
  refine ⟨_, ?_, rfl, (behindCommas_cons a as _).symm⟩
  simp [row, enclosed]

theorem row_tells {opening : UInt8} (hclosing : closing = 0x5d ∨ closing = 0x7d) {as bs : List α}
    (hhead : ∀ a ∈ as ++ bs, ∀ more, Bytes.Avoids (· == closing) (text a ++ more))
    (htells : ∀ a ∈ as, ∀ b ∈ bs, Tells text P a b) :
    Tells (row layout level opening closing text) (List.Forall₂ P) as bs := by
  intro r s _ _ h
  have hempty (a : α) (ha : a ∈ as ++ bs) (more rest : Bytes) :
      closing :: rest ≠ layout.lineBreak (level + 1) ++ (text a ++ more) := by
    have hfeed : (Byte.lineFeed == closing) = false := by rcases hclosing with rfl | rfl <;> rfl
    intro heq
    have havoids := layout.lineBreak_avoids (level + 1) hfeed (hhead a ha more)
    rw [← heq] at havoids
    exact absurd havoids.head (by simp)
  cases as with
  | nil =>
    cases bs with
    | nil => exact ⟨.nil, (List.cons.inj (List.cons.inj h).2).2⟩
    | cons b bs =>
      obtain ⟨more, hrow, rfl, -⟩ := row_cons b bs s
      rw [hrow] at h
      exact absurd (List.cons.inj h).2 (hempty b List.mem_cons_self _ r)
  | cons a as =>
    obtain ⟨more, hrow, hmore, hcomma⟩ := row_cons a as r
    rw [hrow] at h
    cases bs with
    | nil => exact absurd (List.cons.inj h).2.symm (hmore ▸ hempty a List.mem_cons_self _ s)
    | cons b bs =>
      obtain ⟨others, hrow', -, hcomma'⟩ := row_cons b bs s
      rw [hrow'] at h
      apply behindCommas_unique hclosing htells
      rw [← hcomma, ← hcomma', (List.cons.inj h).2]

end Rows

theorem write_array_row (layout : Layout) (level : Nat) (l : Location) (items : List Node) :
    (array l items).write layout level =
      row layout level 0x5b 0x5d (write layout (level + 1)) items := by
  cases items with
  | nil => exact write_array_nil layout level l
  | cons n items => exact write_array layout level l n items

theorem write_object_row (layout : Layout) (level : Nat) (l : Location)
    (entries : List (Entry Node)) :
    (object l ⟨entries⟩).write layout level =
      row layout level 0x7b 0x7d (memberText layout (level + 1)) entries := by
  cases entries with
  | nil => exact write_object_nil layout level l
  | cons e entries => exact write_object layout level l e entries

/-! ## Texts of values -/

theorem tells_of_write_head {P : Node → Node → Prop} {layout : Layout} {level : Nat}
    (ha : ∀ x ∈ a.numbers, x.IsWritten) (hb : ∀ x ∈ b.numbers, x.IsWritten)
    (hkind : a.kind ≠ b.kind) :
    Tells (write layout level) P a b := by
  intro r s _ _ h
  obtain ⟨c, more, hc, hopens⟩ := write_head ha layout level
  obtain ⟨d, others, hd, hopens'⟩ := write_head hb layout level
  rw [hc, hd] at h
  rw [(List.cons.inj h).1, hopens'] at hopens
  exact absurd (Option.some.inj hopens).symm hkind

theorem member_tells {layout : Layout} {level : Nat} {e d : Entry Node}
    (h : Tells (write layout level) (Matches R) e.value d.value) :
    Tells (memberText layout level) (fun e d => e.key = d.key ∧ Matches R e.value d.value) e d := by
  intro r s hr hs heq
  simp only [memberText, List.append_assoc] at heq
  obtain ⟨hkey, hrest⟩ := jsonString_unique heq
  obtain ⟨hvalue, hrs⟩ := h r s hr hs (List.append_cancel_left hrest)
  exact ⟨⟨hkey, hvalue⟩, hrs⟩

/-- No value begins with a byte that begins none. -/
theorem write_avoids {n : Node} (hn : ∀ x ∈ n.numbers, x.IsWritten) {c : UInt8}
    (hc : opens c = none) (layout : Layout) (level : Nat) (more : Bytes) :
    Bytes.Avoids (· == c) (n.write layout level ++ more) := by
  obtain ⟨b, rest, hb, hopens⟩ := write_head hn layout level
  rw [hb]
  refine Bytes.avoids_cons (beq_eq_false_iff_ne.mpr ?_)
  rintro rfl
  rw [hc] at hopens
  cases hopens

theorem member_avoids {c : UInt8} (hc : Byte.quote ≠ c) (layout : Layout) (level : Nat)
    (e : Entry Node) (more : Bytes) :
    Bytes.Avoids (· == c) (memberText layout level e ++ more) := by
  rw [memberText, jsonString, List.append_assoc, List.append_assoc, List.append_assoc,
    List.append_assoc]
  exact Bytes.avoids_cons (beq_eq_false_iff_ne.mpr hc)

/-- Values without numbers that are not finite are told from each other by their text,
up to numbers of the same text. -/
theorem write_tells {layout : Layout} {level : Nat} (ha : ∀ x ∈ a.numbers, x.IsWritten)
    (hb : ∀ x ∈ b.numbers, x.IsWritten) :
    Tells (write layout level) (Matches fun x y => x.text = y.text) a b := by
  induction a generalizing b level with
  | null l =>
    cases b with
    | null m => exact fun r s _ _ h => ⟨⟨rfl, .nil⟩, List.append_cancel_left h⟩
    | _ => exact tells_of_write_head ha hb fun hkind => by cases hkind
  | boolean l v =>
    cases b with
    | boolean m w =>
      intro r s _ _ h
      have hvalue : v = w := by
        cases v <;> cases w <;> first | rfl | cases (List.cons.inj h).1
      subst hvalue
      exact ⟨⟨rfl, .nil⟩, List.append_cancel_left h⟩
    | _ => exact tells_of_write_head ha hb fun hkind => by cases hkind
  | number l x =>
    cases b with
    | number m y =>
      intro r s hr hs h
      have hx := ha x (List.mem_singleton_self x)
      have hy := hb y (List.mem_singleton_self y)
      obtain ⟨htext, hrs⟩ := number_unique hx hy hr hs h
      exact ⟨⟨rfl, .cons htext .nil⟩, hrs⟩
    | _ => exact tells_of_write_head ha hb fun hkind => by cases hkind
  | string l text =>
    cases b with
    | string m other =>
      intro r s _ _ h
      obtain ⟨rfl, hrs⟩ := jsonString_unique h
      exact ⟨⟨rfl, .nil⟩, hrs⟩
    | _ => exact tells_of_write_head ha hb fun hkind => by cases hkind
  | array l items ih =>
    cases b with
    | array m others =>
      rw [numbers_array, List.forall_mem_flatMap] at ha hb
      have htells (n : Node) (hn : n ∈ items) (other : Node) (hother : other ∈ others) :
          Tells (write layout (level + 1)) (Matches fun x y => x.text = y.text) n other :=
        ih n hn (ha n hn) (hb other hother)
      have hhead (n : Node) (hn : n ∈ items ++ others) (more : Bytes) :
          Bytes.Avoids (· == 0x5d) (write layout (level + 1) n ++ more) :=
        write_avoids ((List.mem_append.mp hn).elim (ha n) (hb n)) rfl layout (level + 1) more
      intro r s hr hs h
      rw [write_array_row, write_array_row] at h
      obtain ⟨hall, hrs⟩ := row_tells (.inl rfl) hhead htells r s hr hs h
      exact ⟨matches_array.mpr hall, hrs⟩
    | _ => exact tells_of_write_head ha hb fun hkind => by cases hkind
  | object l entries ih =>
    cases b with
    | object m members =>
      obtain ⟨others⟩ := members
      rw [numbers_object, List.forall_mem_flatMap] at ha hb
      have htells (e : Entry Node) (he : e ∈ entries) (d : Entry Node) (hd : d ∈ others) :
          Tells (memberText layout (level + 1))
            (fun e d => e.key = d.key ∧ Matches (fun x y => x.text = y.text) e.value d.value) e d :=
        member_tells (ih e he (ha e he) (hb d hd))
      intro r s hr hs h
      rw [write_object_row, write_object_row] at h
      obtain ⟨hall, hrs⟩ :=
        row_tells (.inr rfl) (fun e _ => member_avoids (by decide) layout (level + 1) e)
        htells r s hr hs h
      exact ⟨matches_object.mpr hall, hrs⟩
    | _ => exact tells_of_write_head ha hb fun hkind => by cases hkind

theorem row_congr {α : Type} {text : α → Bytes} {layout : Layout} {level : Nat}
    {opening closing : UInt8}
    {as bs : List α} (h : List.Forall₂ (fun a b => text a = text b) as bs) :
    row layout level opening closing text as = row layout level opening closing text bs := by
  have hbehind {as bs : List α} (h : List.Forall₂ (fun a b => text a = text b) as bs) :
      behindCommas layout (level + 1) text as = behindCommas layout (level + 1) text bs := by
    induction h with
    | nil => rfl
    | cons hab _ ih =>
      rw [behindCommas, behindCommas, List.flatMap_cons, List.flatMap_cons, hab]
      exact congrArg (_ ++ ·) ih
  cases h with
  | nil => rfl
  | cons hab hrest => rw [row, row, hab, hbehind hrest]

/-- Values that match by the text of their numbers have the same text. -/
theorem write_congr {layout : Layout} {level : Nat} (h : Matches (fun x y => x.text = y.text) a b) :
    a.write layout level = b.write layout level := by
  have hkind := h.kind
  induction a generalizing b level with
  | null l =>
    cases b with
    | null m => rfl
    | _ => cases hkind
  | boolean l v =>
    cases b with
    | boolean m w =>
      have hshape : boolean .nowhere v = boolean .nowhere w := h.shape
      rw [write, write, (boolean.inj hshape).2]
    | _ => cases hkind
  | number l x =>
    cases b with
    | number m y =>
      have hnumbers : List.Forall₂ (fun x y => x.text = y.text) [x] [y] := h.numbers
      rw [write, write, (List.forall₂_cons.mp hnumbers).1]
    | _ => cases hkind
  | string l text =>
    cases b with
    | string m other =>
      have hshape : string .nowhere text = string .nowhere other := h.shape
      rw [write, write, (string.inj hshape).2]
    | _ => cases hkind
  | array l items ih =>
    cases b with
    | array m others =>
      rw [write_array_row, write_array_row]
      exact row_congr (forall₂_imp_mem (fun n hn other _ hmatches => ih n hn hmatches hmatches.kind)
        (matches_array.mp h))
    | _ => cases hkind
  | object l entries ih =>
    cases b with
    | object m members =>
      obtain ⟨others⟩ := members
      rw [write_object_row, write_object_row]
      refine row_congr (forall₂_imp_mem (fun e he d _ hmatches => ?_) (matches_object.mp h))
      rw [memberText, memberText, hmatches.1, ih e he hmatches.2 hmatches.2.kind]
    | _ => cases hkind

/-- Without numbers that are not finite, just the values that match by the text of their
numbers have the same text. -/
theorem write_eq_iff {layout : Layout} {level : Nat} (ha : ∀ x ∈ a.numbers, x.IsWritten)
    (hb : ∀ x ∈ b.numbers, x.IsWritten) :
    a.write layout level = b.write layout level ↔ Matches (fun x y => x.text = y.text) a b := by
  constructor
  · intro h
    exact (write_tells ha hb [] [] Bytes.avoids_nil Bytes.avoids_nil (congrArg (· ++ []) h)).1
  · exact write_congr

end Matching

end Node

end ShapeTraits
