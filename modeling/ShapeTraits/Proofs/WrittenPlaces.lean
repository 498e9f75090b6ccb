-- Values stand where they are written. A walk through a value meets every value inside and
-- every key, and each of them stands at the start of a token that was read for it, in the
-- order of the tokens.
import ShapeTraits.Proofs.Delimiting
import ShapeTraits.Proofs.NamesInPlace

namespace ShapeTraits

open Cursor Grammar

/-! ## The places in a value -/

namespace Node

/-- What a walk through a value meets. -/
inductive Stop where
  | value (n : Node)
  | key (name : Bytes) (location : Location)

namespace Stop

def location : Stop → Location
  | value n => n.location
  | key _ l => l

/-- The tokens that a value or a key begins with. A string is a literal or begins with a
name, and keywords are names. -/
def BeginsWith : Stop → Token → Prop
  | value (null _), t | value (boolean _ _), t => t.kind = .identifier
  | value (number _ v), t => t.content = .number v
  | value (string _ text), t =>
    t.content = .string text ∨ t.content = .textBlock text ∨ t.kind = .identifier ∧
      t.lexeme <+: text
  | value (array _ _), t => t.kind = .leftBracket
  | value (object _ _), t => t.kind = .leftBrace
  | key name _, t => Key t name

/-- What begins with a token stands at its start. -/
def StandsAt (stop : Stop) (t : Token) : Prop := stop.location = t.start ∧ stop.BeginsWith t

end Stop

mutual

/-- The value itself, and then the values inside as they are written, each member's behind
its key. -/
def walk : Node → List Stop
  | array l items => .value (array l items) :: walkItems items
  | object l ⟨entries⟩ => .value (object l ⟨entries⟩) :: walkMembers entries
  | leaf => [.value leaf]

def walkItems : List Node → List Stop
  | [] => []
  | n :: rest => walk n ++ walkItems rest

def walkMembers : List (Entry Node) → List Stop
  | [] => []
  | ⟨k, l, v⟩ :: rest => .key k l :: (walk v ++ walkMembers rest)

end

/-- The walk through a member. -/
def walkEntry (e : Entry Node) : List Stop := .key e.key e.keyLocation :: e.value.walk

@[simp] theorem walk_array (l : Location) (items : List Node) :
    (array l items).walk = .value (array l items) :: items.flatMap walk := by
  rw [walk]
  congr
  induction items with
  | nil => rfl
  | cons n rest ih => rw [walkItems, ih, List.flatMap_cons]

@[simp] theorem walk_object (l : Location) (entries : List (Entry Node)) :
    (object l ⟨entries⟩).walk = .value (object l ⟨entries⟩) :: entries.flatMap walkEntry := by
  rw [walk]
  congr
  induction entries with
  | nil => rfl
  | cons e rest ih => rw [walkMembers, ih, List.flatMap_cons, walkEntry, List.cons_append]

end Node

/-! ## Things at places among others -/

section Lists

variable {α β : Type} {R : α → β → Prop} {as cs : List α} {bs ds : List β}

theorem sublistForall₂_append (h : List.SublistForall₂ R as bs) (h' : List.SublistForall₂ R cs ds) :
    List.SublistForall₂ R (as ++ cs) (bs ++ ds) := by
  rw [List.sublistForall₂_iff] at h h' ⊢
  obtain ⟨es, hes, hsub⟩ := h
  obtain ⟨fs, hfs, hsub'⟩ := h'
  exact ⟨es ++ fs, List.rel_append hes hfs, hsub.append hsub'⟩

theorem sublistForall₂_mono (h : List.SublistForall₂ R as bs) (hsub : bs.Sublist ds) :
    List.SublistForall₂ R as ds := by
  rw [List.sublistForall₂_iff] at h ⊢
  obtain ⟨es, hes, hes'⟩ := h
  exact ⟨es, hes, hes'.trans hsub⟩

theorem exists_mem_of_sublistForall₂ (h : List.SublistForall₂ R as bs) {a : α} (ha : a ∈ as) :
    ∃ b ∈ bs, R a b := by
  induction h with
  | nil => cases ha
  | cons hab _ ih =>
    rcases List.mem_cons.mp ha with rfl | ha
    · exact ⟨_, List.mem_cons_self, hab⟩
    · obtain ⟨b, hb, hR⟩ := ih ha
      exact ⟨b, List.mem_cons_of_mem _ hb, hR⟩
  | cons_right _ ih =>
    obtain ⟨b, hb, hR⟩ := ih ha
    exact ⟨b, List.mem_cons_of_mem _ hb, hR⟩

/-- What is in order among the others stays in order. -/
theorem pairwise_of_sublistForall₂ {S : α → α → Prop} {T : β → β → Prop}
    (h : List.SublistForall₂ R as bs) (hT : bs.Pairwise T)
    (hS : ∀ a b a' b', R a b → R a' b' → T b b' → S a a') : as.Pairwise S := by
  induction h with
  | nil => exact .nil
  | cons hab hrest ih =>
    rw [List.pairwise_cons] at hT ⊢
    refine ⟨fun a' ha' => ?_, ih hT.2⟩
    obtain ⟨b', hb', hR⟩ := exists_mem_of_sublistForall₂ hrest ha'
    exact hS _ _ a' b' hab hR (hT.1 b' hb')
  | cons_right _ ih => exact ih (List.pairwise_cons.mp hT).2

end Lists

/-! ## Along the grammar -/

namespace Grammar

open Node

variable {w : List Token} {n : Node} {names : List Reference}

/-- An id begins with its first name. -/
theorem Id.first_isPrefix {t : Token} {text : Bytes} (h : Id (t :: w) text) :
    t.kind = .identifier ∧ t.lexeme <+: text := by
  cases h with
  | @mk _ w x y a b d isName segments shape member => exact ⟨isName, a ++ b ++ d, by simp⟩

theorem walk_meaning (id : Bytes) (l : Location) :
    (meaning id l).walk = [.value (meaning id l)] := by
  unfold meaning
  (repeat' split) <;> rfl

theorem Id.standsAt {t : Token} {text : Bytes} (h : Id (t :: w) text) :
    (Stop.value (meaning text t.start)).StandsAt t := by
  obtain ⟨hname, hprefix⟩ := h.first_isPrefix
  unfold meaning
  (repeat' split)
  · exact ⟨rfl, hname⟩
  · exact ⟨rfl, hname⟩
  · exact ⟨rfl, hname⟩
  · exact ⟨rfl, .inr (.inr ⟨hname, hprefix⟩)⟩

theorem Many.walks {α : Type} {P : Form α} {as : List α} {f : α → List Stop} (h : Many P w as names)
    (hP : ∀ v a r, P v a r → List.SublistForall₂ Stop.StandsAt (f a) v) :
    List.SublistForall₂ Stop.StandsAt (as.flatMap f) w := by
  induction h with
  | nil => exact .nil
  | cons first gap _ ih =>
    rw [List.flatMap_cons]
    exact sublistForall₂_append
      (sublistForall₂_mono (hP _ _ _ first) (List.sublist_append_left _ _)) ih

theorem Member.walks {V : Form Node} {e : Entry Node} (h : Member V w e names)
    (hV : ∀ v n r, V v n r → List.SublistForall₂ Stop.StandsAt n.walk v) :
    List.SublistForall₂ Stop.StandsAt (walkEntry e) w := by
  cases h with
  | @mk k colon g h v key n refs isKey before isColon behind value =>
    have hsuffix : v <:+ g ++ colon :: (h ++ v) := ⟨g ++ colon :: h, by simp⟩
    exact .cons ⟨rfl, isKey⟩ (sublistForall₂_mono (hV _ _ _ value) hsuffix.sublist)

theorem Value.walks (h : Value w n names) : List.SublistForall₂ Stop.StandsAt n.walk w := by
  have hinside (g w : List Token) (r : Token) : w.Sublist (g ++ w ++ [r]) :=
    (List.sublist_append_right g w).trans (List.sublist_append_left _ [r])
  refine Value.byParts (motive := fun w n _ =>
    List.SublistForall₂ Stop.StandsAt n.walk w) ?string ?textBlock
    ?number ?id ?object ?array h
  case string =>
    intro t text hcontent
    exact .cons ⟨rfl, .inl hcontent⟩ .nil
  case textBlock =>
    intro t text hcontent
    exact .cons ⟨rfl, .inr (.inl hcontent)⟩ .nil
  case number =>
    intro t value hcontent
    exact .cons ⟨rfl, hcontent⟩ .nil
  case id =>
    intro t w text hid
    rw [walk_meaning]
    exact .cons hid.standsAt .nil
  case object =>
    intro l r g w entries names hopens _ hm _
    rw [walk_object]
    have hmembers := hm.walks fun _ _ _ he => he.walks fun _ _ _ hn => hn
    exact .cons ⟨rfl, hopens⟩ (sublistForall₂_mono hmembers (hinside g w r))
  case array =>
    intro l r g w items names hopens _ hm _
    rw [walk_array]
    have hitems := hm.walks fun _ _ _ hn => hn
    exact .cons ⟨rfl, hopens⟩ (sublistForall₂_mono hitems (hinside g w r))

end Grammar

/-! ## The order of tokens -/

namespace Lexer

/-- Tokens start behind one another, also where the last one before the end is cut off and
takes a byte that is not there. -/
theorem offsets_increase (l : Lexer) (hplace : l.place.offset < 2 ^ 32)
    (hahead : l.ahead ≠ [] → l.place.offset + l.ahead.length + 1 < 2 ^ 32) :
    (∀ t ∈ l.tokens, l.place.offset ≤ t.offset) ∧ l.tokens.Pairwise fun t u =>
      t.offset < u.offset := by
  have hoffset (k : Lexer) (hk : k.place.offset < 2 ^ 32) : k.token.offset = k.place.offset := by
    have hplace : k.token.offset = k.place.offset % 2 ^ 32 := UInt32.toNat_ofNat'
    rw [hplace, Nat.mod_eq_of_lt hk]
  induction l using byTokens with
  | nil l hnil =>
    rw [tokens_of_nil hnil, List.forall_mem_singleton, hoffset l hplace]
    exact ⟨Nat.le_refl _, List.pairwise_singleton _ _⟩
  | cons l hne ih =>
    have hroom := hahead hne
    have hpos := Scan.next_width_pos hne
    have hrest := l.rest_offset
    have hleft : l.rest.ahead.length = l.ahead.length - (Scan.next l.ahead).width :=
      List.length_drop
    have hwidth : (Scan.next l.ahead).width ≤ l.ahead.length + 1 := by
      rcases l.width_eq_or with ⟨-, hwidth⟩ | ⟨-, hwidth⟩ <;> omega
    obtain ⟨hfrom, hordered⟩ := ih (by omega) fun hmore => by
      have := List.length_pos_iff.mpr hmore
      omega
    have hbehind : ∀ t ∈ l.rest.tokens, l.place.offset < t.offset := by
      intro t ht
      have := hfrom t ht
      omega
    rw [tokens_of_ne_nil hne, List.forall_mem_cons, List.pairwise_cons, hoffset l hplace]
    exact ⟨⟨Nat.le_refl _, fun t ht => Nat.le_of_lt (hbehind t ht)⟩, hbehind, hordered⟩

end Lexer

theorem Source.tokens_increase {s : Source} (hsize : s.content.length < 2 ^ 32 - 2) :
    s.tokens.Pairwise fun t u => t.offset < u.offset := by
  refine ((Lexer.ofSource s).offsets_increase (Nat.two_pow_pos 32) fun _ => ?_).2
  change 0 + s.content.length + 1 < 2 ^ 32
  omega

/-! ## The laws -/

/-- Of a value that is read from the tokens of a document, everything that a walk meets stands
at the start of a token that was passed and that such a thing begins with, and behind what
the walk met before. -/
theorem values_stand_where_they_are_written {s : Source} {limit : Nat} {n : Node} {d : Cursor}
    (hsize : s.content.length < 2 ^ 32 - 2)
    (h : Node.read .forward none (ofTokens s.tokens limit) = (.ok n, d)) :
    (n.walk.map fun stop => stop.location.offset).Pairwise (· < ·) ∧
      ∀ stop ∈ n.walk, ∃ t ∈ d.passed, stop.StandsAt t := by
  obtain ⟨w, names, hvalue, hmove⟩ := (Node.reads_value limit).sound rfl h
  have hwalk := hvalue.1.walks
  have hw : w <+: s.tokens := passed_before_the_end hmove.ahead hmove.noEnd
  constructor
  · rw [List.pairwise_map]
    refine pairwise_of_sublistForall₂ hwalk ((Source.tokens_increase hsize).sublist hw.sublist) ?_
    rintro a t a' u ⟨hl, -⟩ ⟨hl', -⟩ hlt
    rw [hl, hl']
    exact UInt32.lt_iff_toNat_lt.mpr hlt
  · intro stop hstop
    obtain ⟨t, ht, hstands⟩ := exists_mem_of_sublistForall₂ hwalk hstop
    have hpassed : d.passed = w.reverse := hmove.passed.trans (List.append_nil _)
    exact ⟨t, by rw [hpassed, List.mem_reverse]; exact ht, hstands⟩

/-- An object, its keys and what is inside stand where their first bytes are. -/
theorem a_quoted_key_and_an_id_stand_where_they_are_written :
    let s : Source := ⟨[], utf8 "\x7ba: [1, true], \"b c\": x.y#z\x7d"⟩
    s.content.length < 2 ^ 32 - 2 ∧
      ∃ n d, Node.read .forward none (ofTokens s.tokens 2) = (.ok n, d) ∧
        n.walk.map (fun stop => stop.location.offset) = [0, 1, 4, 5, 8, 15, 22] ∧
        (n.walk.map fun stop => stop.location.offset).Pairwise (· < ·) ∧
        ∀ stop ∈ n.walk, ∃ t ∈ d.passed, stop.StandsAt t := by
  intro s
  have hsize : s.content.length < 2 ^ 32 - 2 := by decide
  have hview : (Node.read .forward none (ofTokens s.tokens 2)).1.toOption.map
      (fun n => n.walk.map fun stop => stop.location.offset) = some [0, 1, 4, 5, 8, 15, 22] := by
    decide +kernel
  obtain ⟨n, hread, hplaces⟩ := Reading.ok_of_view hview
  exact ⟨hsize, n, _, hread, hplaces, values_stand_where_they_are_written hsize hread⟩

end ShapeTraits
