-- Where tokens stand does not matter: tokens that are alike but for their places
-- stand for the same values, traits and statements but for the places of these,
-- and leave the same names for later.
import ShapeTraits.Proofs.Grammar

namespace ShapeTraits

open Grammar

/-! ## Tokens without their places -/

/-- A token without its place. -/
def Token.plain (t : Token) : Token.Content × Bytes := (t.content, t.lexeme)

/-- The same tokens, maybe in other places. -/
def Alike (w x : List Token) : Prop := x.map Token.plain = w.map Token.plain

section Alike

variable {t u : Token} {v w x : List Token}

theorem Token.content_of_plain (h : u.plain = t.plain) : u.content = t.content :=
  congrArg Prod.fst h

theorem Token.lexeme_of_plain (h : u.plain = t.plain) : u.lexeme = t.lexeme :=
  congrArg Prod.snd h

theorem Token.kind_of_plain (h : u.plain = t.plain) : u.kind = t.kind :=
  congrArg Content.kind (content_of_plain h)

theorem Alike.refl (w : List Token) : Alike w w := rfl

theorem alike_nil (h : Alike [] x) : x = [] := List.map_eq_nil_iff.mp h

theorem alike_cons (h : Alike (t :: w) x) : ∃ u y, x = u :: y ∧ u.plain = t.plain ∧ Alike w y := by
  obtain ⟨u, y, rfl, hu, hy⟩ := List.map_eq_cons_iff.mp h
  exact ⟨u, y, rfl, hu, hy⟩

theorem alike_append (h : Alike (v ++ w) x) : ∃ y z, x = y ++ z ∧ Alike v y ∧ Alike w z := by
  rw [Alike, List.map_append] at h
  exact List.map_eq_append_iff.mp h

theorem alike_singleton (h : Alike [t] x) : ∃ u, x = [u] ∧ u.plain = t.plain := by
  obtain ⟨u, y, rfl, hu, hy⟩ := alike_cons h
  exact ⟨u, by rw [alike_nil hy], hu⟩

/-- What holds of the kinds of some tokens holds of those of tokens that are alike. -/
theorem Alike.forall_kind (h : Alike w x) {p : Token.Kind → Prop} (hw : ∀ t ∈ w, p t.kind) :
    ∀ t ∈ x, p t.kind := by
  induction w generalizing x with
  | nil => rw [alike_nil h]; exact List.forall_mem_nil _
  | cons t w ih =>
    obtain ⟨u, y, rfl, hu, hy⟩ := alike_cons h
    obtain ⟨ht, hw⟩ := List.forall_mem_cons.mp hw
    exact List.forall_mem_cons.mpr ⟨Token.kind_of_plain hu ▸ ht, ih hy hw⟩

end Alike

/-! ## Traits and statements without their places -/

/-- The names of some references. -/
def namesOf (refs : List Reference) : List Bytes := refs.map (·.name)

@[simp] theorem namesOf_nil : namesOf [] = [] := rfl

@[simp] theorem namesOf_append (refs later : List Reference) :
    namesOf (refs ++ later) = namesOf refs ++ namesOf later := List.map_append

/-- A trait without any locations. -/
def Trait.bare (t : Trait) : Trait := ⟨t.name, t.value.bare id, t.kind, .nowhere⟩

/-- A statement without any locations. -/
def Apply.bare (s : Apply) : Apply := ⟨s.target, .nowhere, s.traits.map Trait.bare⟩

/-! ## Derivations elsewhere -/

/-- Wherever tokens alike stand, the form derives from them what looks the same and
leaves the same names. -/
def Carries {α β : Type} (P : Form α) (view : α → β) (w : List Token) (a : α)
    (refs : List Reference) : Prop :=
  ∀ x, Alike w x → ∃ b later, P x b later ∧ view b = view a ∧ namesOf later = namesOf refs

namespace Grammar

variable {α β : Type} {P Q : Form α} {view : α → β} {w x g : List Token} {text sign : Bytes}
  {kind : Token.Kind} {refs : List Reference} {n : Node}

theorem Gap.alike (h : Gap g) (hx : Alike g x) : Gap x :=
  hx.forall_kind (p := fun k => k.isGap = true) h

theorem Trivia.alike (h : Trivia g) (hx : Alike g x) : Trivia x :=
  hx.forall_kind (p := fun k => k.isTrivia = true) h

theorem Segments.alike (h : Segments w text) (hx : Alike w x) : Segments x text := by
  induction h generalizing x with
  | nil => rw [alike_nil hx]; exact .nil
  | cons hsign hname _ ih =>
    obtain ⟨dot, y, rfl, hdot, hy⟩ := alike_cons hx
    obtain ⟨name, z, rfl, hn, hz⟩ := alike_cons hy
    rw [← Token.lexeme_of_plain hn]
    exact .cons (Token.kind_of_plain hdot ▸ hsign) (Token.kind_of_plain hn ▸ hname) (ih hz)

theorem Part.alike (h : Part kind sign w text) (hx : Alike w x) : Part kind sign x text := by
  cases h with
  | absent => rw [alike_nil hx]; exact .absent
  | present hsign hname =>
    obtain ⟨mark, y, rfl, hmark, hy⟩ := alike_cons hx
    obtain ⟨name, rfl, hn⟩ := alike_singleton hy
    rw [← Token.lexeme_of_plain hn]
    exact .present (Token.kind_of_plain hmark ▸ hsign) (Token.kind_of_plain hn ▸ hname)

theorem Id.alike (h : Id w text) (hx : Alike w x) : Id x text := by
  cases h with
  | mk hname hsegments hshape hmember =>
    obtain ⟨first, y, rfl, hfirst, hy⟩ := alike_cons hx
    obtain ⟨y, z, rfl, hy, hz⟩ := alike_append hy
    obtain ⟨y, y', rfl, hy, hy'⟩ := alike_append hy
    rw [← Token.lexeme_of_plain hfirst]
    exact .mk (Token.kind_of_plain hfirst ▸ hname) (hsegments.alike hy) (hshape.alike hy')
      (hmember.alike hz)

theorem Key.alike {t u : Token} (h : Key t text) (hu : u.plain = t.plain) : Key u text := by
  cases h with
  | name hcontent =>
    rw [← Token.lexeme_of_plain hu]
    exact .name ((Token.content_of_plain hu).trans hcontent)
  | string hcontent => exact .string ((Token.content_of_plain hu).trans hcontent)

/-- One token is carried if what it stands for depends on no more than its content
and text. -/
theorem carries_token {t : Token} {a : α} (h : ∀ u : Token, u.plain = t.plain →
      ∃ b later, P [u] b later ∧ view b = view a ∧ namesOf later = namesOf refs) :
    Carries P view [t] a refs := by
  intro x hx
  obtain ⟨u, rfl, hu⟩ := alike_singleton hx
  exact h u hu

/-- Many things are carried one by one. -/
theorem Many.carries {as : List α} (h : Many P w as refs)
    (hP : ∀ v a r, P v a r → Carries Q view v a r) :
    Carries (Many Q) (List.map view) w as refs := by
  induction h with
  | nil => exact fun x hx => ⟨[], [], alike_nil hx ▸ .nil, rfl, rfl⟩
  | cons first gap _ ih =>
    intro x hx
    obtain ⟨y, z, rfl, hy, hz⟩ := alike_append hx
    obtain ⟨y, y', rfl, hy, hy'⟩ := alike_append hy
    obtain ⟨b, refs', hb, hview, hnames⟩ := hP _ _ _ first y hy
    obtain ⟨bs, later', hbs, hviews, hlater⟩ := ih z hz
    refine ⟨b :: bs, refs' ++ later', .cons hb (gap.alike hy') hbs, ?_, ?_⟩
    · rw [List.map_cons, List.map_cons, hview, hviews]
    · rw [namesOf_append, namesOf_append, hnames, hlater]

/-- What stands between brackets is alike if the whole is. -/
theorem alike_enclosed {l r : Token} (hx : Alike (l :: (g ++ w ++ [r])) x) :
    ∃ l' g' w' r', x = l' :: (g' ++ w' ++ [r']) ∧ l'.kind = l.kind ∧ Alike g g' ∧ Alike w w' ∧
      r'.kind = r.kind := by
  obtain ⟨l', y, rfl, hl, hy⟩ := alike_cons hx
  obtain ⟨y, z, rfl, hy, hz⟩ := alike_append hy
  obtain ⟨g', w', rfl, hg, hw⟩ := alike_append hy
  obtain ⟨r', rfl, hr⟩ := alike_singleton hz
  exact ⟨l', g', w', r', rfl, Token.kind_of_plain hl, hg, hw, Token.kind_of_plain hr⟩

/-! ## Values -/

theorem meaning_bare (text : Bytes) (l l' : Location) :
    (meaning text l').bare id = (meaning text l).bare id := by
  unfold meaning
  repeat' split
  all_goals rfl

theorem namesOf_leaves (text : Bytes) (l l' : Location) :
    namesOf (leaves text l') = namesOf (leaves text l) := by
  unfold leaves
  split <;> rfl

theorem Member.carries {V : Form Node} {e : Entry Node} (h : Member V w e refs)
    (hV : ∀ v n r, V v n r → Carries Value (Node.bare id) v n r) :
    Carries (Member Value) (Node.bareEntry id) w e refs := by
  cases h with
  | mk hkey hbefore hcolon hbehind hvalue =>
    intro x hx
    obtain ⟨k, y, rfl, hk, hy⟩ := alike_cons hx
    obtain ⟨g, y, rfl, hg, hy⟩ := alike_append hy
    obtain ⟨colon, y, rfl, hc, hy⟩ := alike_cons hy
    obtain ⟨h, v, rfl, hh, hv⟩ := alike_append hy
    obtain ⟨n, later, hn, hbare, hnames⟩ := hV _ _ _ hvalue v hv
    refine ⟨_, later, .mk (hkey.alike hk) (hbefore.alike hg) (Token.kind_of_plain hc ▸ hcolon)
      (hbehind.alike hh) hn, ?_, hnames⟩
    rw [Node.bareEntry, Node.bareEntry, hbare]

theorem carries_value (h : Value w n refs) : Carries Value (Node.bare id) w n refs := by
  refine Value.byParts (motive := Carries Value (Node.bare id)) ?string ?textBlock
    ?number ?id ?object
    ?array h
  case string =>
    intro t text hcontent
    exact carries_token fun u hu =>
      ⟨_, [], .string ((Token.content_of_plain hu).trans hcontent), rfl, rfl⟩
  case textBlock =>
    intro t text hcontent
    exact carries_token fun u hu =>
      ⟨_, [], .textBlock ((Token.content_of_plain hu).trans hcontent), rfl, rfl⟩
  case number =>
    intro t value hcontent
    exact carries_token fun u hu =>
      ⟨_, [], .number ((Token.content_of_plain hu).trans hcontent), rfl, rfl⟩
  case id =>
    intro t w text hid x hx
    obtain ⟨u, y, rfl, hu, hy⟩ := alike_cons hx
    exact ⟨_, _, .id (hid.alike hx), meaning_bare _ _ _, namesOf_leaves _ _ _⟩
  case object =>
    intro l r g w entries refs hopen hg hm hclose x hx
    obtain ⟨l', g', w', r', rfl, hl, hg', hw', hr⟩ := alike_enclosed hx
    obtain ⟨es, later, hes, hbare, hnames⟩ :=
      hm.carries (fun _ _ _ he => he.carries fun _ _ _ hn => hn) w' hw'
    refine ⟨_, later, .object (hl.trans hopen) (hg.alike hg') hes (hr.trans hclose), ?_, hnames⟩
    rw [Node.bare_object, Node.bare_object, hbare]
  case array =>
    intro l r g w items refs hopen hg hm hclose x hx
    obtain ⟨l', g', w', r', rfl, hl, hg', hw', hr⟩ := alike_enclosed hx
    obtain ⟨ns, later, hns, hbare, hnames⟩ := hm.carries (fun _ _ _ hn => hn) w' hw'
    refine ⟨_, later, .array (hl.trans hopen) (hg.alike hg') hns (hr.trans hclose), ?_, hnames⟩
    rw [Node.bare_array, Node.bare_array, hbare]

/-! ## Traits and statements -/

theorem carries_members {e : Entry Node} {entries : List (Entry Node)}
    (h : Many (Member Value) w (e :: entries) refs) :
    Carries (Many (Member Value)) (List.map (Node.bareEntry id)) w (e :: entries) refs :=
  h.carries fun _ _ _ he => he.carries fun _ _ _ hn => carries_value hn

/-- Bodies of traits at different places are bare values of one form. -/
theorem carries_body {place : Location} (place' : Location) (h : Body place w n refs) :
    Carries (Body place') (Node.bare id) w n refs := by
  cases h with
  | object hopen hv =>
    intro x hx
    obtain ⟨l', y, rfl, hl, hy⟩ := alike_cons hx
    obtain ⟨m, later, hm, hbare, hnames⟩ := carries_value hv _ hx
    exact ⟨m, later, .object (Token.kind_of_plain hl ▸ hopen) hm, hbare, hnames⟩
  | array hopen hv =>
    intro x hx
    obtain ⟨l', y, rfl, hl, hy⟩ := alike_cons hx
    obtain ⟨m, later, hm, hbare, hnames⟩ := carries_value hv _ hx
    exact ⟨m, later, .array (Token.kind_of_plain hl ▸ hopen) hm, hbare, hnames⟩
  | textBlock hcontent =>
    exact carries_token fun u hu =>
      ⟨_, [], .textBlock ((Token.content_of_plain hu).trans hcontent), rfl, rfl⟩
  | number hcontent =>
    exact carries_token fun u hu =>
      ⟨_, [], .number ((Token.content_of_plain hu).trans hcontent), rfl, rfl⟩
  | string hcontent =>
    exact carries_token fun u hu =>
      ⟨_, [], .string ((Token.content_of_plain hu).trans hcontent), rfl, rfl⟩
  | name hcontent =>
    refine carries_token fun u hu => ?_
    rw [← Token.lexeme_of_plain hu]
    exact ⟨_, _, .name ((Token.content_of_plain hu).trans hcontent), meaning_bare _ _ _,
      namesOf_leaves _ _ _⟩
  | @members _ e entries _ hm =>
    intro x hx
    obtain ⟨es, later, hes, hbare, hnames⟩ := carries_members hm x hx
    obtain ⟨e', entries', rfl, he, hentries⟩ := List.map_eq_cons_iff.mp hbare
    refine ⟨_, later, .members hes, ?_, hnames⟩
    rw [Node.bare_object, Node.bare_object, hbare]

theorem carries_trait {t : ShapeTraits.Trait} (h : Trait w t refs) :
    Carries Trait ShapeTraits.Trait.bare w t refs := by
  intro x hx
  cases h with
  | bare hsign hid =>
    obtain ⟨sign, y, rfl, hs, hy⟩ := alike_cons hx
    exact ⟨_, [], .bare (Token.kind_of_plain hs ▸ hsign) (hid.alike hy), rfl, rfl⟩
  | empty hsign hid hopen hg hclose =>
    obtain ⟨sign, y, rfl, hs, hy⟩ := alike_cons hx
    obtain ⟨w', y, rfl, hw', hy⟩ := alike_append hy
    obtain ⟨l, y, rfl, hl, hy⟩ := alike_cons hy
    obtain ⟨g', y, rfl, hg', hy⟩ := alike_append hy
    obtain ⟨r, rfl, hr⟩ := alike_singleton hy
    exact ⟨_, [], .empty (Token.kind_of_plain hs ▸ hsign) (hid.alike hw')
      (Token.kind_of_plain hl ▸ hopen) (hg.alike hg') (Token.kind_of_plain hr ▸ hclose),
      rfl, rfl⟩
  | value hsign hid hopen hg hb hh hclose =>
    obtain ⟨sign, y, rfl, hs, hy⟩ := alike_cons hx
    obtain ⟨w', y, rfl, hw', hy⟩ := alike_append hy
    obtain ⟨l, y, rfl, hl, hy⟩ := alike_cons hy
    obtain ⟨y, z, rfl, hy, hz⟩ := alike_append hy
    obtain ⟨y, h', rfl, hy, hh'⟩ := alike_append hy
    obtain ⟨g', b', rfl, hg', hb'⟩ := alike_append hy
    obtain ⟨r, rfl, hr⟩ := alike_singleton hz
    obtain ⟨m, later, hm, hbare, hnames⟩ := carries_body sign.start hb b' hb'
    refine ⟨_, later, .value (Token.kind_of_plain hs ▸ hsign) (hid.alike hw')
      (Token.kind_of_plain hl ▸ hopen) (hg.alike hg') hm (hh.alike hh')
      (Token.kind_of_plain hr ▸ hclose), ?_, hnames⟩
    rw [ShapeTraits.Trait.bare, ShapeTraits.Trait.bare, hbare]

theorem carries_traits {ts : List ShapeTraits.Trait} (h : Traits w ts refs) :
    Carries Traits (List.map ShapeTraits.Trait.bare) w ts refs := by
  intro x hx
  cases h with
  | one ht =>
    obtain ⟨t', later, ht', hbare, hnames⟩ := carries_trait ht x hx
    exact ⟨[t'], later, .one ht', by rw [List.map_singleton, List.map_singleton, hbare], hnames⟩
  | block hopen hg hm hclose =>
    obtain ⟨l', g', w', r', rfl, hl, hg', hw', hr⟩ := alike_enclosed hx
    obtain ⟨ts', later, hts', hbare, hnames⟩ := hm.carries (fun _ _ _ ht => carries_trait ht) w' hw'
    exact ⟨ts', later, .block (hl.trans hopen) (hg.alike hg') hts' (hr.trans hclose), hbare, hnames⟩

theorem carries_statement {s : Apply} (h : Statement w s refs) :
    Carries Statement Apply.bare w s refs := by
  intro x hx
  cases h with
  | mk hname hkeyword hblank hg hid hh hts =>
    obtain ⟨first, y, rfl, hf, hy⟩ := alike_cons hx
    obtain ⟨blank, y, rfl, hb, hy⟩ := alike_cons hy
    obtain ⟨y, ts, rfl, hy, hts'⟩ := alike_append hy
    obtain ⟨y, h', rfl, hy, hh'⟩ := alike_append hy
    obtain ⟨g', w', rfl, hg', hw'⟩ := alike_append hy
    obtain ⟨traits, later, htraits, hbare, hnames⟩ := carries_traits hts ts hts'
    refine ⟨_, later, .mk ((Token.content_of_plain hf).trans hname)
      ((Token.lexeme_of_plain hf).trans hkeyword) (Token.kind_of_plain hb ▸ hblank) (hg.alike hg')
      (hid.alike hw') (hh.alike hh') htraits, ?_, hnames⟩
    rw [Apply.bare, Apply.bare, hbare]

end Grammar

end ShapeTraits
