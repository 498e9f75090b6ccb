-- Two runs in step. Wherever two cursors are in a relation that every single step
-- keeps, each reader does with both of them what it should: both runs succeed with
-- related answers or both fail, and the cursors are in the relation again.
import Mathlib.Data.List.Forall2
import ShapeTraits.Proofs.Composition
import ShapeTraits.Proofs.Relocation

namespace ShapeTraits

open Cursor

/-! ## What two runs have in common -/

/-- The kinds of tokens at which nothing begins: those of gaps, errors, and the end. -/
def Token.Kind.isIdle (k : Token.Kind) : Bool := k.isGap || k == .error || k == .eof

theorem Token.Kind.isIdle_eq_false {k : Kind} :
    k.isIdle = false ↔ k.isGap = false ∧ k ≠ .error ∧ k ≠ .eof := by
  rw [isIdle, Bool.or_eq_false_iff, Bool.or_eq_false_iff, beq_eq_false_iff_ne,
    beq_eq_false_iff_ne, and_assoc]

theorem Token.Kind.isIdle_of {k : Kind} (h : k.isGap = true ∨ k = .eof) : k.isIdle = true := by
  rcases h with h | rfl
  · rw [isIdle, h]
    rfl
  · rfl

/-- What two runs see at once: the same token in related places, or two tokens at which
nothing begins, both of them errors or none. -/
inductive Sight (place : Location → Location → Prop) (t u : Token) : Prop
  | same (plain : u.plain = t.plain) (location : place t.start u.start)
  | idle (first : t.kind.isIdle = true) (second : u.kind.isIdle = true)
      (alike : (u.kind == .error) = (t.kind == .error))

/-- Two tokens of gaps, or ends. -/
theorem Sight.blank {place : Location → Location → Prop} {t u : Token}
    (first : t.kind.isGap = true ∨ t.kind = .eof) (second : u.kind.isGap = true ∨ u.kind = .eof) :
    Sight place t u := by
  have hne {k : Token.Kind} (h : k.isGap = true ∨ k = .eof) : (k == .error) = false := by
    rcases h with h | rfl
    · exact (by decide : ∀ k : Token.Kind, k.isGap = true → (k == .error) = false) k h
    · rfl
  exact .idle (Token.Kind.isIdle_of first) (Token.Kind.isIdle_of second)
    ((hne second).trans (hne first).symm)

/-- How cursors, places, values and errors of two runs are related. -/
structure Relations where
  cursor : Cursor → Cursor → Prop
  place : Location → Location → Prop
  node : Node → Node → Prop
  blame : ParseError → ParseError → Prop

namespace Relations

variable (S : Relations)

/-- The entries have the same key and related values. -/
structure Entries (e e' : Entry Node) : Prop where
  key : e'.key = e.key
  location : S.place e.keyLocation e'.keyLocation
  value : S.node e.value e'.value

/-- The entries are related one by one. -/
def Members (m m' : KeyedList Node) : Prop := List.Forall₂ S.Entries m.entries m'.entries

structure Traits (t t' : Trait) : Prop where
  name : t'.name = t.name
  kind : t'.kind = t.kind
  value : S.node t.value t'.value
  location : S.place t.location t'.location

structure Statements (s s' : Apply) : Prop where
  target : s'.target = s.target
  location : S.place s.location s'.location
  traits : List.Forall₂ S.Traits s.traits s'.traits

/-- Two runs end in step: with related answers or with related errors, and at related
cursors. -/
inductive InStep {α β : Type} (R : α → β → Prop) :
    Except ParseError α × Cursor → Except ParseError β × Cursor → Prop
  | ok {a b d d'} (answer : R a b) (cursor : S.cursor d d') : InStep R (.ok a, d) (.ok b, d')
  | error {e e' d d'} (blame : S.blame e e') (cursor : S.cursor d d') :
      InStep R (.error e, d) (.error e', d')

/-- Every single step keeps the relations. -/
structure Kept (r r' : Resolver) : Prop where
  sight {c c'} : S.cursor c c' → Sight S.place c.current c'.current
  limit {c c'} : S.cursor c c' → c'.limit = c.limit
  depth {c c'} : S.cursor c c' → c'.depth = c.depth
  advance {c c'} : S.cursor c c' → c.kind.isIdle = false → S.cursor c.advance c'.advance
  skipGap {c c'} : S.cursor c c' → S.cursor c.skipGap c'.skipGap
  note {c c'} (e e' : Log.Event) : S.cursor c c' → S.cursor (c.note e) (c'.note e')
  enter {c c'} : S.cursor c c' → S.cursor c.enter c'.enter
  leave {c c'} : S.cursor c c' → S.cursor c.leave c'.leave
  refuse {c c'} (cause : Token → ParseError.Cause) (grammar : ∀ t, (cause t).kind = .grammar)
    (faults : ∀ t f, t.content = .error f → (cause t).message = f.message) : S.cursor c c' →
    S.blame ⟨cause c.current, c.location⟩ ⟨cause c'.current, c'.location⟩
  tooDeep {c c'} : S.cursor c c' → S.blame c.tooDeep c'.tooDeep
  twice {l l'} (owner : MemberOwner) (key : Bytes) : S.place l l' →
    S.blame ⟨.duplicateMember owner key, l⟩ ⟨.duplicateMember owner key, l'⟩
  null {l l'} : S.place l l' → S.node (.null l) (.null l')
  number {l l'} (value : Number) : S.place l l' → S.node (.number l value) (.number l' value)
  string {l l'} (text : Bytes) : S.place l l' → S.node (.string l text) (.string l' text)
  array {l l' items items'} : S.place l l' → List.Forall₂ S.node items items' →
    S.node (.array l items) (.array l' items')
  object {l l' m m'} : S.place l l' → S.Members m m' → S.node (.object l m) (.object l' m')
  resolve {l l' c c'} (name : Bytes) : S.place l l' → S.cursor c c' →
    S.InStep S.node (r.resolve name l c) (r'.resolve name l' c')

end Relations

/-- What two lists have in common item by item, they have in common. -/
theorem map_eq_of_forall₂ {α β : Type} {R : α → α → Prop} {view : α → β} {as bs : List α}
    (h : List.Forall₂ R as bs) (hR : ∀ a b, R a b → view b = view a) :
    bs.map view = as.map view := by
  induction h with
  | nil => rfl
  | cons h _ ih => rw [List.map_cons, List.map_cons, hR _ _ h, ih]

/-- The blank behind the first word of a statement, and the target. -/
def Apply.readBehindKeyword : Reading Bytes := do
  Reading.expect [.space, .newline]
  Reading.skipTrivia
  ShapeId.read

/-- The first word of a statement, the blank behind it and the target. -/
def Apply.readTarget : Reading Bytes := do
  readKeyword
  readBehindKeyword

theorem Apply.read_eq_target (r : Resolver) : read r =
    (Reading.location >>= fun l => readTarget >>= fun target => Reading.skipTrivia >>= fun _ =>
      readTraits r >>= fun traits => Reading.note (.applied target traits.length) >>= fun _ =>
        pure ⟨target, l, traits⟩) := by
  funext c
  rw [read, readTarget, Reading.location_bind, Reading.location_bind, Reading.bind_assoc]
  simp only [readBehindKeyword, Reading.bind_assoc]

theorem Apply.content_of_target {c d : Cursor} {id : Bytes} (h : readTarget c = (.ok id, d)) :
    c.current.content = .identifier := by
  obtain ⟨_, _, hkeyword, -⟩ := Reading.bind_eq_ok.mp h
  exact (readKeyword_eq_ok.mp hkeyword).1

/-! ## Where nothing begins -/

section Idle

variable {c : Cursor}

theorem Member.key_of_idle (expected : List Token.Kind) (h : c.kind.isIdle = true) :
    key expected c = Reading.unexpected expected c := by
  rw [key, Reading.current_bind]
  rw [Cursor.kind, Token.kind] at h
  cases hcontent : c.current.content with
  | string | identifier =>
    rw [hcontent] at h
    cases h
  | _ => rfl

theorem Node.readWith_of_idle (r : Resolver) (inner : Reading Node) (given : Option Location)
    (h : c.kind.isIdle = true) : readWith r inner given c = Reading.unexpected firstKinds c := by
  rw [readWith, Reading.current_bind]
  rw [Cursor.kind, Token.kind] at h
  cases hcontent : c.current.content with
  | string | textBlock | number | identifier | leftBrace | leftBracket =>
    rw [hcontent] at h
    cases h
  | _ => rfl

theorem Trait.readBody_of_idle (r : Resolver) (l : Location) (h : c.kind.isIdle = true) :
    readBody r l c = Reading.unexpected firstKinds c := by
  rw [readBody, Reading.current_bind]
  rw [Cursor.kind, Token.kind] at h
  cases hcontent : c.current.content with
  | string | textBlock | number | identifier | leftBrace | leftBracket =>
    rw [hcontent] at h
    cases h
  | _ => rfl

theorem Apply.readTraits_of_idle (r : Resolver) (h : c.kind.isIdle = true) :
    readTraits r c = Reading.unexpected [.at, .leftBrace] c := by
  rw [readTraits, Reading.kind_bind]
  cases hk : c.kind with
  | «at» | leftBrace =>
    rw [hk] at h
    cases h
  | _ => rfl

end Idle

namespace Relations.Kept

variable {S : Relations} {r r' : Resolver} {α β γ δ : Type} {R : α → β → Prop} {Q : γ → δ → Prop}
  {c c' : Cursor} {kinds : List Token.Kind} {k : Token.Kind}

/-! ## Sequences -/

/-- Behind a first step in step, two runs go on in step. -/
theorem bind {first : Reading α} {first' : Reading β} {next : α → Reading γ} {next' : β → Reading δ}
    (hfirst : S.InStep R (first c) (first' c'))
    (hnext : ∀ {a b d d'}, first c = (.ok a, d) → first' c' = (.ok b, d') → R a b → S.cursor d d' →
      S.InStep Q (next a d) (next' b d')) :
      S.InStep Q ((first >>= next) c) ((first' >>= next') c') := by
  rcases hf : first c with ⟨answer, d⟩
  rcases hf' : first' c' with ⟨answer', d'⟩
  rw [hf, hf'] at hfirst
  cases hfirst with
  | ok answer cursor =>
    rw [Reading.bind_of_ok hf, Reading.bind_of_ok hf']
    exact hnext hf hf' answer cursor
  | error blame cursor =>
    rw [Reading.bind_of_error hf, Reading.bind_of_error hf']
    exact .error blame cursor

/-- A loop in step. The places where the loop is at may be known to be good ones. -/
theorem untilKind {stop : Token.Kind → Bool} {step : α → Reading α} {step' : β → Reading β}
    (good : Cursor → Prop)
    (hstop : ∀ {c c'}, S.cursor c c' → good c → good c' → stop c'.kind = stop c.kind)
    (hpass : ∀ {a c b d}, stop c.kind = false → step a c = (.ok b, d) →
      d.ahead.length < c.ahead.length ∧ good d)
    (hpass' : ∀ {a c b d}, stop c.kind = false → step' a c = (.ok b, d) →
      d.ahead.length < c.ahead.length ∧ good d)
    (hstep : ∀ {a b c c'}, R a b → S.cursor c c' → S.InStep R (step a c) (step' b c'))
    {a : α} {b : β} (hR : R a b) (hc : S.cursor c c') (hgood : good c) (hgood' : good c') :
    S.InStep R (Reading.untilKind stop step a c) (Reading.untilKind stop step' b c') := by
  induction hn : c.ahead.length using Nat.strongRecOn generalizing a b c c' with
  | ind n ih =>
    subst hn
    by_cases h : stop c.kind = true
    · rw [Reading.untilKind_stop h, Reading.untilKind_stop ((hstop hc hgood hgood').trans h)]
      exact .ok hR hc
    · rw [Bool.not_eq_true] at h
      have h' := (hstop hc hgood hgood').trans h
      have hnext := hstep hR hc
      rcases hs : step a c with ⟨answer, d⟩
      rcases hs' : step' b c' with ⟨answer', d'⟩
      rw [hs, hs'] at hnext
      cases hnext with
      | error blame cursor =>
        rw [Reading.untilKind_error h hs, Reading.untilKind_error h' hs']
        exact .error blame cursor
      | ok answer cursor =>
        obtain ⟨hlt, hd⟩ := hpass h hs
        obtain ⟨hlt', hd'⟩ := hpass' h' hs'
        rw [Reading.untilKind_step h hs hlt, Reading.untilKind_step h' hs' hlt']
        exact ih _ hlt answer cursor hd hd' rfl

/-- Related members have the same keys. -/
theorem contains_eq {m m' : KeyedList Node} (hm : S.Members m m') (key : Bytes) :
    m'.contains key = m.contains key := by
  obtain ⟨entries⟩ := m
  obtain ⟨entries'⟩ := m'
  rw [KeyedList.contains, KeyedList.contains, KeyedList.find?, KeyedList.find?]
  dsimp only [Members] at hm ⊢
  induction hm with
  | nil => rfl
  | @cons e e' _ _ he _ ih =>
    rw [List.find?_cons, List.find?_cons, he.key]
    cases e.key == key with
    | true => rfl
    | false => exact ih

variable (hS : S.Kept r r')

include hS

/-! ## What is seen -/

theorem idle (hc : S.cursor c c') : c'.kind.isIdle = c.kind.isIdle := by
  cases hS.sight hc with
  | same plain _ => exact congrArg Token.Kind.isIdle (Token.kind_of_plain plain)
  | idle first second _ => exact second.trans first.symm

theorem same (hc : S.cursor c c') (hk : c.kind.isIdle = false) :
    c'.current.plain = c.current.plain ∧ S.place c.location c'.location := by
  cases hS.sight hc with
  | same plain location => exact ⟨plain, location⟩
  | idle first _ _ => exact absurd (first.symm.trans hk) (by decide)

theorem kind_iff (hc : S.cursor c c') (hk : k.isIdle = false) : c'.kind = k ↔ c.kind = k := by
  constructor
  · rintro rfl
    exact (Token.kind_of_plain (hS.same hc ((hS.idle hc).symm.trans hk)).1).symm
  · rintro rfl
    exact Token.kind_of_plain (hS.same hc hk).1

/-- What does not tell idle kinds apart tells the same of what both runs see. -/
theorem uniform {p : Token.Kind → Bool} (hp : ∀ k, k.isIdle = true → p k = p .eof)
    (hc : S.cursor c c') : p c'.kind = p c.kind := by
  cases hS.sight hc with
  | same plain _ => exact congrArg p (Token.kind_of_plain plain)
  | idle first second _ => exact (hp _ second).trans (hp _ first).symm

theorem unexpected (kinds : List Token.Kind) (hc : S.cursor c c') :
    S.InStep R (Reading.unexpected kinds c) (Reading.unexpected kinds c') := by
  rw [Reading.unexpected_eq, Reading.unexpected_eq]
  exact .error
    (hS.refuse _ (Token.unexpectedCause_grammar kinds) (Token.unexpectedCause_faults kinds) hc) hc

theorem expect {next : Unit → Reading α} {next' : Unit → Reading β}
    (hkinds : ∀ k ∈ kinds, k.isIdle = false) (hc : S.cursor c c')
    (hnext : c.kind ∈ kinds → S.InStep R (next () c) (next' () c')) :
    S.InStep R ((Reading.expect kinds >>= next) c) ((Reading.expect kinds >>= next') c') := by
  have hiff : c'.kind ∈ kinds ↔ c.kind ∈ kinds :=
    ⟨fun h => (hS.kind_iff hc (hkinds _ h)).mp rfl ▸ h,
      fun h => (hS.kind_iff hc (hkinds _ h)).mpr rfl ▸ h⟩
  by_cases h : c.kind ∈ kinds
  · rw [Reading.expect_bind_of_mem h, Reading.expect_bind_of_mem (hiff.mpr h)]
    exact hnext h
  · rw [Reading.expect_bind_of_not_mem h, Reading.expect_bind_of_not_mem (mt hiff.mp h)]
    exact hS.unexpected kinds hc

theorem test {yes no : Reading α} {yes' no' : Reading β} (hk : k.isIdle = false)
    (hc : S.cursor c c')
    (hyes : c.kind = k → S.InStep R (yes c) (yes' c')) (hno : S.InStep R (no c) (no' c')) :
    S.InStep R ((if c.kind = k then yes else no) c) ((if c'.kind = k then yes' else no') c') := by
  by_cases h : c.kind = k
  · rw [if_pos h, if_pos ((hS.kind_iff hc hk).mpr h)]
    exact hyes h
  · rw [if_neg h, if_neg (mt (hS.kind_iff hc hk).mp h)]
    exact hno

/-! ## Loops and levels -/

/-- A loop whose end does not depend on what kind an idle token is of. -/
theorem loop {stop : Token.Kind → Bool} {step : α → Reading α} {step' : β → Reading β}
    (hstop : ∀ k, k.isIdle = true → stop k = stop .eof)
    (hpass : ∀ a, Reading.Passes (step a)) (hpass' : ∀ b, Reading.Passes (step' b))
    (hstep : ∀ {a b c c'}, R a b → S.cursor c c' → S.InStep R (step a c) (step' b c'))
    {a : α} {b : β} (hR : R a b) (hc : S.cursor c c') :
    S.InStep R (Reading.untilKind stop step a c) (Reading.untilKind stop step' b c') :=
  untilKind (fun _ => True) (fun hc _ _ => hS.uniform hstop hc)
    (fun _ hs => ⟨hpass _ _ _ _ hs, trivial⟩) (fun _ hs => ⟨hpass' _ _ _ _ hs, trivial⟩)
    hstep hR hc trivial trivial

theorem nested {read : Reading α} {read' : Reading β} (hc : S.cursor c c')
    (hread : S.InStep R (read c.enter) (read' c'.enter)) :
    S.InStep R (Reading.nested read c) (Reading.nested read' c') := by
  have hlimit := hS.limit hc
  have hdepth := hS.depth hc
  rcases Nat.lt_or_ge c.depth c.limit with h | h
  · rw [Reading.nested_of_lt h, Reading.nested_of_lt (by rw [hlimit, hdepth]; exact h)]
    generalize read c.enter = found at hread
    generalize read' c'.enter = found' at hread
    cases hread with
    | ok answer cursor => exact .ok answer (hS.leave cursor)
    | error blame cursor => exact .error blame (hS.leave cursor)
  · rw [Reading.nested_of_le h, Reading.nested_of_le (by rw [hlimit, hdepth]; exact h)]
    exact .error (hS.tooDeep (hS.enter hc)) (hS.leave (hS.enter hc))

theorem thenGap {read : Reading α} {read' : Reading β} (hread : S.InStep R (read c) (read' c')) :
    S.InStep R (read.andAlways Cursor.skipGap c) (read'.andAlways Cursor.skipGap c') := by
  rw [Reading.andAlways_apply, Reading.andAlways_apply]
  generalize read c = found at hread
  generalize read' c' = found' at hread
  cases hread with
  | ok answer cursor => exact .ok answer (hS.skipGap cursor)
  | error blame cursor => exact .error blame (hS.skipGap cursor)

theorem gather {read : Reading α} {read' : Reading β} {as : List α} {bs : List β}
    (hread : S.InStep R (read c) (read' c')) (has : List.Forall₂ R as bs) :
    S.InStep (List.Forall₂ R) (Reading.gather read as c) (Reading.gather read' bs c') :=
  bind hread fun _ _ hR hd => .ok (List.rel_append has (.cons hR .nil)) (hS.skipGap hd)

/-! ## Ids -/

theorem name (id : Bytes) (hc : S.cursor c c') :
    S.InStep Eq (ShapeId.name id c) (ShapeId.name id c') := by
  refine hS.expect (by decide) hc fun hk => ?_
  have hidle : c.kind.isIdle = false := by rw [List.mem_singleton.mp hk]; rfl
  rw [Reading.current_bind, Reading.advance_bind, Reading.current_bind, Reading.advance_bind]
  exact .ok (by rw [Token.lexeme_of_plain (hS.same hc hidle).1]) (hS.advance hc hidle)

theorem part {sign : Token.Kind} (hsign : sign.isIdle = false) (mark : Bytes) {id id' : Bytes}
    (hid : id = id') (hc : S.cursor c c') :
    S.InStep Eq (ShapeId.part sign mark id c) (ShapeId.part sign mark id' c') := by
  subst hid
  rw [ShapeId.part, Reading.kind_bind, Reading.kind_bind]
  refine hS.test hsign hc (fun hk => ?_) (.ok rfl hc)
  exact hS.name _ (hS.advance hc (by rw [hk]; exact hsign))

theorem shapeId (hc : S.cursor c c') : S.InStep Eq (ShapeId.read c) (ShapeId.read c') := by
  have hpass {a b : Bytes} {c d : Cursor} (hk : (c.kind != .dot) = false)
      (h : ShapeId.part .dot (utf8 ".") a c = (.ok b, d)) :
        d.ahead.length < c.ahead.length ∧ True := by
    rw [bne_eq_false_iff_eq] at hk
    exact ⟨passes_part (by decide) hk h, trivial⟩
  refine bind (hS.name [] hc) fun _ _ hfirst hd => ?_
  refine bind (untilKind (fun _ => True) (fun hc _ _ => hS.uniform (by decide) hc) hpass hpass
    (fun hid hc => hS.part rfl _ hid hc) hfirst hd trivial trivial) fun _ _ hsegments hd => ?_
  refine bind (hS.part rfl _ hsegments hd) fun _ _ hshape hd => ?_
  exact hS.part rfl _ hshape hd

/-! ## Members -/

theorem key (expected : List Token.Kind) (hc : S.cursor c c') :
    S.InStep (fun k k' => k'.1 = k.1 ∧ S.place k.2 k'.2) (Member.key expected c)
      (Member.key expected c') := by
  cases hS.sight hc with
  | idle first second _ =>
    rw [Member.key_of_idle expected first, Member.key_of_idle expected second]
    exact hS.unexpected expected hc
  | same plain location =>
    rw [Member.key, Reading.current_bind, Reading.current_bind, Token.content_of_plain plain]
    cases c.current.content with
    | string text => exact .ok ⟨rfl, location⟩ hc
    | identifier => exact .ok ⟨Token.lexeme_of_plain plain, location⟩ hc
    | _ => exact hS.unexpected expected hc

theorem colon (hc : S.cursor c c') : S.InStep Eq (Member.colon c) (Member.colon c') := by
  rw [Member.colon, Reading.skipGap_bind, Reading.skipGap_bind]
  have hskip := hS.skipGap hc
  refine hS.expect (by decide) hskip fun hk => ?_
  have hidle : c.skipGap.kind.isIdle = false := by rw [List.mem_singleton.mp hk]; rfl
  rw [Reading.advance_bind, Reading.advance_bind]
  exact .ok rfl (hS.skipGap (hS.advance hskip hidle))

/-- A value under a key joins the members in both runs, or the key is there in both. -/
theorem insert (owner : MemberOwner) {k k' : Bytes × Location} {m m' : KeyedList Node} {n n' : Node}
    (hk : k'.1 = k.1 ∧ S.place k.2 k'.2) (hm : S.Members m m') (hn : S.node n n')
    (hc : S.cursor c c') :
    S.InStep S.Members (Member.insert owner k m n c) (Member.insert owner k' m' n' c') := by
  obtain ⟨hname, hl⟩ := hk
  rw [Member.insert, Member.insert, KeyedList.insert?, KeyedList.insert?, hname, contains_eq hm]
  by_cases h : m.contains k.1 = true
  · rw [if_pos h, if_pos h]
    exact .error (hS.twice owner k.1 hl) hc
  · rw [if_neg h, if_neg h]
    exact .ok (List.rel_append hm (.cons ⟨rfl, hl, hn⟩ .nil)) (hS.skipGap hc)

theorem member (owner : MemberOwner) (expected : List Token.Kind) {value value' : Reading Node}
    (hvalue : ∀ {c c'}, S.cursor c c' → S.InStep S.node (value c) (value' c'))
    {m m' : KeyedList Node} (hm : S.Members m m') (hc : S.cursor c c') :
    S.InStep S.Members (Member.read owner expected value m c)
      (Member.read owner expected value' m' c') := by
  rw [Member.read_eq, Member.read_eq]
  refine bind (hS.key expected hc) fun {_ _ d _} hkey _ hk hd => ?_
  obtain ⟨hisKey, -, hstay⟩ := Member.key_eq_ok.mp hkey
  rw [Reading.advance_bind, Reading.advance_bind]
  have hidle : d.kind.isIdle = false := by
    rw [hstay]
    exact (by decide : ∀ k ∈ [Token.Kind.identifier, .string], k.isIdle = false) _ hisKey.kind_mem
  refine bind (hS.colon (hS.advance hd hidle)) fun _ _ _ hd => ?_
  exact bind (hvalue hd) fun _ _ hn hd => hS.insert owner hk hm hn hd

theorem enclosed {stop : Token.Kind → Bool} {step : α → Reading α} {step' : β → Reading β}
    {make : Location → α → γ} {make' : Location → β → δ} {a : α} {b : β}
    (hstop : ∀ k, k.isIdle = true → stop k = false)
    (hpass : ∀ a, Reading.Passes (step a)) (hpass' : ∀ b, Reading.Passes (step' b))
    (hstep : ∀ {a b c c'}, R a b → S.cursor c c' → S.InStep R (step a c) (step' b c'))
    (hmake : ∀ {a b l l'}, S.place l l' → R a b → Q (make l a) (make' l' b))
    (hR : R a b) (hc : S.cursor c c') (hopen : c.kind.isIdle = false) :
    S.InStep Q (Reading.nested (Reading.enclosed stop step a make) c)
      (Reading.nested (Reading.enclosed stop step' b make') c') := by
  refine hS.nested hc ?_
  have henter := hS.enter hc
  rw [Reading.enclosed, Reading.enclosed, Reading.location_bind, Reading.location_bind,
    Reading.advance_bind, Reading.advance_bind, Reading.skipGap_bind, Reading.skipGap_bind]
  have hstart := hS.skipGap (hS.advance henter hopen)
  refine bind
    (hS.loop (fun k hk => (hstop k hk).trans (hstop _ rfl).symm) hpass hpass' hstep hR hstart)
    fun {_ _ d _} hloop _ hR hd => ?_
  have hclose : d.kind.isIdle = false := by
    rw [Bool.eq_false_iff]
    exact fun h => Bool.eq_false_iff.mp (hstop _ h) (Reading.untilKind_stops hpass hloop)
  exact .ok (hmake (hS.same henter hopen).2 hR) (hS.advance hd hclose)

/-! ## Values -/

theorem valueWith {inner inner' : Reading Node} (hlocal : Composed True inner)
    (hlocal' : Composed True inner') (hpass : inner.Passes) (hpass' : inner'.Passes)
    (hinner : ∀ {c c'}, S.cursor c c' → S.InStep S.node (inner c) (inner' c'))
    {given given' : Option Location} (hgiven : Option.Rel S.place given given')
    (hc : S.cursor c c') :
    S.InStep S.node (Node.readWith r inner given c) (Node.readWith r' inner' given' c') := by
  cases hS.sight hc with
  | idle first second _ =>
    rw [Node.readWith_of_idle r inner given first, Node.readWith_of_idle r' inner' given' second]
    exact hS.unexpected _ hc
  | same plain location =>
    have hplace : S.place (given.getD c.current.start) (given'.getD c'.current.start) := by
      cases hgiven with
      | none => exact location
      | some h => exact h
    have hadvance (h : c.kind.isIdle = false) := hS.advance hc h
    rw [Node.readWith, Reading.current_bind, Node.readWith, Reading.current_bind,
      Token.content_of_plain plain]
    rw [Cursor.kind, Token.kind] at hadvance
    have hopen : c.current.content.kind.isIdle = c.kind.isIdle := rfl
    cases hcontent : c.current.content with
    | string text | textBlock text =>
      rw [hcontent] at hadvance
      exact .ok (hS.string text hplace) (hadvance rfl)
    | number value =>
      rw [hcontent] at hadvance
      exact .ok (hS.number value hplace) (hadvance rfl)
    | identifier => exact bind (hS.shapeId hc) fun _ _ hid hd => hid ▸ hS.resolve _ hplace hd
    | leftBrace =>
      rw [hcontent] at hopen
      exact hS.enclosed (by decide) (passes_member _ _ hlocal) (passes_member _ _ hlocal')
        (fun hm hc => hS.member _ _ hinner hm hc) (fun hl hm => hS.object hl hm) .nil hc hopen.symm
    | leftBracket =>
      rw [hcontent] at hopen
      exact hS.enclosed (by decide) hpass.gather hpass'.gather
        (fun has hc => hS.gather (hinner hc) has) (fun hl has => hS.array hl has) .nil hc hopen.symm
    | _ => exact hS.unexpected _ hc

theorem valueWithin (k : Nat) {given given' : Option Location}
    (hgiven : Option.Rel S.place given given') (hc : S.cursor c c') :
    S.InStep S.node (Node.readWithin r k given c) (Node.readWithin r' k given' c') := by
  induction k generalizing given given' c c' with
  | zero =>
    have hnone : (Reading.unexpected [] : Reading Node).Passes := fun _ _ _ hread => by cases hread
    exact hS.valueWith (.unexpected []) (.unexpected []) hnone hnone (hS.unexpected []) hgiven hc
  | succ k ih =>
    exact hS.valueWith (.valueWithin r k none) (.valueWithin r' k none)
      (passes_valueWithin r k none)
      (passes_valueWithin r' k none) (ih .none) hgiven hc

theorem value {given given' : Option Location} (hgiven : Option.Rel S.place given given')
    (hc : S.cursor c c') : S.InStep S.node (Node.read r given c) (Node.read r' given' c') := by
  rw [Node.read, Node.read, hS.limit hc, hS.depth hc]
  exact hS.valueWithin _ hgiven hc

/-! ## Traits -/

theorem members (name : Bytes) {l l' : Location} (hl : S.place l l') (hc : S.cursor c c') :
    S.InStep S.node (Trait.readMembers r name l c) (Trait.readMembers r' name l' c') := by
  refine hS.nested hc ?_
  refine bind (hS.value .none (hS.enter hc)) fun _ _ hn hd => ?_
  rw [Reading.skipGap_bind, Reading.skipGap_bind]
  refine bind (hS.loop (R := S.Members) (by decide) (passes_member _ _ (.value r none))
    (passes_member _ _ (.value r' none)) (fun hm hc => hS.member _ _ (hS.value .none) hm hc) ?_
      (hS.skipGap hd))
    fun _ _ hm hd => .ok (hS.object hl hm) hd
  exact .cons ⟨rfl, hl, hn⟩ .nil

theorem keyed (name : Bytes) {l l' : Location} (hl : S.place l l') {alone alone' : Reading Node}
    (halone : ∀ {c c'}, S.cursor c c' → S.InStep S.node (alone c) (alone' c'))
    (hc : S.cursor c c') (hk : c.kind.isIdle = false) :
    S.InStep S.node (Trait.readKeyed r name l alone c) (Trait.readKeyed r' name l' alone' c') := by
  have hnext := hS.skipGap (hS.advance hc hk)
  rw [Trait.readKeyed, Trait.readKeyed, Reading.advance_bind, Reading.advance_bind,
    Reading.skipGap_bind, Reading.skipGap_bind, Reading.kind_bind, Reading.kind_bind]
  refine hS.test rfl hnext (fun hcolon => ?_) (halone hnext)
  exact hS.members name hl (hS.skipGap (hS.advance hnext (by rw [hcolon]; rfl)))

theorem body {l l' : Location} (hl : S.place l l') (hc : S.cursor c c') :
    S.InStep S.node (Trait.readBody r l c) (Trait.readBody r' l' c') := by
  have hvalue := hS.thenGap (hS.value (.some hl) hc)
  cases hS.sight hc with
  | idle first second _ =>
    rw [Trait.readBody_of_idle r l first, Trait.readBody_of_idle r' l' second]
    exact hS.unexpected _ hc
  | same plain location =>
    have hadvance (h : c.kind.isIdle = false) := hS.advance hc h
    have hkeyed (name : Bytes) {alone alone' : Reading Node}
        (halone : ∀ {c c'}, S.cursor c c' → S.InStep S.node (alone c) (alone' c')) :=
      hS.keyed name location halone hc
    rw [Trait.readBody, Reading.current_bind, Trait.readBody, Reading.current_bind,
      Token.content_of_plain plain]
    rw [Cursor.kind, Token.kind] at hadvance hkeyed
    cases hcontent : c.current.content with
    | leftBrace | leftBracket => exact hvalue
    | textBlock text =>
      rw [hcontent] at hadvance
      exact .ok (hS.string text hl) (hS.skipGap (hadvance rfl))
    | number value =>
      rw [hcontent] at hadvance
      exact .ok (hS.number value hl) (hS.skipGap (hadvance rfl))
    | string text =>
      rw [hcontent] at hkeyed
      exact hkeyed text (fun hd => .ok (hS.string text hl) hd) rfl
    | identifier =>
      rw [hcontent] at hkeyed
      dsimp only
      rw [Token.lexeme_of_plain plain]
      exact hkeyed _ (fun hd => hS.resolve _ hl hd) rfl
    | _ => exact hS.unexpected _ hc

theorem traitValue {name name' : Bytes} (hname : name = name') {l l' : Location} (hl : S.place l l')
    (hc : S.cursor c c') :
    S.InStep S.Traits (Trait.readValue r name l c) (Trait.readValue r' name' l' c') := by
  subst hname
  rw [Trait.readValue, Trait.readValue, Reading.kind_bind, Reading.kind_bind]
  refine hS.test rfl hc (fun hopen => ?_) (.ok ⟨rfl, rfl, hS.null hl, hl⟩ (hS.note _ _ hc))
  have hbody := hS.skipGap (hS.advance hc (by rw [hopen]; rfl))
  rw [Reading.advance_bind, Reading.advance_bind, Reading.skipGap_bind, Reading.skipGap_bind,
    Reading.kind_bind, Reading.kind_bind]
  refine hS.test rfl hbody (fun hclose => ?_) ?_
  · exact .ok ⟨rfl, rfl, hS.null hl, hl⟩ (hS.advance hbody (by rw [hclose]; rfl))
  · refine bind (hS.body hl hbody) fun _ _ hn hd => ?_
    rw [Reading.skipGap_bind, Reading.skipGap_bind]
    have hend := hS.skipGap hd
    refine hS.expect (by decide) hend fun hclose => ?_
    exact .ok ⟨rfl, rfl, hn, hl⟩
      (hS.note _ _ (hS.advance hend (by rw [List.mem_singleton.mp hclose]; rfl)))

theorem trait (hc : S.cursor c c') : S.InStep S.Traits (Trait.read r c) (Trait.read r' c') := by
  rw [Trait.read_eq, Trait.read_eq, Reading.location_bind, Reading.location_bind]
  refine hS.expect (by decide) hc fun hsign => ?_
  have hidle : c.kind.isIdle = false := by rw [List.mem_singleton.mp hsign]; rfl
  rw [Reading.advance_bind, Reading.advance_bind]
  exact bind (hS.shapeId (hS.advance hc hidle)) fun _ _ hname hd =>
    hS.traitValue hname (hS.same hc hidle).2 hd

theorem traits (hc : S.cursor c c') :
    S.InStep (List.Forall₂ S.Traits) (Trait.readAll r c) (Trait.readAll r' c') :=
  hS.loop (by decide) (passes_trait r).gather (passes_trait r').gather
    (fun has hc => hS.gather (hS.trait hc) has) .nil hc

theorem behindDocs {docs docs' : Option Trait} (hdocs : Option.Rel S.Traits docs docs')
    (hc : S.cursor c c') : S.InStep (List.Forall₂ S.Traits) (Trait.readBehindDocs r docs c)
      (Trait.readBehindDocs r' docs' c') := by
  refine bind (hS.traits hc) fun _ _ hts hd => .ok (List.rel_append hts ?_) (hS.skipGap hd)
  cases hdocs with
  | none => exact .nil
  | some h => exact .cons h .nil

/-! ## Statements -/

theorem statementTraits (hc : S.cursor c c') :
    S.InStep (List.Forall₂ S.Traits) (Apply.readTraits r c) (Apply.readTraits r' c') := by
  by_cases h : c.kind.isIdle = true
  · rw [Apply.readTraits_of_idle r h, Apply.readTraits_of_idle r' ((hS.idle hc).trans h)]
    exact hS.unexpected _ hc
  · rw [Bool.not_eq_true] at h
    have hk : c'.kind = c.kind := (hS.kind_iff hc h).mpr rfl
    have hadvance := hS.advance hc h
    rw [Apply.readTraits, Apply.readTraits, Reading.kind_bind, Reading.kind_bind, hk]
    cases c.kind with
    | «at» => exact bind (hS.trait hc) fun _ _ ht hd => .ok (.cons ht .nil) hd
    | leftBrace =>
      dsimp only
      rw [Reading.advance_bind, Reading.advance_bind, Reading.skipGap_bind, Reading.skipGap_bind]
      refine bind (hS.traits (hS.skipGap hadvance)) fun _ _ hts hd => ?_
      refine hS.expect (by decide) hd fun hclose => .ok hts (hS.advance hd ?_)
      rw [List.mem_singleton.mp hclose]
      rfl
    | _ => exact hS.unexpected _ hc

section Statements

variable (htrivia : ∀ {c c'}, S.cursor c c' → S.cursor c.skipTrivia c'.skipTrivia)
  (htarget : ∀ {c c'}, S.cursor c c' → S.InStep Eq (Apply.readTarget c) (Apply.readTarget c'))

include htrivia htarget

/-- A statement, if its first word, the blank behind it and its target are read in step. -/
theorem statement (hc : S.cursor c c') :
    S.InStep S.Statements (Apply.read r c) (Apply.read r' c') := by
  rw [Apply.read_eq_target, Apply.read_eq_target, Reading.location_bind, Reading.location_bind]
  refine bind (htarget hc) fun hread _ hid hd => ?_
  have hidle : c.kind.isIdle = false := by
    rw [Cursor.kind, Token.kind, Apply.content_of_target hread]
    rfl
  rw [Reading.skipTrivia_bind, Reading.skipTrivia_bind]
  refine bind (hS.statementTraits (htrivia hd)) fun _ _ hts hd => ?_
  exact .ok ⟨hid.symm, (hS.same hc hidle).2, hts⟩ (hS.note _ _ hd)

/-- What both runs see between statements is the end in both or in none. -/
theorem document (hc : S.cursor c c') :
    S.InStep (List.Forall₂ S.Statements) (Apply.readAll r c) (Apply.readAll r' c') := by
  have hstop {c c' : Cursor} (hc : S.cursor c c') (hgood : c.kind.isGap = false)
      (hgood' : c'.kind.isGap = false) : (c'.kind == .eof) = (c.kind == .eof) := by
    cases hS.sight hc with
    | same plain _ => exact congrArg (· == .eof) (Token.kind_of_plain plain)
    | idle first second alike =>
      have hend : ∀ k : Token.Kind, k.isIdle = true → k.isGap = false →
          (k == .eof) = !(k == .error) := by
        decide
      exact (hend _ second hgood').trans ((congrArg (!·) alike).trans (hend _ first hgood).symm)
  have hpass (r : Resolver) {ss ts : List Apply} {c d : Cursor} (_ : (c.kind == .eof) = false)
      (h : Reading.gather (Apply.read r) ss c = (.ok ts, d)) :
      d.ahead.length < c.ahead.length ∧ d.kind.isGap = false := by
    refine ⟨(passes_statement r).gather _ _ _ _ h, ?_⟩
    obtain ⟨s, e, -, hrest⟩ := Reading.bind_eq_ok.mp h
    cases hrest
    exact skipGap_stops e
  have hstart := hS.skipGap hc
  -- Between statements no gap is seen, so an idle token there is the end.
  exact untilKind _ hstop (hpass r) (hpass r') (fun hss hc =>
    hS.gather (hS.statement htrivia htarget hc) hss)
    .nil hstart (skipGap_stops c) (skipGap_stops c')

end Statements

end Relations.Kept

end ShapeTraits
