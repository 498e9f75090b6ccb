-- The shape of values: how deep they nest, whether the keys of their objects
-- are distinct, and what is left of them without their locations.
import ShapeTraits.Node

namespace ShapeTraits

/-- The largest size of some things, and zero without any. -/
def largest {α : Type} (size : α → Nat) (as : List α) : Nat :=
  as.foldr (fun a k => max (size a) k) 0

section Largest

variable {α : Type} {size : α → Nat}

@[simp] theorem largest_nil : largest size [] = 0 := rfl

@[simp] theorem largest_cons (a : α) (as : List α) :
    largest size (a :: as) = max (size a) (largest size as) := rfl

theorem largest_append (as bs : List α) :
    largest size (as ++ bs) = max (largest size as) (largest size bs) := by
  induction as with
  | nil => exact (Nat.zero_max _).symm
  | cons a as ih => rw [List.cons_append, largest_cons, ih, largest_cons, Nat.max_assoc]

theorem largest_le {as : List α} {k : Nat} : largest size as ≤ k ↔ ∀ a ∈ as, size a ≤ k := by
  induction as with
  | nil => simp
  | cons a as ih => rw [largest_cons, Nat.max_le, ih, List.forall_mem_cons]

end Largest

namespace Node

/-! ## Induction -/

/-- What holds of every leaf, and of every array and object when it holds of the
values inside, holds of every value. -/
@[induction_eliminator]
theorem byParts {motive : Node → Prop} (null : ∀ l, motive (.null l))
    (boolean : ∀ l v, motive (.boolean l v)) (number : ∀ l v, motive (.number l v))
    (string : ∀ l text, motive (.string l text))
    (array : ∀ l items, (∀ n ∈ items, motive n) → motive (.array l items))
    (object : ∀ l entries, (∀ e ∈ entries, motive e.value) → motive (.object l ⟨entries⟩))
    (n : Node) : motive n :=
  @Node.rec motive (fun items => ∀ n ∈ items, motive n) (fun m => ∀ e ∈ m.entries, motive e.value)
    (fun entries => ∀ e ∈ entries, motive e.value) (fun e => motive e.value)
    null boolean number string array (fun l ⟨entries⟩ h => object l entries h)
    (fun _ h => absurd h List.not_mem_nil)
    (fun _ _ hn hrest => List.forall_mem_cons.mpr ⟨hn, hrest⟩)
    (fun _ h => h)
    (fun _ h => absurd h List.not_mem_nil)
    (fun _ _ he hrest => List.forall_mem_cons.mpr ⟨he, hrest⟩)
    (fun _ _ _ h => h) n

/-! ## Depth -/

mutual

/-- How many arrays and objects stand inside one another. -/
def depth : Node → Nat
  | array _ items => depthItems items + 1
  | object _ ⟨entries⟩ => depthMembers entries + 1
  | _ => 0

def depthItems : List Node → Nat
  | [] => 0
  | n :: rest => max (depth n) (depthItems rest)

def depthMembers : List (Entry Node) → Nat
  | [] => 0
  | ⟨_, _, v⟩ :: rest => max (depth v) (depthMembers rest)

end

theorem depthItems_eq (items : List Node) : depthItems items = largest depth items := by
  induction items with
  | nil => rfl
  | cons n rest ih => rw [depthItems, ih, largest_cons]

theorem depthMembers_eq (entries : List (Entry Node)) :
    depthMembers entries = largest (fun e => e.value.depth) entries := by
  induction entries with
  | nil => rfl
  | cons e rest ih => rw [depthMembers, ih, largest_cons]

@[simp] theorem depth_null (l : Location) : (null l).depth = 0 := rfl

@[simp] theorem depth_boolean (l : Location) (v : Bool) : (boolean l v).depth = 0 := rfl

@[simp] theorem depth_number (l : Location) (v : Number) : (number l v).depth = 0 := rfl

@[simp] theorem depth_string (l : Location) (text : Bytes) : (string l text).depth = 0 := rfl

@[simp] theorem depth_array (l : Location) (items : List Node) :
    (array l items).depth = largest depth items + 1 := by
  rw [depth, depthItems_eq]

@[simp] theorem depth_object (l : Location) (entries : List (Entry Node)) :
    (object l ⟨entries⟩).depth = largest (fun e => e.value.depth) entries + 1 := by
  rw [depth, depthMembers_eq]

/-! ## Distinct keys -/

mutual

/-- No object inside has two equal keys. -/
def hasDistinctKeys : Node → Bool
  | array _ items => haveDistinctKeys items
  | object _ ⟨entries⟩ => decide (entries.map (·.key)).Nodup && membersHaveDistinctKeys entries
  | _ => true

def haveDistinctKeys : List Node → Bool
  | [] => true
  | n :: rest => hasDistinctKeys n && haveDistinctKeys rest

def membersHaveDistinctKeys : List (Entry Node) → Bool
  | [] => true
  | ⟨_, _, v⟩ :: rest => hasDistinctKeys v && membersHaveDistinctKeys rest

end

theorem haveDistinctKeys_eq (items : List Node) :
    haveDistinctKeys items = items.all hasDistinctKeys := by
  induction items with
  | nil => rfl
  | cons n rest ih => rw [haveDistinctKeys, ih, List.all_cons]

theorem membersHaveDistinctKeys_eq (entries : List (Entry Node)) :
    membersHaveDistinctKeys entries = entries.all (fun e => e.value.hasDistinctKeys) := by
  induction entries with
  | nil => rfl
  | cons e rest ih => rw [membersHaveDistinctKeys, ih, List.all_cons]

@[simp] theorem hasDistinctKeys_array (l : Location) (items : List Node) :
    (array l items).hasDistinctKeys ↔ ∀ n ∈ items, n.hasDistinctKeys := by
  rw [hasDistinctKeys, haveDistinctKeys_eq, List.all_eq_true]

@[simp] theorem hasDistinctKeys_object (l : Location) (entries : List (Entry Node)) :
    (object l ⟨entries⟩).hasDistinctKeys ↔
      (entries.map (·.key)).Nodup ∧ ∀ e ∈ entries, e.value.hasDistinctKeys := by
  rw [hasDistinctKeys, membersHaveDistinctKeys_eq, Bool.and_eq_true, decide_eq_true_eq,
    List.all_eq_true]

/-! ## Fitting into a number of levels -/

/-- Without equal keys, and not deeper than so many levels. -/
structure Fits (levels : Nat) (n : Node) : Prop where
  distinct : n.hasDistinctKeys
  depth_le : n.depth ≤ levels

theorem fits_of_flat {levels : Nat} {n : Node} (h : n.hasDistinctKeys ∧ n.depth = 0) :
    n.Fits levels :=
  ⟨h.1, by rw [h.2]; exact Nat.zero_le _⟩

theorem fits_array {levels : Nat} {l : Location} {items : List Node} :
    (array l items).Fits levels ↔ ∃ k, levels = k + 1 ∧ ∀ n ∈ items, n.Fits k := by
  constructor
  · rintro ⟨hdistinct, hdepth⟩
    rw [hasDistinctKeys_array] at hdistinct
    rw [depth_array] at hdepth
    obtain ⟨k, rfl⟩ : ∃ k, levels = k + 1 := ⟨levels - 1, by omega⟩
    exact ⟨k, rfl, fun n hn => ⟨hdistinct n hn, largest_le.mp (Nat.le_of_succ_le_succ hdepth) n hn⟩⟩
  · rintro ⟨k, rfl, hitems⟩
    refine ⟨(hasDistinctKeys_array l items).mpr fun n hn => (hitems n hn).distinct, ?_⟩
    rw [depth_array]
    exact Nat.succ_le_succ (largest_le.mpr fun n hn => (hitems n hn).depth_le)

theorem fits_object {levels : Nat} {l : Location} {entries : List (Entry Node)} :
    (object l ⟨entries⟩).Fits levels ↔
      (entries.map (·.key)).Nodup ∧ ∃ k, levels = k + 1 ∧ ∀ e ∈ entries, e.value.Fits k := by
  constructor
  · rintro ⟨hdistinct, hdepth⟩
    rw [hasDistinctKeys_object] at hdistinct
    rw [depth_object] at hdepth
    obtain ⟨k, rfl⟩ : ∃ k, levels = k + 1 := ⟨levels - 1, by omega⟩
    exact ⟨hdistinct.1, k, rfl,
      fun e he => ⟨hdistinct.2 e he, largest_le.mp (Nat.le_of_succ_le_succ hdepth) e he⟩⟩
  · rintro ⟨hkeys, k, rfl, hentries⟩
    refine ⟨(hasDistinctKeys_object l entries).mpr ⟨hkeys, fun e he => (hentries e he).distinct⟩,
      ?_⟩
    rw [depth_object]
    exact Nat.succ_le_succ (largest_le.mpr fun e he => (hentries e he).depth_le)

/-! ## Numbers -/

mutual

/-- The numbers in a value, in their order. -/
def numbers : Node → List Number
  | number _ v => [v]
  | array _ items => numbersOfItems items
  | object _ ⟨entries⟩ => numbersOfMembers entries
  | _ => []

def numbersOfItems : List Node → List Number
  | [] => []
  | n :: rest => numbers n ++ numbersOfItems rest

def numbersOfMembers : List (Entry Node) → List Number
  | [] => []
  | ⟨_, _, v⟩ :: rest => numbers v ++ numbersOfMembers rest

end

@[simp] theorem numbers_array (l : Location) (items : List Node) :
    (array l items).numbers = items.flatMap numbers := by
  rw [numbers]
  induction items with
  | nil => rfl
  | cons n rest ih => rw [numbersOfItems, ih, List.flatMap_cons]

@[simp] theorem numbers_object (l : Location) (entries : List (Entry Node)) :
    (object l ⟨entries⟩).numbers = entries.flatMap fun e => e.value.numbers := by
  rw [numbers]
  induction entries with
  | nil => rfl
  | cons e rest ih => rw [numbersOfMembers, ih, List.flatMap_cons]

/-! ## Strings -/

mutual

/-- The strings and keys in a value, in their order. -/
def strings : Node → List Bytes
  | string _ text => [text]
  | array _ items => stringsOfItems items
  | object _ ⟨entries⟩ => stringsOfMembers entries
  | _ => []

def stringsOfItems : List Node → List Bytes
  | [] => []
  | n :: rest => strings n ++ stringsOfItems rest

def stringsOfMembers : List (Entry Node) → List Bytes
  | [] => []
  | ⟨k, _, v⟩ :: rest => (k :: strings v) ++ stringsOfMembers rest

end

@[simp] theorem strings_array (l : Location) (items : List Node) :
    (array l items).strings = items.flatMap strings := by
  rw [strings]
  induction items with
  | nil => rfl
  | cons n rest ih => rw [stringsOfItems, ih, List.flatMap_cons]

@[simp] theorem strings_object (l : Location) (entries : List (Entry Node)) :
    (object l ⟨entries⟩).strings = entries.flatMap fun e => e.key :: e.value.strings := by
  rw [strings]
  induction entries with
  | nil => rfl
  | cons e rest ih => rw [stringsOfMembers, ih, List.flatMap_cons]

/-! ## Values without their locations -/

mutual

/-- A value without any locations, and with its numbers changed. -/
def bare (f : Number → Number) : Node → Node
  | null _ => null .nowhere
  | boolean _ v => boolean .nowhere v
  | number _ v => number .nowhere (f v)
  | string _ text => string .nowhere text
  | array _ items => array .nowhere (bareItems f items)
  | object _ ⟨entries⟩ => object .nowhere ⟨bareMembers f entries⟩

def bareItems (f : Number → Number) : List Node → List Node
  | [] => []
  | n :: rest => bare f n :: bareItems f rest

def bareMembers (f : Number → Number) : List (Entry Node) → List (Entry Node)
  | [] => []
  | ⟨k, _, v⟩ :: rest => ⟨k, .nowhere, bare f v⟩ :: bareMembers f rest

end

/-- A member without any locations. -/
def bareEntry (f : Number → Number) (e : Entry Node) : Entry Node :=
  ⟨e.key, .nowhere, e.value.bare f⟩

variable {f : Number → Number}

@[simp] theorem bare_array (l : Location) (items : List Node) :
    (array l items).bare f = array .nowhere (items.map (bare f)) := by
  rw [bare]
  congr
  induction items with
  | nil => rfl
  | cons n rest ih => rw [bareItems, ih, List.map_cons]

@[simp] theorem bare_object (l : Location) (entries : List (Entry Node)) :
    (object l ⟨entries⟩).bare f = object .nowhere ⟨entries.map (bareEntry f)⟩ := by
  rw [bare]
  congr
  induction entries with
  | nil => rfl
  | cons e rest ih => rw [bareMembers, ih, List.map_cons, bareEntry]

theorem largest_map {α β : Type} {size : β → Nat} (g : α → β) (as : List α) :
    largest size (as.map g) = largest (fun a => size (g a)) as := by
  induction as with
  | nil => rfl
  | cons a as ih => rw [List.map_cons, largest_cons, ih, largest_cons]

theorem largest_congr {α : Type} {size size' : α → Nat} {as : List α}
    (h : ∀ a ∈ as, size a = size' a) : largest size as = largest size' as := by
  induction as with
  | nil => rfl
  | cons a as ih =>
    rw [List.forall_mem_cons] at h
    rw [largest_cons, largest_cons, h.1, ih h.2]

@[simp] theorem depth_bare (n : Node) : (n.bare f).depth = n.depth := by
  induction n with
  | array l items ih => rw [bare_array, depth_array, depth_array, largest_map, largest_congr ih]
  | object l entries ih =>
    rw [bare_object, depth_object, depth_object, largest_map]
    exact congrArg (· + 1) (largest_congr ih)
  | _ => rfl

@[simp] theorem hasDistinctKeys_bare (n : Node) :
    (n.bare f).hasDistinctKeys = n.hasDistinctKeys := by
  rw [Bool.eq_iff_iff]
  induction n with
  | array l items ih =>
    rw [bare_array, hasDistinctKeys_array, hasDistinctKeys_array, List.forall_mem_map]
    exact forall₂_congr ih
  | object l entries ih =>
    rw [bare_object, hasDistinctKeys_object, hasDistinctKeys_object, List.forall_mem_map,
      List.map_map]
    exact and_congr_right fun _ => forall₂_congr ih
  | _ => exact Iff.rfl

/-- Numbers that change in the same way leave values with equal forms. -/
theorem bare_congr {g : Number → Number} {n : Node} (h : ∀ x ∈ n.numbers, f x = g x) :
    n.bare f = n.bare g := by
  induction n with
  | number l v => rw [bare, bare, h v (List.mem_singleton_self v)]
  | array l items ih =>
    rw [numbers_array] at h
    rw [bare_array, bare_array, List.map_congr_left]
    exact fun n hn => ih n hn fun x hx => h x (List.mem_flatMap.mpr ⟨n, hn, hx⟩)
  | object l entries ih =>
    rw [numbers_object] at h
    rw [bare_object, bare_object, List.map_congr_left]
    intro e he
    rw [bareEntry, bareEntry, ih e he fun x hx => h x (List.mem_flatMap.mpr ⟨e, he, hx⟩)]
  | _ => rfl

/-- Values with equal forms fit into equally many levels. -/
theorem fits_of_bare {n m : Node} (h : m.bare id = n.bare f) {levels : Nat}
    (hfits : n.Fits levels) :
    m.Fits levels := by
  constructor
  · rw [← hasDistinctKeys_bare (f := id), h, hasDistinctKeys_bare, hfits.distinct]
  · rw [← depth_bare (f := id), h, depth_bare]
    exact hfits.depth_le

end Node

end ShapeTraits
