-- A table keeps the first member of each key, in the order of insertion, and its index in
-- step with them, over all insertions and copies. So it comes to the list of its members.
import Mathlib.Data.List.Induction
import Mathlib.Data.List.Nodup
import ShapeTraits.KeyedTable
import ShapeTraits.Proofs.StatementRecords

namespace ShapeTraits

/-! ## The first of each key -/

section FirstOfEach

variable {α : Type} {entries : List (Entry α)}

/-- The entries whose key no entry before them has. -/
def firstOfEach (entries : List (Entry α)) : List (Entry α) :=
  (entries.zipIdx.filter fun place =>
    (entries.take place.2).all (·.key != place.1.key)).map Prod.fst

theorem firstOfEach_append (entries : List (Entry α)) (e : Entry α) : firstOfEach (entries ++ [e]) =
    firstOfEach entries ++ if entries.all (·.key != e.key) then [e] else [] := by
  have hbefore : (entries.zipIdx.filter fun place =>
      ((entries ++ [e]).take place.2).all (·.key != place.1.key)) =
      entries.zipIdx.filter fun place => (entries.take place.2).all (·.key != place.1.key) := by
    refine List.filter_congr fun place hplace => ?_
    have hlt : place.2 < entries.length := (List.mem_zipIdx' hplace).1
    rw [List.take_append_of_le_length (Nat.le_of_lt hlt)]
  unfold firstOfEach
  rw [List.zipIdx_append, List.filter_append, hbefore, List.map_append]
  congr 1
  simp only [List.zipIdx_singleton, Nat.zero_add, List.filter_singleton, List.take_left]
  cases entries.all (·.key != e.key) <;> rfl

theorem all_key_ne {key : Bytes} :
    entries.all (·.key != key) = true ↔ key ∉ entries.map (·.key) := by
  simp [List.all_eq_true]

/-- No key is missing. -/
theorem mem_keys_firstOfEach {key : Bytes} :
    key ∈ (firstOfEach entries).map (·.key) ↔ key ∈ entries.map (·.key) := by
  induction entries using List.reverseRecOn with
  | nil => exact Iff.rfl
  | append_singleton entries e ih =>
    rw [firstOfEach_append, List.map_append, List.mem_append, ih, List.map_append, List.mem_append]
    refine or_congr_right' fun hnew => ?_
    split
    · rfl
    · next hold =>
      rw [all_key_ne, not_not] at hold
      refine iff_of_false List.not_mem_nil fun hkey => hnew ?_
      rw [List.map_singleton, List.mem_singleton] at hkey
      exact hkey ▸ hold

theorem mem_of_mem_firstOfEach {e : Entry α} (h : e ∈ firstOfEach entries) : e ∈ entries := by
  obtain ⟨place, hplace, rfl⟩ := List.mem_map.mp h
  exact List.fst_mem_of_mem_zipIdx (List.mem_of_mem_filter hplace)

/-- Entries with distinct keys are all the first of their key. -/
theorem firstOfEach_of_nodup (h : (entries.map (·.key)).Nodup) : firstOfEach entries = entries := by
  induction entries using List.reverseRecOn with
  | nil => rfl
  | append_singleton entries e ih =>
    rw [List.map_append] at h
    obtain ⟨hentries, -, happart⟩ := List.nodup_append.mp h
    have hnew : e.key ∉ entries.map (·.key) :=
      fun hold => happart _ hold _ (List.mem_singleton_self _) rfl
    rw [firstOfEach_append, if_pos (all_key_ne.mpr hnew), ih hentries]

end FirstOfEach

namespace KeyedTable

variable {α : Type} {t : KeyedTable α} {key : Bytes} {location : Location} {value : α} {e : Entry α}

/-- The index holds the keys of the members, each with its position. -/
def InStep (t : KeyedTable α) : Prop :=
  ∀ (key : Bytes) (position : Nat),
    t.position? key = some position ↔ ∃ e : Entry α, t.members[position]? = some e ∧ e.key = key

theorem inStep_empty : (empty : KeyedTable α).InStep := by
  intro key position
  simp [empty, position?]

/-! ## One insertion -/

theorem insertIfNew_of_mem {index : Std.ExtHashMap Bytes Nat} (h : key ∈ index) (position : Nat) :
    index.insertIfNew key position = index := by
  refine Std.ExtHashMap.ext_getElem? fun k => ?_
  rw [Std.ExtHashMap.getElem?_insertIfNew, if_neg]
  rintro ⟨-, hnew⟩
  exact hnew h

/-- One access to the index tells whether the key is there, and sets its position if not. -/
theorem containsThenInsertIfNew_eq (index : Std.ExtHashMap Bytes Nat) (key : Bytes)
    (position : Nat) :
    index.containsThenInsertIfNew key position =
      (index.contains key, index.insertIfNew key position) :=
  Prod.ext Std.ExtHashMap.containsThenInsertIfNew_fst Std.ExtHashMap.containsThenInsertIfNew_snd

/-- A key that is there already is refused, and nothing changes. -/
theorem tryInsert_of_mem (h : key ∈ t.index) : t.tryInsert key location value = (false, t) := by
  have hfound : t.index.contains key = true := h
  rw [tryInsert, containsThenInsertIfNew_eq, insertIfNew_of_mem h, hfound]
  rfl

theorem tryInsert_of_not_mem (h : key ∉ t.index) : t.tryInsert key location value =
    (true, ⟨t.members.push ⟨key, location, value⟩, t.index.insertIfNew key t.members.size⟩) := by
  have hfound : t.index.contains key = false := Bool.eq_false_iff.mpr h
  rw [tryInsert, containsThenInsertIfNew_eq, hfound]
  rfl

/-- Both insertions leave the same. -/
theorem insertUnique_eq :
    t.insertUnique key location value = (t.tryInsert key location value).2 := by
  by_cases h : key ∈ t.index
  · rw [tryInsert_of_mem h]
    exact if_pos h
  · rw [tryInsert_of_not_mem h]
    exact if_neg h

/-- One more member under a new key is in step if its position is the next one. -/
theorem InStep.push (ht : t.InStep) (h : e.key ∉ t.index) :
    InStep ⟨t.members.push e, t.index.insertIfNew e.key t.members.size⟩ := by
  intro key position
  have hbefore : t.index[key]? = some position ↔ _ := ht key position
  dsimp only [position?]
  rw [Std.ExtHashMap.getElem?_insertIfNew, Array.getElem?_push]
  by_cases hkey : e.key = key
  · subst hkey
    rw [if_pos ⟨beq_self_eq_true _, h⟩]
    constructor
    · rintro ⟨⟩
      exact ⟨e, if_pos rfl, rfl⟩
    · rintro ⟨d, hd, hkey⟩
      split at hd
      · next hposition => rw [hposition]
      · have hthere := (ht e.key position).mpr ⟨d, hd, hkey⟩
        exact absurd (Std.ExtHashMap.mem_iff_isSome_getElem?.mpr (Option.isSome_of_eq_some hthere))
          h
  · rw [if_neg fun hnew => hkey (beq_iff_eq.mp hnew.1), hbefore]
    refine exists_congr fun d => and_congr_left fun hd => ?_
    split
    · next hposition =>
      subst hposition
      refine iff_of_false (by simp) ?_
      rintro ⟨⟩
      exact hkey hd
    · rfl

/-! ## Looking up -/

theorem mem_keys :
    key ∈ t.keys ↔ ∃ position : Nat, ∃ e, t.members[position]? = some e ∧ e.key = key := by
  simp only [keys, List.mem_map, Array.mem_toList_iff, Array.mem_iff_getElem?]
  constructor
  · rintro ⟨e, ⟨position, he⟩, hkey⟩
    exact ⟨position, e, he, hkey⟩
  · rintro ⟨position, e, he, hkey⟩
    exact ⟨e, ⟨position, he⟩, hkey⟩

theorem InStep.mem_index (ht : t.InStep) : key ∈ t.index ↔ key ∈ t.keys := by
  rw [Std.ExtHashMap.mem_iff_isSome_getElem?, Option.isSome_iff_exists, mem_keys]
  exact exists_congr fun position => ht key position

/-- Looking up finds the member with the key, and never looks behind the last one. -/
theorem InStep.find_eq_some (ht : t.InStep) :
    t.find? key = some e ↔ e ∈ t.members ∧ e.key = key := by
  rw [find?, Array.mem_iff_getElem?]
  constructor
  · intro h
    split at h
    · cases h
    · next position hposition =>
      obtain ⟨d, hd, hkey⟩ := (ht key position).mp hposition
      rw [h] at hd
      cases hd
      exact ⟨⟨position, h⟩, hkey⟩
  · rintro ⟨⟨position, he⟩, hkey⟩
    rw [(ht key position).mpr ⟨e, he, hkey⟩]
    exact he

theorem InStep.nodup_keys (ht : t.InStep) : t.keys.Nodup := by
  rw [List.nodup_iff_getElem?_ne_getElem?]
  intro i j hij hj hsame
  have hget (position : Nat) : t.keys[position]? = t.members[position]?.map (·.key) := by
    rw [keys, List.getElem?_map, Array.getElem?_toList]
  obtain ⟨key, hkey⟩ : ∃ key, t.keys[j]? = some key := ⟨_, List.getElem?_eq_getElem hj⟩
  have hposition {position : Nat} (h : t.keys[position]? = some key) :
      t.index[key]? = some position := by
    rw [hget, Option.map_eq_some_iff] at h
    exact (ht key position).mpr h
  have hi := hposition (hsame.trans hkey)
  rw [hposition hkey, Option.some.injEq] at hi
  omega

/-- The members determine the index. -/
theorem InStep.eq {u : KeyedTable α} (ht : t.InStep) (hu : u.InStep)
    (h : t.members = u.members) : t = u := by
  obtain ⟨members, index⟩ := t
  obtain ⟨others, index'⟩ := u
  obtain rfl : members = others := h
  rw [mk.injEq]
  refine ⟨rfl, Std.ExtHashMap.ext_getElem? fun key => Option.ext fun position => ?_⟩
  exact (ht key position).trans (hu key position).symm

/-! ## Steps -/

/-- What is done to a table. -/
inductive Step (α : Type) where
  | tryInsert (e : Entry α)
  | insertUnique (e : Entry α)
  | copy

/-- The table after a step. -/
def step (copyValue : α → α) (t : KeyedTable α) : Step α → KeyedTable α
  | .tryInsert e => (t.tryInsert e.key e.keyLocation e.value).2
  | .insertUnique e => t.insertUnique e.key e.keyLocation e.value
  | .copy => t.copy copyValue

/-- The table after some steps from the empty one. -/
def run (copyValue : α → α) (steps : List (Step α)) : KeyedTable α :=
  steps.foldl (step copyValue) empty

/-- What a step is to insert. -/
def Step.inserted? : Step α → Option (Entry α)
  | .tryInsert e | .insertUnique e => some e
  | .copy => none

/-- All that is to be inserted, in order, also what is refused. -/
def insertions (steps : List (Step α)) : List (Entry α) := steps.filterMap Step.inserted?

/-- A table that is in step and has the first of each key among some entries. -/
structure Keeps (t : KeyedTable α) (entries : List (Entry α)) : Prop where
  inStep : t.InStep
  members : t.members.toList = firstOfEach entries

theorem Keeps.mem_index {entries : List (Entry α)} (h : t.Keeps entries) :
    key ∈ t.index ↔ key ∈ entries.map (·.key) := by
  rw [h.inStep.mem_index, keys, h.members, mem_keys_firstOfEach]

theorem Keeps.insert {entries : List (Entry α)} (h : t.Keeps entries) (e : Entry α) :
    (t.tryInsert e.key e.keyLocation e.value).2.Keeps (entries ++ [e]) := by
  by_cases hkey : e.key ∈ t.index
  · have hall : ¬entries.all (·.key != e.key) = true := by
      rw [all_key_ne, not_not]
      exact h.mem_index.mp hkey
    rw [tryInsert_of_mem hkey]
    refine ⟨h.inStep, ?_⟩
    rw [firstOfEach_append, if_neg hall, List.append_nil]
    exact h.members
  · have hall : entries.all (·.key != e.key) = true := all_key_ne.mpr (mt h.mem_index.mpr hkey)
    rw [tryInsert_of_not_mem hkey]
    refine ⟨h.inStep.push hkey, ?_⟩
    rw [firstOfEach_append, if_pos hall, Array.toList_push, h.members]

theorem Keeps.foldl {entries : List (Entry α)} (h : t.Keeps entries) (more : List (Entry α)) :
    (more.foldl (fun t e => t.insertUnique e.key e.keyLocation e.value) t).Keeps
      (entries ++ more) := by
  induction more generalizing t entries with
  | nil =>
    rw [List.append_nil]
    exact h
  | cons e more ih =>
    rw [List.foldl_cons, List.append_cons, insertUnique_eq]
    exact ih (h.insert e)

theorem keeps_empty : (empty : KeyedTable α).Keeps [] := ⟨inStep_empty, rfl⟩

/-- A copy with equal values inserts every member anew, and leaves the same table. -/
theorem InStep.copy (ht : t.InStep) {copyValue : α → α}
    (hvalues : ∀ e ∈ t.members, copyValue e.value = e.value) : t.copy copyValue = t := by
  have hcopy : t.copy copyValue =
      t.members.toList.foldl (fun t e => t.insertUnique e.key e.keyLocation e.value) empty := by
    rw [KeyedTable.copy, ← Array.foldl_toList]
    refine List.foldl_ext _ _ _ fun copied e he => ?_
    rw [hvalues e (Array.mem_toList_iff.mp he)]
  have hkeeps : (t.copy copyValue).Keeps t.members.toList := by
    rw [hcopy]
    exact keeps_empty.foldl t.members.toList
  refine hkeeps.inStep.eq ht (Array.toList_inj.mp ?_)
  rw [hkeeps.members, firstOfEach_of_nodup ht.nodup_keys]

/-- A step keeps the first of each key also among what it is to insert. -/
theorem Keeps.step {entries : List (Entry α)} (h : t.Keeps entries) {copyValue : α → α}
    (hvalues : ∀ e ∈ entries, copyValue e.value = e.value) (s : Step α) :
    (t.step copyValue s).Keeps (entries ++ s.inserted?.toList) := by
  cases s with
  | tryInsert e => exact h.insert e
  | insertUnique e =>
    have hinsert : t.step copyValue (.insertUnique e) =
      (t.tryInsert e.key e.keyLocation e.value).2 := insertUnique_eq
    rw [hinsert]
    exact h.insert e
  | copy =>
    have hcopy : t.step copyValue .copy = t := by
      refine h.inStep.copy fun e he => hvalues e (mem_of_mem_firstOfEach ?_)
      rw [← h.members]
      exact Array.mem_toList_iff.mpr he
    rw [hcopy]
    simpa [Step.inserted?] using h

/-- So does a run. -/
theorem keeps_run {copyValue : α → α} {steps : List (Step α)}
    (hvalues : ∀ e ∈ insertions steps, copyValue e.value = e.value) :
    (run copyValue steps).Keeps (insertions steps) := by
  induction steps using List.reverseRecOn with
  | nil => exact keeps_empty
  | append_singleton steps s ih =>
    have hinsertions : insertions (steps ++ [s]) = insertions steps ++ s.inserted?.toList := by
      rw [insertions, List.filterMap_append]
      cases s <;> rfl
    have hrun : run copyValue (steps ++ [s]) = (run copyValue steps).step copyValue s := by
      rw [run, List.foldl_append]
      rfl
    rw [hinsertions, List.forall_mem_append] at hvalues
    rw [hinsertions, hrun]
    exact (ih hvalues.1).step hvalues.1 s

/-! ## The list that a table comes to -/

theorem InStep.find_list (ht : t.InStep) (key : Bytes) : t.list.find? key = t.find? key := by
  cases hlist : t.list.find? key with
  | some e =>
    have hkey : e.key = key := by simpa using List.find?_some hlist
    exact (ht.find_eq_some.mpr
      ⟨Array.mem_toList_iff.mp (List.mem_of_find?_eq_some hlist), hkey⟩).symm
  | none =>
    cases hfind : t.find? key with
    | none => rfl
    | some e =>
      obtain ⟨he, hkey⟩ := ht.find_eq_some.mp hfind
      have hne := List.find?_eq_none.mp hlist e (Array.mem_toList_iff.mpr he)
      exact absurd (beq_iff_eq.mpr hkey) hne

theorem contains_list (t : KeyedTable α) (key : Bytes) :
    t.list.contains key = true ↔ key ∈ t.keys := by
  rw [KeyedList.contains, KeyedList.find?, List.find?_isSome, keys, List.mem_map]
  simp only [beq_iff_eq]
  rfl

theorem InStep.insert_list (ht : t.InStep) : t.list.insert? key location value =
    if (t.tryInsert key location value).1 then some (t.tryInsert key location value).2.list
    else none := by
  unfold KeyedList.insert?
  by_cases hkey : key ∈ t.index
  · rw [tryInsert_of_mem hkey, if_pos ((t.contains_list key).mpr (ht.mem_index.mp hkey))]
    rfl
  · rw [tryInsert_of_not_mem hkey,
      if_neg (mt (t.contains_list key).mp (mt ht.mem_index.mpr hkey)), if_pos rfl]
    simp only [list, Array.toList_push]

theorem InStep.insertNew_list (ht : t.InStep) :
    t.list.insertNew key location value = (t.insertUnique key location value).list := by
  rw [KeyedList.insertNew, ht.insert_list, insertUnique_eq]
  by_cases hkey : key ∈ t.index
  · rw [tryInsert_of_mem hkey]
    rfl
  · rw [tryInsert_of_not_mem hkey]
    rfl

theorem InStep.insertUnique (ht : t.InStep) : (t.insertUnique key location value).InStep := by
  rw [insertUnique_eq]
  by_cases hkey : key ∈ t.index
  · rw [tryInsert_of_mem hkey]
    exact ht
  · rw [tryInsert_of_not_mem hkey]
    exact ht.push hkey

/-- Copying the members of an object is copying the table. -/
theorem copyMembers_list {t : KeyedTable Node} (ht : t.InStep) (entries : List (Entry Node)) :
    Node.copyMembers entries t.list =
      (entries.foldl (fun t e => t.insertUnique e.key e.keyLocation e.value.copy) t).list := by
  induction entries generalizing t with
  | nil => rw [Node.copyMembers, List.foldl_nil]
  | cons e entries ih =>
    rw [Node.copyMembers, ht.insertNew_list, ih ht.insertUnique, List.foldl_cons]

/-! ## The laws -/

/-- A table in step answers and changes as the list of its members, which objects are
read and copied with. -/
theorem a_table_comes_to_the_list_of_its_members {t : KeyedTable Node} (ht : t.InStep) (key : Bytes)
    (location : Location) (value : Node) :
    t.list.find? key = t.find? key ∧
      t.list.insert? key location value =
        (if (t.tryInsert key location value).1 then some (t.tryInsert key location value).2.list
        else none) ∧
      t.list.insertNew key location value = (t.insertUnique key location value).list ∧
      ∀ l, (Node.object l t.list).copy = .object l (t.copy Node.copy).list := by
  refine ⟨ht.find_list key, ht.insert_list, ht.insertNew_list, fun l => ?_⟩
  have hempty : (empty : KeyedTable Node).InStep := inStep_empty
  have hmembers := copyMembers_list hempty t.members.toList
  rw [Array.foldl_toList] at hmembers
  rw [list, Node.copy]
  exact congrArg (Node.object l) hmembers

/-- After any insertions and copies from the empty table on, the members are the first ones
inserted under each key, in that order, and the index has just their keys, each with its
position. Looking up, the size and the keys agree with that. An insertion says that a
key is new exactly if it is, and one that is refused changes nothing; a copy is the same
table. So the object of the table can be a value in further ones. -/
theorem a_table_keeps_the_first_member_of_each_key {steps : List (Step Node)}
    (hvalues : ∀ e ∈ insertions steps, e.value.hasDistinctKeys) :
    let t := run Node.copy steps
    t.members.toList = firstOfEach (insertions steps) ∧
      (∀ (key : Bytes) (position : Nat),
        t.index[key]? = some position ↔ ∃ e, t.members[position]? = some e ∧ e.key = key) ∧
      (∀ key e, t.find? key = some e ↔ e ∈ t.members ∧ e.key = key) ∧
      t.size = (firstOfEach (insertions steps)).length ∧
      t.keys = (firstOfEach (insertions steps)).map (·.key) ∧ t.keys.Nodup ∧
      (∀ key location value, ((t.tryInsert key location value).1 = true ↔ key ∉ t.keys) ∧
        (key ∈ t.keys →
          (t.tryInsert key location value).2 = t ∧ t.insertUnique key location value = t)) ∧
      t.copy Node.copy = t ∧ ∀ l, (Node.object l t.list).hasDistinctKeys := by
  intro t
  have hcopies : ∀ e ∈ insertions steps, e.value.copy = e.value :=
    fun e he => Node.copy_eq (hvalues e he)
  have hkeeps : t.Keeps (insertions steps) := keeps_run hcopies
  have hstep := hkeeps.inStep
  have hmembers : ∀ e ∈ t.members.toList, e ∈ insertions steps := by
    rw [hkeeps.members]
    exact fun e => mem_of_mem_firstOfEach
  refine ⟨hkeeps.members, hstep, fun key e => hstep.find_eq_some, ?_, ?_, hstep.nodup_keys,
    fun key location value => ?_, hstep.copy fun e he => ?_, fun l => ?_⟩
  · rw [← hkeeps.members, Array.length_toList]
    rfl
  · rw [← hkeeps.members]
    rfl
  · rw [← hstep.mem_index]
    by_cases hkey : key ∈ t.index
    · rw [insertUnique_eq, tryInsert_of_mem hkey]
      exact ⟨iff_of_false Bool.false_ne_true (not_not_intro hkey), fun _ => ⟨rfl, rfl⟩⟩
    · rw [tryInsert_of_not_mem hkey]
      exact ⟨iff_of_true rfl hkey, fun hin => absurd hin hkey⟩
  · exact hcopies e (hmembers e (Array.mem_toList_iff.mpr he))
  · rw [list, Node.hasDistinctKeys_object]
    exact ⟨hstep.nodup_keys, fun e he => hvalues e (hmembers e he)⟩

/-- A member under a key that was refused before and behind a copy, and one under a new
key whose value is an object itself. -/
theorem a_copied_table_still_refuses_a_key :
    let one : Entry Node := ⟨utf8 "a", ⟨[], 1, 2, 1, 3⟩, .number .nowhere (.int64 1)⟩
    let null : Entry Node := ⟨utf8 "a", .nowhere, .null .nowhere⟩
    let two : Entry Node := ⟨utf8 "b", .nowhere, .object .nowhere ⟨[one]⟩⟩
    let steps : List (Step Node) :=
      [.tryInsert one, .insertUnique null, .copy, .insertUnique two, .tryInsert null]
    let t := run Node.copy steps
    (∀ e ∈ insertions steps, e.value.hasDistinctKeys) ∧ t.members.toList = [one, two] ∧
      t.find? (utf8 "b") = some two ∧ (t.tryInsert (utf8 "a") .nowhere (.null .nowhere)).2 = t := by
  intro one null two steps t
  have hvalues : ∀ e ∈ insertions steps, e.value.hasDistinctKeys := by decide
  have hlaw := a_table_keeps_the_first_member_of_each_key hvalues
  have hmembers : t.members.toList = [one, two] := hlaw.1
  have htwo : two ∈ t.members := by simp [← Array.mem_toList_iff, hmembers]
  have hkey : utf8 "a" ∈ t.keys := by simp [keys, hmembers, one]
  refine ⟨hvalues, hmembers, (hlaw.2.2.1 _ two).mpr ⟨htwo, rfl⟩, ?_⟩
  exact ((hlaw.2.2.2.2.2.2.1 _ .nowhere (.null .nowhere)).2 hkey).1

end KeyedTable

end ShapeTraits
