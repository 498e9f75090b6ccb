-- The last word. Of things in a row that may each say something, the last one that does
-- counts: a fold in which those that say something set a view, and the others leave it, ends
-- with what the last one said.
namespace ShapeTraits

variable {α β γ σ : Type} {tells : β → α → Prop} {items : List β} {a : α}

/-- No item says anything. -/
def Silent (tells : β → α → Prop) (items : List β) : Prop := ∀ item ∈ items, ∀ a, ¬tells item a

/-- The last of the items that say anything says this. -/
def LastWord (tells : β → α → Prop) (items : List β) (a : α) : Prop :=
  ∃ before item behind, items = before ++ item :: behind ∧ tells item a ∧ Silent tells behind

/-- Either some item has the last word, or none says anything. -/
theorem lastWord_or_silent (tells : β → α → Prop) (items : List β) :
    (∃ a, LastWord tells items a) ∨ Silent tells items := by
  induction items with
  | nil => exact .inr (List.forall_mem_nil _)
  | cons item items ih =>
    rcases ih with ⟨a, before, last, behind, rfl, hlast, hbehind⟩ | hsilent
    · exact .inl ⟨a, item :: before, last, behind, rfl, hlast, hbehind⟩
    · by_cases hitem : ∃ a, tells item a
      · obtain ⟨a, ha⟩ := hitem
        exact .inl ⟨a, [], item, items, rfl, ha, hsilent⟩
      · exact .inr (List.forall_mem_cons.mpr ⟨not_exists.mp hitem, hsilent⟩)

/-- What every item that says something sets, and no other item changes. -/
structure IsSaidIn (step : σ → β → σ) (view : σ → γ) (value : α → γ) (tells : β → α → Prop) :
    Prop where
  set : ∀ s item a, tells item a → view (step s item) = value a
  stay : ∀ s item, (∀ a, ¬tells item a) → view (step s item) = view s

namespace IsSaidIn

variable {step : σ → β → σ} {view : σ → γ} {value : α → γ}

theorem foldl_silent (h : IsSaidIn step view value tells) (s : σ) (hsilent : Silent tells items) :
    view (items.foldl step s) = view s := by
  induction items generalizing s with
  | nil => rfl
  | cons item items ih =>
    obtain ⟨hitem, hitems⟩ := List.forall_mem_cons.mp hsilent
    rw [List.foldl_cons, ih _ hitems]
    exact h.stay s item hitem

theorem foldl_lastWord (h : IsSaidIn step view value tells) (s : σ)
    (hlast : LastWord tells items a) :
    view (items.foldl step s) = value a := by
  obtain ⟨before, item, behind, rfl, hitem, hbehind⟩ := hlast
  rw [List.foldl_append, List.foldl_cons, h.foldl_silent _ hbehind]
  exact h.set _ item a hitem

end IsSaidIn

end ShapeTraits
