import Mathlib.Data.List.Basic
import Mathlib.Logic.Function.Basic

/-!
# Checksums that detect one changed element

A checksum that consumes a list element by element, with a step that loses neither the state nor
the element, tells apart any two lists of one length that differ at one place.

Main results:

- Theorem {lit}`DetectsOne.set_ne`: a list has another checksum after one element has changed.
- Theorem {lit}`detectsOne_foldl`: a checksum with a reversible step detects one change.
-/

namespace Foundation

variable {α β γ σ : Type}

/-- A checksum tells apart lists that differ at exactly one place. -/
def DetectsOne (c : List α → β) : Prop :=
  ∀ (x y : List α) (a b : α), a ≠ b → c (x ++ a :: y) ≠ c (x ++ b :: y)

namespace DetectsOne

/-- A list has another checksum after one element has changed. -/
theorem set_ne {c : List α → β} (h : DetectsOne c) {l : List α} {i : Nat} {a : α}
    (hi : i < l.length) (ha : l[i]? ≠ some a) : c (l.set i a) ≠ c l := by
  have hsplit : l = l.take i ++ l[i] :: l.drop (i + 1) := by
    rw [List.getElem_cons_drop, List.take_append_drop]
  have hset : l.set i a = l.take i ++ a :: l.drop (i + 1) :=
    List.set_eq_take_append_cons_drop.trans (if_pos hi)
  have hne : a ≠ l[i] := by
    intro heq
    exact ha (by rw [List.getElem?_eq_getElem hi, heq])
  have hdiffer := h (l.take i) (l.drop (i + 1)) a l[i] hne
  rwa [← hset, ← hsplit] at hdiffer

/-- An injective map behind a checksum keeps what it detects. -/
theorem comp {c : List α → β} (h : DetectsOne c) {f : β → γ} (hf : Function.Injective f) :
    DetectsOne fun l => f (c l) := by
  intro x y a b hab heq
  exact h x y a b hab (hf heq)

end DetectsOne

/-- A checksum whose step loses neither the state nor the element detects one change. -/
theorem detectsOne_foldl {step : σ → α → σ} (hstate : ∀ a, Function.Injective fun s => step s a)
    (helem : ∀ s, Function.Injective (step s)) (s : σ) : DetectsOne fun l => l.foldl step s := by
  intro x y a b hab heq
  simp only [List.foldl_append, List.foldl_cons] at heq
  -- The states differ behind the two elements, and no later element brings them together.
  have hrest : ∀ z : List α, Function.Injective fun s => z.foldl step s := by
    intro z
    induction z with
    | nil => exact fun s t h => h
    | cons e z ih => exact fun s t h => hstate e (ih h)
  exact hab (helem _ (hrest y heq))

end Foundation
