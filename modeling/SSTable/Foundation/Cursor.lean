import Mathlib.Data.List.Lex
import Mathlib.Order.Lattice
import SSTable.Foundation.Simulation

/-!
# Cursors over ordered lists

A cursor over a list is an index of the list or no position at all.  It is the abstract
counterpart of an iterator: what an iterator shows is the entry its cursor is on.  A trail also
has the last position of the cursor, for iterators that do not forget it.

Main results:

- Theorems {lit}`lowerBound_eq_some_iff` and {lit}`lowerBound_eq_none_iff`: the lower bound of a
  target is the first key that is not below it.
- Theorem {lit}`lowerBound_le`: a smaller target has no later lower bound.
-/

namespace Foundation

namespace Cursor

/-- Forward by one entry; behind the last one there is no position. -/
def advance (n : Nat) : Option Nat → Option Nat
  | none => if 0 < n then some 0 else none
  | some i => if i + 1 < n then some (i + 1) else none

/-- The index of the entry that a cursor is before. -/
def next : Option Nat → Nat
  | none => 0
  | some i => i + 1

theorem advance_eq (n : Nat) (p : Option Nat) :
    advance n p = if next p < n then some (next p) else none := by
  cases p with
  | none => rfl
  | some i => rfl

theorem advance_eq_none_iff {n : Nat} {p : Option Nat} : advance n p = none ↔ n ≤ next p := by
  simp [advance_eq]

/-- Backward by one entry; in front of the first one there is no position. -/
def prev : Option Nat → Option Nat
  | some (i + 1) => some i
  | _ => none

/-- The last position. -/
def last (n : Nat) : Option Nat := if n = 0 then none else some (n - 1)

variable {κ : Type} [LinearOrder κ]

/-- The position of the first key that is not below the target. -/
def lowerBound (keys : List κ) (target : κ) : Option Nat :=
  keys.findIdx? fun k => decide (target ≤ k)

theorem lowerBound_eq_none_iff {keys : List κ} {target : κ} :
    lowerBound keys target = none ↔ ∀ k ∈ keys, k < target := by
  simp [lowerBound]

theorem lowerBound_eq_some_iff {keys : List κ} {target : κ} {i : Nat} :
    lowerBound keys target = some i ↔
      ∃ k, keys[i]? = some k ∧ target ≤ k ∧ ∀ j k', j < i → keys[j]? = some k' → k' < target := by
  simp only [lowerBound, List.findIdx?_eq_some_iff_getElem, decide_eq_true_eq]
  constructor
  · rintro ⟨hi, hle, hbefore⟩
    refine ⟨keys[i], List.getElem?_eq_getElem hi, hle, ?_⟩
    intro j k' hj hk'
    obtain ⟨hjl, rfl⟩ := List.getElem?_eq_some_iff.mp hk'
    exact not_le.mp (by simpa using hbefore j hj)
  · rintro ⟨k, hk, hle, hbefore⟩
    obtain ⟨hi, rfl⟩ := List.getElem?_eq_some_iff.mp hk
    refine ⟨hi, hle, ?_⟩
    intro j hj
    simpa using hbefore j keys[j] hj (List.getElem?_eq_getElem (by omega))

/-- Keys below the target in front of the others only shift the lower bound. -/
theorem lowerBound_append_of_lt {xs ys : List κ} {target : κ} (h : ∀ k ∈ xs, k < target) :
    lowerBound (xs ++ ys) target = (lowerBound ys target).map (· + xs.length) := by
  have hnone := lowerBound_eq_none_iff.mpr h
  unfold lowerBound at hnone ⊢
  rw [List.findIdx?_append, hnone, Option.none_or]

/-- The keys behind the lower bound do not matter. -/
theorem lowerBound_append_of_some {xs ys : List κ} {target : κ} {i : Nat}
    (h : lowerBound xs target = some i) : lowerBound (xs ++ ys) target = some i := by
  unfold lowerBound at h ⊢
  rw [List.findIdx?_append, h, Option.some_or]

/-- A smaller target is reached no later. -/
theorem lowerBound_le {keys : List κ} {target target' : κ} {i : Nat} (hle : target ≤ target')
    (h : lowerBound keys target' = some i) : ∃ j, lowerBound keys target = some j ∧ j ≤ i := by
  obtain ⟨k, hk, hreach, -⟩ := lowerBound_eq_some_iff.mp h
  cases hbound : lowerBound keys target with
  | none =>
      have hbelow := lowerBound_eq_none_iff.mp hbound k (List.mem_of_getElem? hk)
      exact absurd (hle.trans hreach) (not_le.mpr hbelow)
  | some j =>
      refine ⟨j, rfl, ?_⟩
      obtain ⟨-, -, -, hbefore⟩ := lowerBound_eq_some_iff.mp hbound
      by_contra hlater
      exact absurd (hle.trans hreach) (not_le.mpr (hbefore i k (not_le.mp hlater) hk))

end Cursor

/-! ## Cursors that remember -/

/-- A cursor with the last position that it had. -/
structure Trail where
  pos : Option Nat
  last : Nat
deriving DecidableEq

namespace Trail

/-- A cursor that has not been anywhere. -/
def start : Trail := ⟨none, 0⟩

/-- A cursor on a position. -/
def on (i : Nat) : Trail := ⟨some i, i⟩

/-- Without its position, the cursor still remembers it. -/
def clear (τ : Trail) : Trail := { τ with pos := none }

/-- Forward by one entry. -/
def advance (n : Nat) (τ : Trail) : Trail :=
  match Cursor.advance n τ.pos with
  | some i => on i
  | none => τ.clear

/-- To the entry in front of the last position, wherever the cursor is. -/
def prev (τ : Trail) : Trail :=
  match τ.last with
  | 0 => start
  | i + 1 => on i

/-- The end of a search from the front, which may have passed all entries. -/
def search (n : Nat) : Option Nat → Trail
  | some i => on i
  | none => ⟨none, n - 1⟩

end Trail

end Foundation
