import Mathlib.Data.Set.Lattice
import Mathlib.Order.CompletePartialOrder
import Mathlib.Order.GaloisConnection.Basic

/-!
# Fingerprints

Every key leaves marks, and the fingerprint of a set of keys is made of all marks that its keys
leave.  It admits each key whose marks are all there: the keys it was made from, and others that
cannot be told from them.

Main results:

- Theorem {lit}`fingerprint_gc`: a fingerprint is below a set of marks exactly if the keys are among
  those that the marks admit.
- Theorem {lit}`fingerprint_eq_iff`: two sets of keys have one fingerprint exactly if each of the
  fingerprints admits the keys of the other set.
-/

namespace Foundation

variable {κ ι : Type} (marks : κ → Set ι)

/-- The marks that a set of keys leaves. -/
def fingerprint (S : Set κ) : Set ι := ⋃ k ∈ S, marks k

/-- The keys whose marks are all there. -/
def admitted (m : Set ι) : Set κ := {k | marks k ⊆ m}

variable {marks} {S S' : Set κ} {m : Set ι} {k : κ} {i : ι}

theorem mem_fingerprint : i ∈ fingerprint marks S ↔ ∃ k ∈ S, i ∈ marks k := by
  simp [fingerprint]

theorem mem_admitted : k ∈ admitted marks m ↔ ∀ i ∈ marks k, i ∈ m := Iff.rfl

/-- A fingerprint consists of certain marks exactly if these admit its keys. -/
theorem fingerprint_gc : GaloisConnection (fingerprint marks) (admitted marks) := by
  intro S m
  exact Set.iUnion₂_subset_iff

/-- Two sets of keys that admit each other have one fingerprint. -/
theorem fingerprint_eq_iff : fingerprint marks S = fingerprint marks S' ↔
    S' ⊆ admitted marks (fingerprint marks S) ∧ S ⊆ admitted marks (fingerprint marks S') := by
  rw [Set.Subset.antisymm_iff, and_comm]
  exact and_congr (fingerprint_gc S' _) (fingerprint_gc S _)

end Foundation
