import Mathlib.Data.List.Chain
import Mathlib.Data.List.Induction
import SSTable.Model.Cmp

/-!
# Sequences of entries

The words in which the development speaks about what is written to a block or a table.

Main results:

- Theorem {lit}`increasing_append_iff`: a concatenation increases when both parts do and the last
  key of the first lies below the second.
- Theorem {lit}`orderedBy_concat_iff`: a key above the last one, by any comparator, extends an
  ordered sequence.
-/

namespace SSTable

open Foundation Foundation.Bytes

/-- The keys of a sequence of entries. -/
def keysOf (es : List Entry) : List Bytes := es.map Prod.fst

/-- The keys increase strictly. -/
def Increasing (es : List Entry) : Prop := (keysOf es).Pairwise (· < ·)

/-- No key is empty. -/
def NonEmptyKeys (es : List Entry) : Prop := ∀ e ∈ es, e.1 ≠ []

instance (es : List Entry) : Decidable (Increasing es) :=
  inferInstanceAs (Decidable ((keysOf es).Pairwise (· < ·)))

instance (es : List Entry) : Decidable (NonEmptyKeys es) :=
  inferInstanceAs (Decidable (∀ e ∈ es, e.1 ≠ []))

/-- The last key, or the empty string where there is none. -/
def lastKeyOf (es : List Entry) : Bytes := (es.getLast?.map Prod.fst).getD []

@[simp] theorem keysOf_nil : keysOf [] = [] := rfl

@[simp] theorem keysOf_cons (e : Entry) (es : List Entry) : keysOf (e :: es) = e.1 :: keysOf es :=
  rfl

@[simp] theorem keysOf_append (xs ys : List Entry) : keysOf (xs ++ ys) = keysOf xs ++ keysOf ys := by
  simp [keysOf]

@[simp] theorem keysOf_length (es : List Entry) : (keysOf es).length = es.length := by
  simp [keysOf]

@[simp] theorem lastKeyOf_nil : lastKeyOf [] = [] := rfl

@[simp] theorem lastKeyOf_concat (es : List Entry) (e : Entry) : lastKeyOf (es ++ [e]) = e.1 := by
  simp [lastKeyOf]

theorem lastKeyOf_mem {es : List Entry} (h : es ≠ []) : lastKeyOf es ∈ keysOf es := by
  rw [lastKeyOf, List.getLast?_eq_some_getLast h]
  exact List.mem_map_of_mem (List.getLast_mem h)

@[simp] theorem increasing_nil : Increasing [] := List.Pairwise.nil

theorem increasing_append_iff {xs ys : List Entry} :
    Increasing (xs ++ ys) ↔
      Increasing xs ∧ Increasing ys ∧ ∀ k ∈ keysOf xs, ∀ k' ∈ keysOf ys, k < k' := by
  simp [Increasing, List.pairwise_append]

theorem increasing_cons_iff {e : Entry} {es : List Entry} :
    Increasing (e :: es) ↔ (∀ k ∈ keysOf es, e.1 < k) ∧ Increasing es := by
  simp [Increasing]

/-- Every key is at most the last one. -/
theorem Increasing.le_lastKeyOf {es : List Entry} (h : Increasing es) {k : Bytes}
    (hk : k ∈ keysOf es) : k ≤ lastKeyOf es := by
  induction es using List.reverseRecOn with
  | nil => simp at hk
  | append_singleton es e _ =>
      rw [lastKeyOf_concat]
      obtain ⟨-, -, hlt⟩ := increasing_append_iff.mp h
      rw [keysOf_append, List.mem_append] at hk
      rcases hk with hk | hk
      · exact (hlt k hk e.1 (by simp)).le
      · simp only [keysOf_cons, keysOf_nil, List.mem_singleton] at hk
        exact hk.le

/-- A key above the last one extends the sequence, and no other key does. -/
theorem increasing_concat_iff {es : List Entry} {e : Entry} :
    Increasing (es ++ [e]) ↔ Increasing es ∧ (es = [] ∨ lastKeyOf es < e.1) := by
  rw [increasing_append_iff]
  constructor
  · rintro ⟨hes, -, hlt⟩
    refine ⟨hes, ?_⟩
    rcases eq_or_ne es [] with hnil | hne
    · exact Or.inl hnil
    · exact Or.inr (hlt _ (lastKeyOf_mem hne) _ (by simp))
  · rintro ⟨hes, hlast⟩
    refine ⟨hes, by simp [Increasing], ?_⟩
    intro k hk k' hk'
    simp only [keysOf_cons, keysOf_nil, List.mem_singleton] at hk'
    subst hk'
    rcases hlast with rfl | hlt
    · simp at hk
    · exact lt_of_le_of_lt (hes.le_lastKeyOf hk) hlt

/-- Every key lies below the next one, by the given comparator. -/
def OrderedBy (cmp : Cmp) (es : List Entry) : Prop :=
  es.IsChain fun e e' => cmp.cmp e.1 e'.1 = .lt

theorem OrderedBy.of_append {cmp : Cmp} {xs ys : List Entry} (h : OrderedBy cmp (xs ++ ys)) :
    OrderedBy cmp xs :=
  List.IsChain.left_of_append h

theorem orderedBy_concat_iff {cmp : Cmp} {es : List Entry} {e : Entry} :
    OrderedBy cmp (es ++ [e]) ↔
      OrderedBy cmp es ∧ (es = [] ∨ cmp.cmp (lastKeyOf es) e.1 = .lt) := by
  rw [OrderedBy, List.isChain_append, ← OrderedBy]
  cases es using List.reverseRecOn with
  | nil => simp
  | append_singleton es e' => simp

/-- Keys that increase are ordered by the default comparator. -/
theorem Increasing.orderedBy {es : List Entry} (h : Increasing es) : OrderedBy DefaultCmp es := by
  rw [Increasing, keysOf, List.pairwise_map] at h
  apply List.Pairwise.isChain
  apply h.imp
  intro e e' hlt
  exact DefaultCmp.cmp_eq_lt_iff.mpr hlt

end SSTable
