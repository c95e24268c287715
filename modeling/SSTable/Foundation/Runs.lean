import SSTable.Foundation.Cursor
import SSTable.Foundation.Recency

/-!
# Sorted runs behind an index

A store keeps its entries in runs, one behind the other, and has an index with one key for each of
them.  Some runs cannot be read.  A cursor over the store is a cursor over the index together with
one over the run that is open, and both of them remember where they were last.

Main results:

- Theorems {lit}`firstFrom_eq_some_iff` and {lit}`firstFrom_eq_none_iff`: where a cursor goes on that
  has come to the end of a run.
-/

namespace Foundation

open Exec

/-- Runs of entries behind an index with a key for each of them. -/
structure IndexedRuns (κ β : Type) where
  index : List κ
  runs : List (Option (List (κ × β)))
  length_eq : index.length = runs.length

/-- A cursor over the index, and the run that is open with the cursor over it. -/
structure RunCursor where
  index : Trail
  run : Option (Nat × Trail)
deriving DecidableEq

namespace RunCursor

/-- A cursor that has not been anywhere. -/
def start : RunCursor := ⟨.start, none⟩

/-- On an entry of a run. -/
def on (i j : Nat) : RunCursor := ⟨.on i, some (i, .on j)⟩

/-- Without a run; the index still remembers where it was. -/
def clear (p : RunCursor) : RunCursor := ⟨p.index.clear, none⟩

end RunCursor

namespace IndexedRuns

variable {κ β : Type} (r : IndexedRuns κ β)

/-- The entries of a run; one that cannot be read has none. -/
def entriesAt (i : Nat) : List (κ × β) := r.runs[i]?.join.getD []

/-- The first run from a place on that has an entry. -/
def firstFrom (n : Nat) : Option Nat :=
  (List.range r.runs.length).find? fun i => decide (n ≤ i) && !(r.entriesAt i).isEmpty

/-- The entry that the cursor is on. -/
def entry (p : RunCursor) : Option (κ × β) :=
  p.run.bind fun (i, τ) => τ.pos.bind fun j => (r.entriesAt i)[j]?

/-- Behind the last run; the index remembers it. -/
def beyond : RunCursor := ⟨⟨none, r.index.length - 1⟩, none⟩

/-- To the first entry of the next run that has one. -/
def nextRun (p : RunCursor) : RunCursor :=
  match r.firstFrom (Cursor.next p.index.pos) with
  | some i => .on i 0
  | none => r.beyond

/-- To the next entry. -/
def advance (p : RunCursor) : RunCursor :=
  match p.run with
  | some (i, τ) =>
      match Cursor.advance (r.entriesAt i).length τ.pos with
      | some j => ⟨p.index, some (i, .on j)⟩
      | none => r.nextRun p
  | none => r.nextRun p

/-- To the last entry of the run in front of the last one the index was on.  A run without entries
has no last one. -/
def prevRun (p : RunCursor) : Exec (Bool × RunCursor) :=
  match p.index.last with
  | 0 => pure (false, ⟨.start, p.run⟩)
  | i + 1 =>
      match r.runs[i]?.join with
      | some es => do
          ensure (0 < es.length)
          pure (true, .on i (es.length - 1))
      | none => pure (false, ⟨⟨none, i⟩, none⟩)

/-- To the previous entry. -/
def prev (p : RunCursor) : Exec (Bool × RunCursor) :=
  match p.run with
  | some (i, τ) =>
      match τ.last with
      | j + 1 => pure (true, ⟨p.index, some (i, .on j)⟩)
      | 0 => r.prevRun ⟨p.index, some (i, .start)⟩
  | none => r.prevRun p

/-- To the first entry whose key is not below the target, in the run that should hold it. -/
def seek [LinearOrder κ] (target : κ) : RunCursor :=
  match Cursor.lowerBound r.index target with
  | none => r.beyond
  | some i =>
      match r.runs[i]?.join with
      | some es => ⟨.on i, some (i, .search es.length (Cursor.lowerBound (es.map Prod.fst) target))⟩
      | none => ⟨⟨none, i⟩, none⟩

/-- The value under a key: only the first run whose index key reaches the key may hold it, and not if
that index key is the key itself. -/
def find [LinearOrder κ] (key : κ) : Option β :=
  match Cursor.lowerBound r.index key with
  | none => none
  | some i => if r.index[i]? = some key then none else (r.entriesAt i).lookup key

variable {r}

theorem entriesAt_of_length_le {i : Nat} (h : r.runs.length ≤ i) : r.entriesAt i = [] := by
  rw [entriesAt, List.getElem?_eq_none h]
  rfl

theorem firstFrom_eq_some_iff {n i : Nat} :
    r.firstFrom n = some i ↔
      n ≤ i ∧ r.entriesAt i ≠ [] ∧ ∀ j, n ≤ j → j < i → r.entriesAt j = [] := by
  rw [firstFrom, List.find?_range_eq_some]
  simp only [Bool.and_eq_true, decide_eq_true_eq, List.mem_range, Bool.not_eq_true',
    Bool.and_eq_false_iff, decide_eq_false_iff_not, Bool.not_eq_false', List.isEmpty_iff,
    List.isEmpty_eq_false_iff]
  constructor
  · rintro ⟨⟨hle, hne⟩, -, hbefore⟩
    exact ⟨hle, hne, fun j hj hlt => (hbefore j hlt).resolve_left (not_not.mpr hj)⟩
  · rintro ⟨hle, hne, hbefore⟩
    refine ⟨⟨hle, hne⟩, ?_, fun j hlt => ?_⟩
    · by_contra hge
      exact hne (entriesAt_of_length_le (not_lt.mp hge))
    · by_cases hj : n ≤ j
      · exact Or.inr (hbefore j hj hlt)
      · exact Or.inl hj

theorem firstFrom_eq_none_iff {n : Nat} :
    r.firstFrom n = none ↔ ∀ j, n ≤ j → r.entriesAt j = [] := by
  rw [firstFrom, List.find?_range_eq_none]
  simp only [Bool.not_eq_true', Bool.and_eq_false_iff, decide_eq_false_iff_not,
    Bool.not_eq_false', List.isEmpty_iff]
  constructor
  · intro h j hj
    by_cases hlt : j < r.runs.length
    · exact (h j hlt).resolve_left (not_not.mpr hj)
    · exact entriesAt_of_length_le (not_lt.mp hlt)
  · intro h j _
    by_cases hj : n ≤ j
    · exact Or.inr (h j hj)
    · exact Or.inl hj

/-- In runs that have every key at most once, what is found is the entry in the run that should hold
it. -/
theorem find_eq_some_iff [LinearOrder κ] (h : ∀ i, ((r.entriesAt i).map Prod.fst).Nodup) {key : κ}
    {val : β} : r.find key = some val ↔ ∃ i, Cursor.lowerBound r.index key = some i ∧
      r.index[i]? ≠ some key ∧ (key, val) ∈ r.entriesAt i := by
  rw [find]
  cases hbound : Cursor.lowerBound r.index key with
  | none => simp
  | some i =>
      dsimp only
      constructor
      · intro hfind
        split at hfind
        · cases hfind
        · rename_i hne
          exact ⟨i, rfl, hne, (Recency.lookup_eq_some_iff_mem (h i)).mp hfind⟩
      · rintro ⟨j, hj, hne, hmem⟩
        obtain rfl := Option.some.inj hj
        rw [if_neg hne]
        exact (Recency.lookup_eq_some_iff_mem (h i)).mpr hmem

end IndexedRuns

end Foundation
