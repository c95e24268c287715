import SSTable.Foundation.ByteString

/-!
# Concatenations with offsets

A sequence of lists, such as byte strings, stored as their concatenation together with the
offset at which each of them begins.

Main results:

- Theorem {lit}`startsFrom_append`: the offsets of a longer sequence.
- Theorem {lit}`slice_piece`: a piece lies between its offset and the next one.
- Theorem {lit}`slice_word`: a word of an array is found at its index.
-/

namespace Foundation

namespace Pieces

open Exec Bytes

variable {α : Type}

/-- The offsets at which the pieces begin, the first one at the given offset. -/
def startsFrom (off : Nat) : List (List α) → List Nat
  | [] => []
  | x :: xs => off :: startsFrom (off + x.length) xs

/-- The offsets at which the pieces begin. -/
def starts (xs : List (List α)) : List Nat := startsFrom 0 xs

@[simp] theorem startsFrom_length (off : Nat) (xs : List (List α)) :
    (startsFrom off xs).length = xs.length := by
  induction xs generalizing off with
  | nil => rfl
  | cons x xs ih => simp [startsFrom, ih]

@[simp] theorem starts_length (xs : List (List α)) : (starts xs).length = xs.length :=
  startsFrom_length 0 xs

theorem startsFrom_append (off : Nat) (xs ys : List (List α)) :
    startsFrom off (xs ++ ys) = startsFrom off xs ++ startsFrom (off + xs.flatten.length) ys := by
  induction xs generalizing off with
  | nil => simp [startsFrom]
  | cons x xs ih => simp [startsFrom, ih, Nat.add_assoc]

theorem starts_concat (xs : List (List α)) (x : List α) :
    starts (xs ++ [x]) = starts xs ++ [xs.flatten.length] := by
  simp [starts, startsFrom_append, startsFrom]

/-- Every piece begins where the pieces before it end. -/
theorem starts_getElem? {xs : List (List α)} {i : Nat} (hi : i < xs.length) :
    (starts xs)[i]? = some (xs.take i).flatten.length := by
  have hsplit := startsFrom_append 0 (xs.take i) (xs.drop i)
  rw [List.take_append_drop, List.drop_eq_getElem_cons hi] at hsplit
  have hlen : (startsFrom 0 (xs.take i)).length = i := by
    rw [startsFrom_length, List.length_take, Nat.min_eq_left hi.le]
  rw [starts, hsplit, List.getElem?_append_right hlen.le, hlen]
  simp [startsFrom]

/-- The end of a piece is the beginning of the next. -/
theorem flatten_take_succ {xs : List (List α)} {i : Nat} {x : List α} (h : xs[i]? = some x) :
    (xs.take (i + 1)).flatten.length = (xs.take i).flatten.length + x.length := by
  rw [List.take_add_one, h]
  simp

theorem flatten_take_le (xs : List (List α)) (i : Nat) :
    (xs.take i).flatten.length ≤ xs.flatten.length := by
  have hsplit := congrArg List.flatten (List.take_append_drop i xs)
  rw [List.flatten_append] at hsplit
  have := congrArg List.length hsplit
  rw [List.length_append] at this
  omega

/-- The pieces in front of a piece, the piece, and the pieces behind it. -/
theorem flatten_around {xs : List (List α)} {i : Nat} {x : List α} (h : xs[i]? = some x) :
    xs.flatten = (xs.take i).flatten ++ (x ++ (xs.drop (i + 1)).flatten) := by
  obtain ⟨hi, rfl⟩ := List.getElem?_eq_some_iff.mp h
  have hparts := congrArg List.flatten (List.take_append_drop i xs)
  rw [List.drop_eq_getElem_cons hi, List.flatten_append, List.flatten_cons] at hparts
  exact hparts.symm

/-- An element of a piece is found in the concatenation. -/
theorem flatten_getElem? {xs : List (List α)} {i j : Nat} {x : List α} (h : xs[i]? = some x)
    (hj : j < x.length) : xs.flatten[(xs.take i).flatten.length + j]? = x[j]? := by
  rw [flatten_around h, List.getElem?_append_right (by omega), Nat.add_sub_cancel_left,
    List.getElem?_append_left hj]

/-- A piece lies between its offset and the next one. -/
theorem slice_piece {xs : List Bytes} {i : Nat} {x : Bytes} (h : xs[i]? = some x) (rest : Bytes) :
    slice (xs.flatten ++ rest) (xs.take i).flatten.length
      ((xs.take i).flatten.length + x.length) = .ok x := by
  have hsplit : xs.flatten ++ rest =
      (xs.take i).flatten ++ x ++ ((xs.drop (i + 1)).flatten ++ rest) := by
    rw [flatten_around h]
    simp only [List.append_assoc]
  rw [hsplit]
  exact slice_middle _ _ _

/-! ## Arrays of words -/

/-- Numbers written as words of the given width, one after the other. -/
def words (k : Nat) (xs : List Nat) : Bytes := (xs.map (leBytes k)).flatten

@[simp] theorem words_length (k : Nat) (xs : List Nat) : (words k xs).length = k * xs.length := by
  induction xs with
  | nil => rfl
  | cons x xs ih =>
      rw [words, List.map_cons, List.flatten_cons, List.length_append, ← words, ih, leBytes_length,
        List.length_cons, Nat.mul_succ, Nat.add_comm]

/-- A word of an array is found at its index. -/
theorem slice_word {k : Nat} {xs : List Nat} {i x : Nat} (h : xs[i]? = some x) (rest : Bytes) :
    slice (words k xs ++ rest) (k * i) (k * i + k) = .ok (leBytes k x) := by
  have hi := (List.getElem?_eq_some_iff.mp h).1
  have hpiece : (xs.map (leBytes k))[i]? = some (leBytes k x) := by
    rw [List.getElem?_map, h, Option.map_some]
  have hslice := slice_piece hpiece rest
  have hfront := words_length k (xs.take i)
  rw [words, List.map_take, List.length_take, Nat.min_eq_left hi.le] at hfront
  rwa [hfront, leBytes_length] at hslice

end Pieces

end Foundation
