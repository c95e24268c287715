import Mathlib.Algebra.Order.Group.Nat
import Mathlib.Data.List.Lex
import SSTable.Foundation.Execution

/-!
# Byte strings, machine words and their order

Byte strings are lists of {lit}`UInt8` compared lexicographically.  Slicing and
the machine-word operations return executions, because each of them can stop
the program that uses it.

Main results:

- Theorem {lit}`leValue_leBytes`: little-endian words round-trip up to
  truncation.
- Theorems {lit}`take_commonPrefixLength` and {lit}`getElem_commonPrefixLength_ne`:
  the common prefix of two byte strings agrees, and is the longest one.
- Theorem {lit}`lt_iff_extends_or_differs`: one byte string precedes another exactly
  when it is a proper prefix or loses at the first difference.
-/

namespace Foundation

/-- Bytes are ordered by value.  The fields are the order and the decision
procedures that {lit}`UInt8` already carries. -/
instance byteLinearOrder : LinearOrder UInt8 where
  le_refl := UInt8.le_refl
  le_trans _ _ _ := UInt8.le_trans
  le_antisymm _ _ := UInt8.le_antisymm
  le_total := UInt8.le_total
  lt_iff_le_not_ge a b := by
    simp only [UInt8.lt_iff_toNat_lt, UInt8.le_iff_toNat_le]
    omega
  toDecidableLE := inferInstance
  toDecidableEq := inferInstance
  toDecidableLT := inferInstance

/-- A string of bytes. -/
abbrev Bytes := List UInt8

namespace Bytes

open Exec

/-! ## Machine words -/

/-- The first value a 64-bit word cannot hold. -/
def wordLimit : Nat := 2 ^ 64

/-- Checked 64-bit addition. -/
def wordAdd (a b : Nat) : Exec Nat :=
  if a + b < wordLimit then .ok (a + b) else .error .arithmetic

/-- Checked 64-bit multiplication. -/
def wordMul (a b : Nat) : Exec Nat :=
  if a * b < wordLimit then .ok (a * b) else .error .arithmetic

/-- Checked unsigned subtraction. -/
def wordSub (a b : Nat) : Exec Nat :=
  if b ≤ a then .ok (a - b) else .error .arithmetic

theorem wordAdd_of_lt {a b : Nat} (h : a + b < wordLimit) : wordAdd a b = .ok (a + b) := by
  simp [wordAdd, h]

theorem wordMul_of_lt {a b : Nat} (h : a * b < wordLimit) : wordMul a b = .ok (a * b) := by
  simp [wordMul, h]

theorem wordMul_of_le {a b : Nat} (h : wordLimit ≤ a * b) :
    wordMul a b = .error .arithmetic := by
  simp [wordMul, h]

theorem wordSub_of_le {a b : Nat} (h : b ≤ a) : wordSub a b = .ok (a - b) := by
  simp [wordSub, h]

theorem wordAdd_eq_ok_iff {a b c : Nat} :
    wordAdd a b = .ok c ↔ a + b < wordLimit ∧ c = a + b := by
  unfold wordAdd
  split <;> simp_all [eq_comm]

theorem wordSub_eq_ok_iff {a b c : Nat} : wordSub a b = .ok c ↔ b ≤ a ∧ c = a - b := by
  unfold wordSub
  split <;> simp_all [eq_comm]

/-! ## Slices -/

/-- The bytes at positions {lit}`i` up to {lit}`j`, if that is a range of the string. -/
def slice (b : Bytes) (i j : Nat) : Exec Bytes :=
  if i ≤ j ∧ j ≤ b.length then .ok ((b.drop i).take (j - i)) else .error .outOfBounds

/-- The bytes from position {lit}`i` on. -/
def sliceFrom (b : Bytes) (i : Nat) : Exec Bytes :=
  if i ≤ b.length then .ok (b.drop i) else .error .outOfBounds

/-- Cut or pad a string to the given length. -/
def resize (b : Bytes) (n : Nat) (x : UInt8) : Bytes :=
  b.take n ++ List.replicate (n - b.length) x

theorem slice_of_le {b : Bytes} {i j : Nat} (hij : i ≤ j) (hj : j ≤ b.length) :
    slice b i j = .ok ((b.drop i).take (j - i)) := by
  simp [slice, hij, hj]

theorem sliceFrom_of_le {b : Bytes} {i : Nat} (hi : i ≤ b.length) :
    sliceFrom b i = .ok (b.drop i) := by
  simp [sliceFrom, hi]

theorem slice_eq_ok_iff {b : Bytes} {i j : Nat} {s : Bytes} :
    slice b i j = .ok s ↔ (i ≤ j ∧ j ≤ b.length) ∧ s = (b.drop i).take (j - i) := by
  unfold slice
  split <;> simp_all [eq_comm]

theorem sliceFrom_eq_ok_iff {b : Bytes} {i : Nat} {s : Bytes} :
    sliceFrom b i = .ok s ↔ i ≤ b.length ∧ s = b.drop i := by
  unfold sliceFrom
  split <;> simp_all [eq_comm]

/-- The middle part of a string, found at its offset. -/
theorem slice_middle (pre mid post : Bytes) :
    slice (pre ++ mid ++ post) pre.length (pre.length + mid.length) = .ok mid := by
  rw [slice_of_le (by omega) (by simp)]
  simp

/-- Positions behind a prefix are positions of the rest. -/
theorem slice_append_right (pre b : Bytes) (i j : Nat) :
    slice (pre ++ b) (pre.length + i) (pre.length + j) = slice b i j := by
  unfold slice
  rw [← List.drop_drop, List.drop_left, List.length_append, Nat.add_sub_add_left]
  simp only [Nat.add_le_add_iff_left]

/-- The last part of a string, found at its offset. -/
theorem sliceFrom_append (pre post : Bytes) :
    sliceFrom (pre ++ post) pre.length = .ok post := by
  rw [sliceFrom_of_le (by simp)]
  simp

/-- Behind a known part of the string, the rest is found. -/
theorem sliceFrom_of_drop_eq {b x y : Bytes} {i : Nat} (hi : i ≤ b.length)
    (h : b.drop i = x ++ y) : sliceFrom b (i + x.length) = .ok y := by
  have hlen := congrArg List.length h
  simp only [List.length_drop, List.length_append] at hlen
  rw [sliceFrom_of_le (by omega), ← List.drop_drop, h, List.drop_left]

/-- Behind a known part of the string, a part of known length is found. -/
theorem slice_of_drop_eq {b x y z : Bytes} {i : Nat} (hi : i ≤ b.length)
    (h : b.drop i = x ++ (y ++ z)) :
    slice b (i + x.length) (i + x.length + y.length) = .ok y := by
  have hlen := congrArg List.length h
  simp only [List.length_drop, List.length_append] at hlen
  rw [slice_of_le (by omega) (by omega), ← List.drop_drop, h, List.drop_left,
    Nat.add_sub_cancel_left, List.take_left]

/-- Behind what the front of a string is overwritten with, the string is what it was. -/
theorem drop_overwrite {x b : Bytes} {i : Nat} (hi : x.length ≤ i) :
    (x ++ b.drop x.length).drop i = b.drop i := by
  rw [List.drop_append, List.drop_of_length_le hi, List.nil_append, List.drop_drop,
    Nat.add_sub_cancel' hi]

theorem resize_of_le {b : Bytes} {n : Nat} (x : UInt8) (h : n ≤ b.length) :
    resize b n x = b.take n := by
  simp [resize, Nat.sub_eq_zero_of_le h]

/-! ## Little-endian words -/

/-- The {lit}`k` low bytes of a number, low byte first. -/
def leBytes : Nat → Nat → Bytes
  | 0, _ => []
  | k + 1, n => UInt8.ofNat n :: leBytes k (n / 256)

/-- The number written by a string of bytes, low byte first. -/
def leValue : Bytes → Nat
  | [] => 0
  | b :: bs => b.toNat + 256 * leValue bs

@[simp] theorem leBytes_length (k n : Nat) : (leBytes k n).length = k := by
  induction k generalizing n with
  | zero => rfl
  | succ k ih => simp [leBytes, ih]

/-- Reading back a written word truncates it to the width it was written with. -/
theorem leValue_leBytes (k n : Nat) : leValue (leBytes k n) = n % 256 ^ k := by
  induction k generalizing n with
  | zero => simp [leBytes, leValue, Nat.mod_one]
  | succ k ih =>
      have hbyte : (UInt8.ofNat n).toNat = n % 256 := by simp
      rw [leBytes, leValue, ih, hbyte, Nat.pow_succ', Nat.mod_mul]

theorem leValue_leBytes_of_lt {k n : Nat} (h : n < 256 ^ k) : leValue (leBytes k n) = n := by
  rw [leValue_leBytes, Nat.mod_eq_of_lt h]

/-- What does not fit the width is not written. -/
theorem leBytes_mod (k n : Nat) : leBytes k (n % 256 ^ k) = leBytes k n := by
  induction k generalizing n with
  | zero => rfl
  | succ k ih =>
      have hbyte : UInt8.ofNat (n % 256 ^ (k + 1)) = UInt8.ofNat n := by
        apply UInt8.toNat_inj.mp
        rw [UInt8.toNat_ofNat', UInt8.toNat_ofNat', Nat.pow_succ']
        exact Nat.mod_mul_right_mod n 256 (256 ^ k)
      rw [leBytes, leBytes, hbyte, Nat.pow_succ', Nat.mod_mul_right_div_self, ih]

/-- Words below the width's limit are told apart by their bytes. -/
theorem leBytes_injective {k m n : Nat} (hm : m < 256 ^ k) (hn : n < 256 ^ k)
    (h : leBytes k m = leBytes k n) : m = n := by
  rw [← leValue_leBytes_of_lt hm, ← leValue_leBytes_of_lt hn, h]

theorem leValue_lt (b : Bytes) : leValue b < 256 ^ b.length := by
  induction b with
  | nil => exact Nat.one_pos
  | cons x b ih =>
      have hx := x.toNat_lt
      rw [leValue, List.length_cons, Nat.pow_succ']
      omega

/-- A word determines the bytes it is stored in. -/
theorem leBytes_leValue (b : Bytes) : leBytes b.length (leValue b) = b := by
  induction b with
  | nil => rfl
  | cons x b ih =>
      have hx := x.toNat_lt
      have hbyte : UInt8.ofNat (x.toNat + 256 * leValue b) = x := by
        apply UInt8.toNat_inj.mp
        rw [UInt8.toNat_ofNat', Nat.add_mul_mod_self_left, Nat.mod_eq_of_lt hx]
      have hrest : (x.toNat + 256 * leValue b) / 256 = leValue b := by omega
      rw [leValue, List.length_cons, leBytes, hbyte, hrest, ih]

/-! ## Common prefixes -/

/-- The number of leading bytes two strings have in common. -/
def commonPrefixLength : Bytes → Bytes → Nat
  | x :: xs, y :: ys => if x = y then commonPrefixLength xs ys + 1 else 0
  | _, _ => 0

@[simp] theorem commonPrefixLength_nil_left (b : Bytes) : commonPrefixLength [] b = 0 := rfl

@[simp] theorem commonPrefixLength_nil_right (a : Bytes) : commonPrefixLength a [] = 0 := by
  cases a <;> rfl

@[simp] theorem commonPrefixLength_cons (x y : UInt8) (xs ys : Bytes) :
    commonPrefixLength (x :: xs) (y :: ys) =
      if x = y then commonPrefixLength xs ys + 1 else 0 := rfl

theorem commonPrefixLength_le_left (a b : Bytes) : commonPrefixLength a b ≤ a.length := by
  induction a generalizing b with
  | nil => simp
  | cons x xs ih =>
      cases b with
      | nil => simp
      | cons y ys =>
          simp only [commonPrefixLength_cons, List.length_cons]
          split
          · have := ih ys
            omega
          · omega

theorem commonPrefixLength_le_right (a b : Bytes) : commonPrefixLength a b ≤ b.length := by
  induction a generalizing b with
  | nil => simp
  | cons x xs ih =>
      cases b with
      | nil => simp
      | cons y ys =>
          simp only [commonPrefixLength_cons, List.length_cons]
          split
          · have := ih ys
            omega
          · omega

/-- Two strings agree on their common prefix. -/
theorem take_commonPrefixLength (a b : Bytes) :
    a.take (commonPrefixLength a b) = b.take (commonPrefixLength a b) := by
  induction a generalizing b with
  | nil => simp
  | cons x xs ih =>
      cases b with
      | nil => simp
      | cons y ys =>
          simp only [commonPrefixLength_cons]
          split
          · rename_i hxy
            simp [hxy, ih ys]
          · simp

/-- Past their common prefix, two strings that both go on differ. -/
theorem getElem_commonPrefixLength_ne (a b : Bytes)
    (ha : commonPrefixLength a b < a.length) (hb : commonPrefixLength a b < b.length) :
    a[commonPrefixLength a b] ≠ b[commonPrefixLength a b] := by
  induction a generalizing b with
  | nil => simp at ha
  | cons x xs ih =>
      cases b with
      | nil => simp at hb
      | cons y ys =>
          by_cases hxy : x = y
          · subst hxy
            simp only [commonPrefixLength_cons, if_true, List.length_cons] at ha hb ⊢
            simpa using ih ys (by omega) (by omega)
          · simp [hxy]

/-- The length of the longest common prefix of two strings. -/
structure LongestCommonPrefix (a b : Bytes) (n : Nat) : Prop where
  le_left : n ≤ a.length
  le_right : n ≤ b.length
  take_eq : a.take n = b.take n
  longest : ∀ m, m ≤ a.length → m ≤ b.length → a.take m = b.take m → m ≤ n

theorem longestCommonPrefix_commonPrefixLength (a b : Bytes) :
    LongestCommonPrefix a b (commonPrefixLength a b) where
  le_left := commonPrefixLength_le_left a b
  le_right := commonPrefixLength_le_right a b
  take_eq := take_commonPrefixLength a b
  longest := by
    intro m ha hb heq
    by_contra hlong
    apply getElem_commonPrefixLength_ne a b (by omega) (by omega)
    have hget := congrArg (fun l => l[commonPrefixLength a b]?) heq
    simp only [List.getElem?_take, if_pos (Nat.lt_of_not_le hlong)] at hget
    rwa [List.getElem?_eq_getElem (by omega), List.getElem?_eq_getElem (by omega),
      Option.some.injEq] at hget

/-! ## Lexicographic order -/

theorem nil_lt_of_ne_nil {b : Bytes} (h : b ≠ []) : ([] : Bytes) < b := by
  cases b with
  | nil => exact absurd rfl h
  | cons y ys => exact List.nil_lt_cons y ys

@[simp] theorem nil_le (b : Bytes) : ([] : Bytes) ≤ b := by
  cases b with
  | nil => exact le_rfl
  | cons y ys => exact (List.nil_lt_cons y ys).le

theorem append_lt_append_left_iff (p a b : Bytes) : p ++ a < p ++ b ↔ a < b := by
  induction p with
  | nil => simp
  | cons x xs ih => simp [ih]

/-- A string precedes its proper extensions. -/
theorem lt_append_of_ne_nil (a : Bytes) {b : Bytes} (h : b ≠ []) : a < a ++ b := by
  simpa using (append_lt_append_left_iff a [] b).mpr (nil_lt_of_ne_nil h)

/-- After a common prefix, the first differing byte decides. -/
theorem append_cons_lt_append_cons (p : Bytes) {x y : UInt8} (s t : Bytes) (h : x < y) :
    p ++ x :: s < p ++ y :: t := by
  rw [append_lt_append_left_iff, List.cons_lt_cons_iff]
  exact Or.inl h

/-- One string precedes another exactly when it is a proper prefix of it or has the
smaller byte where they first differ. -/
theorem lt_iff_extends_or_differs {a b : Bytes} :
    a < b ↔ (∃ c, c ≠ [] ∧ b = a ++ c) ∨
      ∃ p x y s t, x < y ∧ a = p ++ x :: s ∧ b = p ++ y :: t := by
  constructor
  · intro h
    induction a generalizing b with
    | nil =>
        refine Or.inl ⟨b, ?_, by simp⟩
        rintro rfl
        exact lt_irrefl _ h
    | cons x xs ih =>
        cases b with
        | nil => exact absurd h (not_lt.mpr (nil_le _))
        | cons y ys =>
            rcases List.cons_lt_cons_iff.mp h with hxy | ⟨rfl, hrest⟩
            · exact Or.inr ⟨[], x, y, xs, ys, hxy, rfl, rfl⟩
            · rcases ih hrest with ⟨c, hc, rfl⟩ | ⟨p, u, v, s, t, huv, rfl, rfl⟩
              · exact Or.inl ⟨c, hc, rfl⟩
              · exact Or.inr ⟨x :: p, u, v, s, t, huv, rfl, rfl⟩
  · rintro (⟨c, hc, rfl⟩ | ⟨p, x, y, s, t, hxy, rfl, rfl⟩)
    · exact lt_append_of_ne_nil a hc
    · exact append_cons_lt_append_cons p s t hxy

/-- Nothing lies between a key and the key with a zero byte behind it. -/
theorem not_lt_append_zero {a s : Bytes} (h : a < s) : ¬ s < a ++ [0] := by
  intro hbelow
  rcases lt_iff_extends_or_differs.mp h with ⟨c, hc, rfl⟩ | ⟨p, x, y, u, v, hxy, rfl, rfl⟩
  · rw [append_lt_append_left_iff] at hbelow
    cases c with
    | nil => exact hc rfl
    | cons z zs =>
        rcases List.cons_lt_cons_iff.mp hbelow with hz | ⟨-, hz⟩
        · exact absurd hz (not_lt.mpr UInt8.zero_le)
        · exact absurd hz (not_lt.mpr (nil_le _))
  · have habove := append_cons_lt_append_cons p (u ++ [0]) v hxy
    rw [List.append_assoc, List.cons_append] at hbelow
    exact lt_asymm habove hbelow

end Bytes

end Foundation
