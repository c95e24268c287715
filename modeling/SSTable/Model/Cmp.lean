import SSTable.Model.Types

/-!
# Comparators

The comparator trait and the default bytewise comparator with its two key
shorteners.

Main results:

- Theorem {lit}`findShortestSep_spec`: below a larger key, the separator is found
  without a failed assertion, lies above the first key, and lies below the second
  one unless the second is the first followed by a zero byte.
- Theorem {lit}`findShortestSep_gt`: a separator of distinct keys lies above the
  first one, in whatever order they are given.
- Theorem {lit}`lt_findShortSucc`: the short successor lies above its key.
-/

namespace SSTable

open Foundation Foundation.Exec Foundation.Bytes

/-- The comparator trait. -/
structure Cmp where
  cmp : Bytes → Bytes → Ordering
  findShortestSep : Bytes → Bytes → Exec Bytes
  findShortSucc : Bytes → Bytes

namespace DefaultCmp

/-- Lexicographic comparison of byte strings. -/
def cmp (a b : Bytes) : Ordering :=
  if a < b then .lt else if a = b then .eq else .gt

/-- Walk two strings in parallel, looking for a byte that can be incremented and stays
below the byte opposite; {lit}`passed` is what was walked over in the first string. -/
def sepScan (passed : Bytes) : Bytes → Bytes → Option Bytes
  | x :: xs, y :: ys =>
      if x < 0xff ∧ x + 1 < y then some (passed ++ [x + 1]) else sepScan (passed ++ [x]) xs ys
  | _, _ => none

/-- A short string between two keys. -/
def findShortestSep (a b : Bytes) : Exec Bytes :=
  if a = b then
    pure a
  else
    let diffAt := commonPrefixLength a b
    match sepScan (a.take diffAt) (a.drop diffAt) (b.drop diffAt) with
    | some sep => do
        ensure (cmp sep b = .lt)
        pure sep
    -- Backup case: no place leaves room for an incremented byte.
    | none => pure (a ++ [0])

/-- Increment the first byte that is not {lit}`0xff` and drop what follows it. -/
def succScan (passed : Bytes) : Bytes → Bytes
  | [] => passed ++ [255]
  | x :: xs => if x ≠ 0xff then passed ++ [x + 1] else succScan (passed ++ [x]) xs

/-- A short string above a key. -/
def findShortSucc (a : Bytes) : Bytes := succScan [] a

end DefaultCmp

/-- The bytewise comparator. -/
def DefaultCmp : Cmp where
  cmp := DefaultCmp.cmp
  findShortestSep := DefaultCmp.findShortestSep
  findShortSucc := DefaultCmp.findShortSucc

@[simp] theorem defaultCmp_cmp : Cmp.cmp DefaultCmp = DefaultCmp.cmp := rfl

@[simp] theorem defaultCmp_findShortestSep :
    Cmp.findShortestSep DefaultCmp = DefaultCmp.findShortestSep := rfl

@[simp] theorem defaultCmp_findShortSucc :
    Cmp.findShortSucc DefaultCmp = DefaultCmp.findShortSucc := rfl

namespace DefaultCmp

@[simp] theorem cmp_eq_lt_iff {a b : Bytes} : cmp a b = .lt ↔ a < b := by
  unfold cmp
  split_ifs <;> simp_all

@[simp] theorem cmp_eq_eq_iff {a b : Bytes} : cmp a b = .eq ↔ a = b := by
  unfold cmp
  split_ifs with hlt heq
  · simp [hlt.ne]
  · simp [heq]
  · simp [heq]

@[simp] theorem cmp_eq_gt_iff {a b : Bytes} : cmp a b = .gt ↔ b < a := by
  unfold cmp
  split_ifs with hlt heq
  · simp [hlt.le]
  · simp [heq]
  · simpa using lt_of_le_of_ne (not_lt.mp hlt) (Ne.symm heq)

/-! ## Separators -/

private theorem byte_lt_add_one {x : UInt8} (h : x < 0xff) : x < x + 1 := by
  rw [UInt8.lt_iff_toNat_lt] at h ⊢
  have hmax : (0xff : UInt8).toNat = 255 := rfl
  rw [UInt8.toNat_add]
  simp only [UInt8.reduceToNat] at *
  omega

/-- What the scan finds starts with what it walked over and lies above the scanned key. -/
theorem sepScan_eq_some {passed xs ys s : Bytes} (h : sepScan passed xs ys = some s) :
    passed <+: s ∧ passed ++ xs < s := by
  induction xs generalizing passed ys with
  | nil => simp [sepScan] at h
  | cons x xs ih =>
      cases ys with
      | nil => simp [sepScan] at h
      | cons y ys =>
          simp only [sepScan] at h
          split at h
          · rename_i hroom
            cases h
            exact ⟨List.prefix_append _ _,
              append_cons_lt_append_cons passed xs [] (byte_lt_add_one hroom.1)⟩
          · obtain ⟨hpre, hlt⟩ := ih h
            exact ⟨(List.prefix_append passed [x]).trans hpre, by simpa using hlt⟩

/-- The scan of a smaller key stays below the larger one, although it goes on past the
first difference. -/
theorem sepScan_lt {passed xs ys s : Bytes} (h : sepScan passed xs ys = some s)
    (hlt : xs < ys) : s < passed ++ ys := by
  induction xs generalizing passed ys with
  | nil => simp [sepScan] at h
  | cons x xs ih =>
      cases ys with
      | nil => simp [sepScan] at h
      | cons y ys =>
          simp only [sepScan] at h
          split at h
          · rename_i hroom
            cases h
            exact append_cons_lt_append_cons passed [] ys hroom.2
          · rcases List.cons_lt_cons_iff.mp hlt with hxy | ⟨rfl, hrest⟩
            -- Everything the scan can still return starts with the smaller byte.
            · obtain ⟨t, rfl⟩ := (sepScan_eq_some h).1
              simpa using append_cons_lt_append_cons passed t ys hxy
            · simpa using ih h hrest

/-- A separator of two distinct keys lies above the first. -/
theorem findShortestSep_gt {a b s : Bytes} (hne : a ≠ b) (h : findShortestSep a b = .ok s) :
    a < s := by
  simp only [findShortestSep, if_neg hne] at h
  split at h
  · rename_i sep hscan
    simp only [bind_eq_ok_iff, ensure_eq_ok_iff, pure_eq_ok, Except.ok.injEq] at h
    obtain ⟨_, _, rfl⟩ := h
    simpa using (sepScan_eq_some hscan).2
  · simp only [pure_eq_ok, Except.ok.injEq] at h
    rw [← h]
    exact lt_append_of_ne_nil a (by simp)

private theorem append_zero_le {a b : Bytes} (h : a < b) :
    a ++ [0] < b ∨ (a ++ [0] = b ∧ b = a ++ [0]) := by
  rcases lt_iff_extends_or_differs.mp h with ⟨c, hc, rfl⟩ | ⟨p, x, y, s, t, hxy, rfl, rfl⟩
  · cases c with
    | nil => exact absurd rfl hc
    | cons y ys =>
        rw [append_lt_append_left_iff, List.cons_lt_cons_iff]
        rcases (UInt8.zero_le : (0 : UInt8) ≤ y).lt_or_eq with hy | rfl
        · exact Or.inl (Or.inl hy)
        · cases ys with
          | nil => simp
          | cons z zs => exact Or.inl (Or.inr ⟨rfl, List.nil_lt_cons z zs⟩)
  · exact Or.inl (by simpa using append_cons_lt_append_cons p (s ++ [0]) t hxy)

/-- Below a larger key the separator is found, lies above the first key, and lies below
the second unless nothing but a zero byte separates them. -/
theorem findShortestSep_spec {a b : Bytes} (h : a < b) :
    ∃ s, findShortestSep a b = .ok s ∧ a < s ∧ (s < b ∨ (s = b ∧ b = a ++ [0])) := by
  have hne : a ≠ b := h.ne
  have hdrop : a.drop (commonPrefixLength a b) < b.drop (commonPrefixLength a b) := by
    rw [← append_lt_append_left_iff (a.take (commonPrefixLength a b)), List.take_append_drop,
      take_commonPrefixLength, List.take_append_drop]
    exact h
  cases hscan : sepScan (a.take (commonPrefixLength a b)) (a.drop (commonPrefixLength a b))
      (b.drop (commonPrefixLength a b)) with
  | some sep =>
      have hbelow : sep < b := by
        have := sepScan_lt hscan hdrop
        rwa [take_commonPrefixLength, List.take_append_drop] at this
      have habove : a < sep := by simpa using (sepScan_eq_some hscan).2
      exact ⟨sep, by simp [findShortestSep, hne, hscan, ensure_of_true, hbelow], habove,
        Or.inl hbelow⟩
  | none =>
      exact ⟨a ++ [0], by simp [findShortestSep, hne, hscan],
        lt_append_of_ne_nil a (by simp), append_zero_le h⟩

/-- Next to a key that only adds a zero byte, the separator is that key. -/
theorem findShortestSep_append_zero (a : Bytes) :
    findShortestSep a (a ++ [0]) = .ok (a ++ [0]) := by
  obtain ⟨s, hs, hlow, hhigh | ⟨rfl, _⟩⟩ :=
    findShortestSep_spec (lt_append_of_ne_nil a (b := [0]) (by simp))
  · exact absurd hhigh (not_lt_append_zero hlow)
  · exact hs

/-! ## Successors -/

theorem lt_succScan (passed xs : Bytes) : passed ++ xs < succScan passed xs := by
  induction xs generalizing passed with
  | nil => simpa [succScan] using lt_append_of_ne_nil passed (b := [255]) (by simp)
  | cons x xs ih =>
      simp only [succScan]
      split
      · rename_i hx
        have hlt : x < 0xff := by
          rw [UInt8.lt_iff_toNat_lt]
          have hbound := x.toNat_lt
          have hne : x.toNat ≠ (0xff : UInt8).toNat := fun h => hx (UInt8.toNat_inj.mp h)
          simp only [UInt8.reduceToNat] at *
          omega
        exact append_cons_lt_append_cons passed xs [] (byte_lt_add_one hlt)
      · simpa using ih (passed ++ [x])

/-- The short successor lies above its key. -/
theorem lt_findShortSucc (a : Bytes) : a < findShortSucc a := by
  simpa [findShortSucc] using lt_succScan [] a

end DefaultCmp

end SSTable
