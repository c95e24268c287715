import SSTable.Foundation.Separators
import SSTable.Verification.Table.Written

/-!
# The separators of a sorted table

For increasing keys that are not empty, the separators in the index increase, none of them is
empty, and each lies above the keys of its block and not above those of the later blocks.

Main results:

- Theorem {lit}`separator_law_iff`: which keys have a separator between them.
- Theorem {lit}`Cut.sep_spec`: the separator of one block.
- Theorem {lit}`cuts_separated`: the separators separate the blocks.
- Theorem {lit}`indexEntries_increasing`: the keys of the index increase and are not empty.
-/

namespace SSTable

open Foundation Foundation.Exec Foundation.Bytes

/-- The separator of two keys in order is found without a failing assertion, does not lie below the
first and lies below the second, and it lies above the first where there is room, exactly if the
second is not the first with a zero byte behind it. -/
theorem separator_law_iff (a b : Bytes) (h : a < b) :
    (∃ s, DefaultCmp.findShortestSep a b = .ok s ∧ a ≤ s ∧ s < b ∧
      ((∃ t, a < t ∧ t < b) → a < s)) ↔ b ≠ a ++ [0] := by
  obtain ⟨s, hsep, hlow, hhigh⟩ := DefaultCmp.findShortestSep_spec h
  constructor
  · rintro ⟨s', hsep', -, hbelow, -⟩ hzero
    obtain rfl := Except.ok.inj (hsep.symm.trans hsep')
    rw [hzero] at hbelow
    exact not_lt_append_zero hlow hbelow
  · intro hroom
    rcases hhigh with hbelow | ⟨-, hzero⟩
    · exact ⟨s, hsep, hlow.le, hbelow, fun _ => hlow⟩
    · exact absurd hzero hroom

/-- Two keys without room at the first difference, but behind it. -/
theorem separator_law_iff_neighbours :
    (∃ s, DefaultCmp.findShortestSep [97, 5] [98, 9] = .ok s ∧ [97, 5] ≤ s ∧ s < [98, 9] ∧
      ((∃ t : Bytes, [97, 5] < t ∧ t < [98, 9]) → [97, 5] < s)) ↔ ([98, 9] : Bytes) ≠ [97, 5] ++ [0] :=
  separator_law_iff [97, 5] [98, 9] (by decide)

/-- The separator of a key and the same key with a zero byte behind it is the latter. -/
theorem separator_not_below :
    ([97] : Bytes) < [97, 0] ∧ DefaultCmp.findShortestSep [97] [97, 0] = .ok [97, 0] ∧
      ¬ ∃ s, DefaultCmp.findShortestSep [97] [97, 0] = .ok s ∧ s < [97, 0] := by
  have hsep : DefaultCmp.findShortestSep [97] [97, 0] = .ok [97, 0] :=
    DefaultCmp.findShortestSep_append_zero [97]
  refine ⟨by decide, hsep, ?_⟩
  rintro ⟨s, hs, hbelow⟩
  obtain rfl := Except.ok.inj (hsep.symm.trans hs)
  exact lt_irrefl _ hbelow

/-- The separator of a block whose last key lies below the key it is separated from. -/
theorem Cut.sep_spec {c : Cut} (h : lastKeyOf c.entries < c.nextKey) :
    DefaultCmp.findShortestSep (lastKeyOf c.entries) c.nextKey = .ok c.sep ∧
      lastKeyOf c.entries < c.sep ∧
      (c.sep < c.nextKey ∨ (c.sep = c.nextKey ∧ c.nextKey = lastKeyOf c.entries ++ [0])) := by
  obtain ⟨s, hs, hlow, hhigh⟩ := DefaultCmp.findShortestSep_spec h
  rw [Cut.sep_of_ok hs]
  exact ⟨hs, hlow, hhigh⟩

variable [Crates] {opt : Options} {es : List Entry}

/-- Every block of a sorted table is sorted. -/
theorem cut_increasing (hinc : Increasing es) {c : Cut} (hc : c ∈ cuts opt es) :
    Increasing c.entries := by
  have hsub : c.entries.Sublist es := by
    have hmem : c.entries ∈ (cuts opt es).map Cut.entries := List.mem_map_of_mem hc
    have hflat := List.sublist_flatten_of_mem hmem
    rwa [← entriesOf, flatten_cuts] at hflat
  exact List.Pairwise.sublist (hsub.map Prod.fst) hinc

theorem cut_nonEmptyKeys (hkeys : NonEmptyKeys es) {c : Cut} (hc : c ∈ cuts opt es) :
    NonEmptyKeys c.entries := by
  intro e he
  apply hkeys
  rw [← flatten_cuts opt es, entriesOf]
  exact List.mem_flatten.mpr ⟨c.entries, List.mem_map_of_mem hc, he⟩

/-- The key a block is separated from lies above the block's last key, also where the block is
empty. -/
theorem cut_lt_nextKey (hinc : Increasing es) (hkeys : NonEmptyKeys es) {c : Cut}
    (hc : c ∈ cuts opt es) : lastKeyOf c.entries < c.nextKey := by
  by_cases hnil : c.entries = []
  · obtain ⟨i, hi, rfl⟩ := List.getElem_of_mem hc
    by_cases hlast : i + 1 = (cuts opt es).length
    · exact lt_nextKey_of_last (List.getElem?_eq_getElem hi) hlast
    · -- The next block begins with that key.
      have hnext := List.getElem?_eq_getElem (show i + 1 < (cuts opt es).length by omega)
      have hhead := cuts_chained opt es i _ _ (List.getElem?_eq_getElem hi) hnext
      rw [hnil, lastKeyOf_nil]
      apply nil_lt_of_ne_nil
      rw [Option.map_eq_some_iff] at hhead
      obtain ⟨e, he, hkey⟩ := hhead
      rw [← hkey]
      exact cut_nonEmptyKeys hkeys (List.mem_of_getElem? hnext) e (List.mem_of_mem_head? he)
  · exact (increasing_iff_boundaries fun c hc => cut_increasing hinc hc).mp hinc c hc hnil

/-- Where every block is separated from a key above its own, the separators separate the blocks. -/
theorem cuts_separated_of_lt (hinc : Increasing es)
    (hlast : ∀ c ∈ cuts opt es, lastKeyOf c.entries < c.nextKey) :
    Separated ((cuts opt es).map Cut.sep) ((cuts opt es).map fun c => keysOf c.entries) where
  length_eq := by simp
  lt_sep := by
    intro i s b k hs hb hk
    simp only [List.getElem?_map, Option.map_eq_some_iff] at hs hb
    obtain ⟨c, hc, rfl⟩ := hs
    obtain ⟨c', hc', rfl⟩ := hb
    rw [hc, Option.some.injEq] at hc'
    subst hc'
    have hmem := List.mem_of_getElem? hc
    have hle := (cut_increasing hinc hmem).le_lastKeyOf hk
    exact lt_of_le_of_lt hle (Cut.sep_spec (hlast c hmem)).2.1
  sep_le := by
    intro i j s b k hij hs hb hk
    simp only [List.getElem?_map, Option.map_eq_some_iff] at hs hb
    obtain ⟨c, hc, rfl⟩ := hs
    obtain ⟨d, hd, rfl⟩ := hb
    have hle : c.sep ≤ c.nextKey := by
      rcases (Cut.sep_spec (hlast c (List.mem_of_getElem? hc))).2.2 with hsep | ⟨hsep, -⟩
      · exact hsep.le
      · exact hsep.le
    have hall : Increasing (entriesOf (cuts opt es)) := by rwa [flatten_cuts]
    exact hle.trans (nextKey_le (cuts_chained opt es) hall hij hc hd hk)

/-- The separators of a sorted table separate its blocks. -/
theorem cuts_separated (hinc : Increasing es) (hkeys : NonEmptyKeys es) :
    Separated ((cuts opt es).map Cut.sep) ((cuts opt es).map fun c => keysOf c.entries) :=
  cuts_separated_of_lt hinc fun _ hc => cut_lt_nextKey hinc hkeys hc

/-- The separators of a sorted table increase. -/
theorem seps_pairwise_of_lt (hinc : Increasing es)
    (hlast : ∀ c ∈ cuts opt es, lastKeyOf c.entries < c.nextKey) :
    ((cuts opt es).map Cut.sep).Pairwise (· < ·) := by
  rw [List.pairwise_iff_getElem]
  intro i j hi hj hij
  rw [List.length_map] at hi hj
  have hci := List.getElem?_eq_getElem hi
  have hcj := List.getElem?_eq_getElem hj
  have hmem := List.mem_of_getElem? hcj
  rw [List.getElem_map, List.getElem_map]
  -- A block that is not the first one has a last key, and it lies between the separators.
  have hne : (cuts opt es)[j].entries ≠ [] := by
    obtain ⟨m, rfl⟩ : ∃ m, j = m + 1 := ⟨j - 1, by omega⟩
    exact cut_succ_ne_nil (cuts_chained opt es) hcj
  have hle := (cuts_separated_of_lt hinc hlast).sep_le hij (by rw [List.getElem?_map, hci]; rfl)
    (by rw [List.getElem?_map, hcj]; rfl) (lastKeyOf_mem hne)
  exact lt_of_le_of_lt hle (Cut.sep_spec (hlast _ hmem)).2.1

theorem sep_ne_nil (hinc : Increasing es) (hkeys : NonEmptyKeys es) {c : Cut}
    (hc : c ∈ cuts opt es) : c.sep ≠ [] := by
  have hlt := (Cut.sep_spec (cut_lt_nextKey hinc hkeys hc)).2.1
  intro hnil
  rw [hnil] at hlt
  exact absurd (lt_of_le_of_lt (nil_le _) hlt) (lt_irrefl _)

/-- The keys of the index of a sorted table increase and are not empty. -/
theorem indexEntries_increasing (opt : Options) (hinc : Increasing es) (hkeys : NonEmptyKeys es) :
    Increasing (indexEntries opt (cuts opt es)) ∧ NonEmptyKeys (indexEntries opt (cuts opt es)) := by
  constructor
  · rw [Increasing, keysOf_indexEntries]
    exact seps_pairwise_of_lt hinc fun _ hc => cut_lt_nextKey hinc hkeys hc
  · intro e he
    have hmem : e.1 ∈ keysOf (indexEntries opt (cuts opt es)) := List.mem_map_of_mem he
    rw [keysOf_indexEntries, List.mem_map] at hmem
    obtain ⟨c, hc, hsep⟩ := hmem
    rw [← hsep]
    exact sep_ne_nil hinc hkeys hc

end SSTable
