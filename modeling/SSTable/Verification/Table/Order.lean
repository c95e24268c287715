import SSTable.Model.ReferenceCrates
import SSTable.Verification.Table.Written

/-!
# The order of the keys

The builder compares a key with the last one of the current block and, in front of the block,
with the last one of the block that was written before.  A key that arrives when the current
block is full is compared with neither of the keys next to it.

Main results:

- Theorem {lit}`written_increasing_iff`: exactly when the keys of a finished table increase.
- Theorem {lit}`equal_keys_written`: a key can be written twice in a row.
-/

namespace SSTable

open Foundation Foundation.Exec Foundation.Bytes

/-- The keys of a finished table increase exactly if every key that found the current block
full lies above the last key of that block. -/
theorem written_increasing_iff [Crates] (opt : Options) (es : List Entry) (n : Nat) (img : Bytes)
    (hcmp : opt.cmp = DefaultCmp)
    (hwrite : TableBuilder.writeTable opt [] es = .ok (.ok n, img)) :
    Increasing es ↔ ∀ c ∈ cuts opt es, c.entries ≠ [] → lastKeyOf c.entries < c.nextKey := by
  obtain ⟨hall, hpending, -⟩ := (TableBuilder.writeTable_iff hcmp).mp hwrite
  have hadmitted := TableBuilder.admitted_cuts hall hpending
  apply increasing_iff_boundaries
  intro c hc
  obtain ⟨i, hi, rfl⟩ := List.getElem_of_mem hc
  exact (hadmitted i _ (List.getElem?_eq_getElem hi)).2

/-- Options that close a data block behind every entry. -/
def tinyBlocks : Options := { Options.default with blockSize := 8 }

/-- The file that holds one key twice. -/
def equalKeysImage : Bytes :=
  letI := referenceCrates
  match TableBuilder.writeTable tinyBlocks ([] : Bytes) [([97], [1]), ([97], [2])] with
  | .ok (_, img) => img
  | .error _ => []

set_option maxRecDepth 10000 in
theorem equalKeysImage_eq : letI := referenceCrates
    TableBuilder.writeTable tinyBlocks ([] : Bytes) [([97], [1]), ([97], [2])] =
      .ok (.ok 184, equalKeysImage) := by
  decide +kernel

/-- The condition at a table that holds one key twice: neither side holds. -/
theorem written_increasing_iff_equal_keys : letI := referenceCrates
    Increasing [([97], [1]), ([97], [2])] ↔
      ∀ c ∈ cuts tinyBlocks [([97], [1]), ([97], [2])],
        c.entries ≠ [] → lastKeyOf c.entries < c.nextKey :=
  letI := referenceCrates
  written_increasing_iff tinyBlocks [([97], [1]), ([97], [2])] 184 equalKeysImage rfl
    equalKeysImage_eq

/-- A key can be written twice in a row: the second one finds the current block full. -/
theorem equal_keys_written : letI := referenceCrates
    ¬ ∀ (opt : Options) (es : List Entry) (n : Nat) (img : Bytes), opt.cmp = DefaultCmp →
      1 ≤ opt.blockRestartInterval →
      TableBuilder.writeTable opt [] es = .ok (.ok n, img) → Increasing es := by
  intro h
  have hinc := h tinyBlocks [([97], [1]), ([97], [2])] 184 equalKeysImage rfl (by decide)
    equalKeysImage_eq
  revert hinc
  decide

end SSTable
