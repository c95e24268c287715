import SSTable.Verification.Filter.Bloom
import SSTable.Verification.Filter.Block

/-!
# Filter blocks hide no key

Whatever the policy is, as long as its filters are not empty and admit the keys they were created
from, the filter that the reader finds for a data block admits the keys of the block.

Main results:

- Theorem {lit}`filter_block_admits`: every key of every block is admitted.
-/

namespace SSTable

open Foundation Foundation.Exec Foundation.Bytes Foundation.Pieces

/-- The policy creates a filter for the keys which is not empty and which admits all of them. -/
def FilterPolicy.Covers (policy : FilterPolicy) (keys : List Bytes) : Prop :=
  ∃ f, policy.createFilter keys.flatten (starts keys) = .ok f ∧ f ≠ [] ∧
    ∀ k ∈ keys, policy.keyMayMatch k f = .ok true

/-- A bloom policy covers all keys that have hashes and for which its filter is below 2^32 bits. -/
theorem BloomPolicy.covers (p : BloomPolicy) {keys : List Bytes}
    (hkeys : ∀ k ∈ keys, BloomPolicy.HasHash k)
    (hbits : p.filterLength keys.length * 8 < 2 ^ 32) : p.toFilterPolicy.Covers keys := by
  obtain ⟨f, hf, hfilter, hadmits⟩ := p.createFilter_spec hkeys hbits
  refine ⟨f, hf, ?_, hadmits⟩
  rintro rfl
  exact absurd hfilter.long (by decide)

/-- The filter that the reader finds for the range of a block admits the keys of the range. -/
theorem FilterBlockReader.keyMayMatch_covered {policy : FilterPolicy} {K : Nat → List Bytes}
    {fs : List Bytes} (hfs : FilterBlockBuilder.Filters policy K fs)
    (hsmall : fs.flatten.length < 2 ^ 32) (hfew : fs.length ≤ 2 ^ 32) {offset : Nat}
    (hlt : offset / 2048 < fs.length) (hcovers : policy.Covers (K (offset / 2048))) {k : Bytes}
    (hk : k ∈ K (offset / 2048)) : (reading policy fs).keyMayMatch offset k = .ok true := by
  have hget := List.getElem?_eq_getElem hlt
  have hcreate := hfs _ _ hget
  obtain ⟨f, hf, hne, hadmits⟩ := hcovers
  rw [filterOf, if_neg (List.ne_nil_of_mem hk), hf, Except.ok.injEq] at hcreate
  rw [← hcreate] at hget
  rw [keyMayMatch_reading policy hsmall hfew hget hne]
  split
  · rfl
  · exact hadmits k hk

/-- A filter block that is built from the keys of a sequence of data blocks, at ascending offsets
below 2^43 and each with a non-empty key, is built and opened without a failing assertion, and
the reader admits every key of every block at the offset of the block, if the filters together
are below 2^32 bytes. -/
theorem filter_block_admits (policy : FilterPolicy) (blocks : List (List Bytes × Nat))
    (hasc : Ascending 0 blocks) (hkeys : ∀ block ∈ blocks, ∃ k ∈ block.1, k ≠ [])
    (hcovers : ∀ g, rangeKeys 0 blocks g ≠ [] → policy.Covers (rangeKeys 0 blocks g)) :
    ∃ b fs, (FilterBlockBuilder.new policy).feed blocks = .ok b ∧
      b.finish = .ok (filterBlockBytes fs) ∧
      FilterBlockBuilder.Filters policy (rangeKeys 0 blocks) fs ∧
      (fs.flatten.length < 2 ^ 32 →
        ∃ r, FilterBlockReader.new policy (filterBlockBytes fs) = .ok r ∧
          ∀ off keys, (off, keys) ∈ blockStarts 0 blocks → ∀ k ∈ keys,
            r.keyMayMatch off k = .ok true) := by
  have hvisible : ∀ block ∈ blocks, Visible block.1 := by
    intro block hmem
    obtain ⟨k, hk, hne⟩ := hkeys block hmem
    exact visible_of_mem hk hne
  have hok : ∀ g, ∃ f, filterOf policy (rangeKeys 0 blocks g) = .ok f := by
    intro g
    unfold filterOf
    split
    · exact ⟨[], rfl⟩
    · rename_i hne
      obtain ⟨f, hf, -⟩ := hcovers g hne
      exact ⟨f, hf⟩
  obtain ⟨b, fs, hfeed, hfinish, hfs, hfew, -, hranges⟩ :=
    FilterBlockBuilder.feed_finish_spec policy hvisible hasc hok
  refine ⟨b, fs, hfeed, hfinish, hfs, ?_⟩
  intro hsmall
  refine ⟨_, FilterBlockReader.new_filterBlockBytes policy hsmall, ?_⟩
  intro off keys hmem k hk
  have hrange := mem_rangeKeys_of_start hmem hk
  have hne := List.ne_nil_of_mem hrange
  exact FilterBlockReader.keyMayMatch_covered hfs hsmall hfew (hranges _ hne) (hcovers _ hne) hrange

/-- Two blocks that share a range, and one behind an empty range. -/
theorem filter_block_admits_three_blocks :
    let policy := (BloomPolicy.new 10).toFilterPolicy
    let blocks : List (List Bytes × Nat) :=
      [([[97]], 1000), ([[], [98]], 5000), ([[99], [100]], 6144)]
    ∃ b fs, (FilterBlockBuilder.new policy).feed blocks = .ok b ∧
      b.finish = .ok (filterBlockBytes fs) ∧
      FilterBlockBuilder.Filters policy (rangeKeys 0 blocks) fs ∧
      (fs.flatten.length < 2 ^ 32 →
        ∃ r, FilterBlockReader.new policy (filterBlockBytes fs) = .ok r ∧
          ∀ off keys, (off, keys) ∈ blockStarts 0 blocks → ∀ k ∈ keys,
            r.keyMayMatch off k = .ok true) := by
  apply filter_block_admits
  · simp [Ascending]
  · decide
  · intro g hg
    apply and_imp.mpr (BloomPolicy.covers _)
    by_cases hzero : g = 0
    · subst hzero
      constructor <;> decide
    · by_cases htwo : g = 2
      · subst htwo
        constructor <;> decide
      · simp [rangeKeys, Ne.symm hzero, Ne.symm htwo] at hg

end SSTable
