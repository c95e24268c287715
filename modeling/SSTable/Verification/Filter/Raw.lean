import Mathlib.Data.Nat.Bitwise
import SSTable.Model.FilterBlock
import SSTable.Verification.Filter.Bloom

/-!
# Asking any bytes

A filter block that was read from a file may hold any bytes.  This module says which of them admit
a key, as a filter and as a filter block.

Main results:

- Theorem {lit}`BloomPolicy.keyMayMatch_eq_true_iff`: the filters that admit a key.
- Theorem {lit}`FilterBlockReader.keyMayMatch_eq_true_iff`: the filter blocks that admit a key of
  the data block at an offset.
-/

namespace SSTable

open Foundation Foundation.Exec Foundation.Bytes

/-! ## Filters -/

namespace BloomPolicy

variable {bits n pos : Nat} {d h : UInt32} {filter key : Bytes}

theorem toNat_mask {i : Nat} (hi : i < 8) : ((1 : UInt8) <<< UInt8.ofNat i).toNat = 2 ^ i := by
  interval_cases i <;> rfl

/-- Masking tests one bit of a byte. -/
theorem and_mask_ne_zero (x : UInt8) {i : Nat} (hi : i < 8) :
    (x &&& (1 <<< UInt8.ofNat i) != 0) = x.toNat.testBit i := by
  have hand : (x &&& (1 <<< UInt8.ofNat i)).toNat = (x.toNat.testBit i).toNat * 2 ^ i := by
    rw [UInt8.toNat_and, toNat_mask hi, Nat.and_two_pow]
  rw [Bool.eq_iff_iff, bne_iff_ne, ne_eq, ← UInt8.toNat_inj, hand]
  cases x.toNat.testBit i <;> simp

/-- There is a bit at the position, and it is one. -/
def BitAt (filter : Bytes) (pos : Nat) : Prop :=
  ∃ x, filter[pos / 8]? = some x ∧ x.toNat.testBit (pos % 8) = true

theorem isSet_iff : IsSet filter pos ↔ BitAt filter pos := by
  rw [IsSet, testBit, BitAt]
  cases filter[pos / 8]? with
  | none => simp
  | some x => simp [and_mask_ne_zero x (Nat.mod_lt pos (by decide : 8 > 0))]

/-- The hash of the probe behind the first one is the first step away. -/
theorem probe_succ (h d : UInt32) (i : Nat) :
    h + UInt32.ofNat (i + 1) * d = h + d + UInt32.ofNat i * d := by
  rw [UInt32.ofNat_add]
  grind

/-- The probes of a key find ones if there are bits, and those that they ask for are ones. -/
theorem testProbes_eq_true_iff : testProbes bits d filter n h = .ok true ↔
    ∀ i < n, 0 < bits ∧ BitAt filter ((h + UInt32.ofNat i * d).toNat % bits) := by
  induction n generalizing h with
  | zero => simp [testProbes]
  | succ n ih =>
      have hfirst : h + UInt32.ofNat 0 * d = h := by simp
      have hcases : testProbes bits d filter (n + 1) h = .ok true ↔
          (0 < bits ∧ BitAt filter (h.toNat % bits)) ∧
            testProbes bits d filter n (h + d) = .ok true := by
        simp only [testProbes, bind_eq_ok_iff, bitPos_eq_ok_iff, ← isSet_iff, IsSet]
        constructor
        · rintro ⟨_, ⟨hbits, rfl⟩, set, htest, hrest⟩
          cases set with
          | true => exact ⟨⟨hbits, htest⟩, hrest⟩
          | false => cases hrest
        · rintro ⟨⟨hbits, htest⟩, hrest⟩
          exact ⟨_, ⟨hbits, rfl⟩, true, htest, hrest⟩
      rw [hcases, ih]
      constructor
      · rintro ⟨hzero, hsucc⟩ i hi
        cases i with
        | zero => rwa [hfirst]
        | succ i =>
            rw [probe_succ]
            exact hsucc i (Nat.lt_of_succ_lt_succ hi)
      · intro hall
        constructor
        · rw [← hfirst]
          exact hall 0 (Nat.succ_pos n)
        · intro i hi
          rw [← probe_succ]
          exact hall (i + 1) (Nat.succ_lt_succ hi)

/-- The number of bits of a filter: its last byte is none of them. -/
def bitsIn (filter : Bytes) : Nat := asU32 (filter.length - 1) * 8

/-- The bytes of a filter admit a key: the filter is empty, or its bits are fewer than 2^32, and,
unless its last byte tells of more than 30 probes, the key has a hash and the bits at the positions
of its probes are ones. -/
def Admits (filter key : Bytes) : Prop :=
  ∀ k, filter.getLast? = some k → bitsIn filter < 2 ^ 32 ∧
    (k ≤ 30 → HasHash key ∧ ∀ i < k.toNat, 0 < bitsIn filter ∧
      BitAt filter.dropLast
        ((keyHash key + UInt32.ofNat i * delta (keyHash key)).toNat % bitsIn filter))

/-- The filters that admit a key. -/
theorem keyMayMatch_eq_true_iff : keyMayMatch key filter = .ok true ↔ Admits filter key := by
  unfold keyMayMatch Admits
  cases filter.getLast? with
  | none => simp
  | some k =>
      simp only [Option.some.injEq, forall_eq']
      change (if bitsIn filter ≥ 2 ^ 32 then _ else _) = _ ↔ _
      by_cases hmany : bitsIn filter ≥ 2 ^ 32
      · rw [if_pos hmany]
        constructor
        · rintro ⟨⟩
        · intro hadmits
          exact absurd hadmits.1 (not_lt.mpr hmany)
      · rw [if_neg hmany, and_iff_right (not_le.mp hmany)]
        by_cases hk : k > 30
        · simp [hk, UInt8.not_le.mpr hk]
        · simp only [if_neg hk, forall_prop_of_true (UInt8.not_lt.mp hk), ← testProbes_eq_true_iff,
            bind_eq_ok_iff, bloomHash_eq_ok_iff]
          constructor
          · rintro ⟨_, ⟨hkey, rfl⟩, htest⟩
            exact ⟨hkey, htest⟩
          · rintro ⟨hkey, htest⟩
            exact ⟨_, ⟨hkey, rfl⟩, htest⟩

end BloomPolicy

/-! ## Filter blocks -/

/-- The 32-bit word at a position. -/
def wordAt (block : Bytes) (pos : Nat) : Nat := decodeFixed32 ((block.drop pos).take 4)

/-- Where the offsets of the filters begin: the word in front of the last byte. -/
def offsetsStart (block : Bytes) : Nat := wordAt block (block.length - 5)

/-- The offset of a filter. -/
def filterOffsetAt (block : Bytes) (ix : Nat) : Nat := wordAt block (offsetsStart block + 4 * ix)

/-- The number of filters, as far as it fits 32 bits. -/
def filtersIn (block : Bytes) : Nat := asU32 ((block.length - offsetsStart block - 5) / 4)

/-- The binary logarithm in the last byte. -/
def baseIn (block : Bytes) : Nat := (block.getLast?.getD 0).toNat

/-- The index that a file offset has by the last byte. -/
def indexIn (block : Bytes) (offset : Nat) : Nat := asU32 (offset / 2 ^ baseIn block)

/-- The bytes of a filter block admit a key of the data block at an offset.  The last byte is a
shift within a word, and the offsets begin inside of the block.  Then either the index is above
the number of filters, or there are offsets at the index and behind it, these are in order and
within the filters, and the bytes between them admit the key. -/
structure FilterBlockAdmits (block : Bytes) (offset : Nat) (key : Bytes) : Prop where
  base_lt : baseIn block < 64
  offsets_le : offsetsStart block + 5 ≤ block.length
  filter : filtersIn block < indexIn block offset ∨
    indexIn block offset + 1 < 2 ^ 32 ∧
    offsetsStart block + 4 * (indexIn block offset + 1) + 4 ≤ block.length ∧
    filterOffsetAt block (indexIn block offset) < filterOffsetAt block (indexIn block offset + 1) ∧
    filterOffsetAt block (indexIn block offset + 1) ≤ offsetsStart block ∧
    BloomPolicy.Admits ((block.drop (filterOffsetAt block (indexIn block offset))).take
      (filterOffsetAt block (indexIn block offset + 1) -
        filterOffsetAt block (indexIn block offset))) key

namespace FilterBlockReader

variable {block : Bytes} {offset ix : Nat} {key : Bytes} {policy : FilterPolicy}
  {r : FilterBlockReader}

/-- A reader over any bytes. -/
structure Reads (policy : FilterPolicy) (block : Bytes) (r : FilterBlockReader) : Prop where
  policy_eq : r.policy = policy
  block_eq : r.block = block
  offsetsOffset_eq : r.offsetsOffset = offsetsStart block
  filterBaseLg2_eq : r.filterBaseLg2 = baseIn block

theorem reads_of_new (hnew : FilterBlockReader.new policy block = .ok r) :
    Reads policy block r := by
  simp only [FilterBlockReader.new, bind_eq_ok_iff, unwrap_eq_ok_iff, slice_eq_ok_iff,
    ensure_eq_ok_iff, pure_eq_ok, Except.ok.injEq] at hnew
  obtain ⟨-, hlong, base, hbase, word, ⟨-, rfl⟩, rfl⟩ := hnew
  have hword : block.length - 1 - (block.length - 5) = 4 := by omega
  constructor
  · rfl
  · rfl
  · rw [offsetsStart, wordAt, ← hword]
  · rw [baseIn, hbase, Option.getD_some]

theorem Reads.num_eq_ok_iff (h : Reads policy block r) {n : Nat} :
    r.num = .ok n ↔ offsetsStart block + 5 ≤ block.length ∧ n = filtersIn block := by
  simp only [num, bind_eq_ok_iff, wordSub_eq_ok_iff, pure_eq_ok, Except.ok.injEq, h.block_eq,
    h.offsetsOffset_eq, filtersIn]
  constructor
  · rintro ⟨_, ⟨hle, rfl⟩, _, ⟨hfive, rfl⟩, rfl⟩
    exact ⟨by omega, rfl⟩
  · rintro ⟨hle, rfl⟩
    exact ⟨_, ⟨by omega, rfl⟩, _, ⟨by omega, rfl⟩, rfl⟩

theorem Reads.offsetOf_eq_ok_iff (h : Reads policy block r) {off : Nat} :
    r.offsetOf ix = .ok off ↔
      offsetsStart block + 4 * ix + 4 ≤ block.length ∧ off = filterOffsetAt block ix := by
  simp only [offsetOf, bind_eq_ok_iff, slice_eq_ok_iff, pure_eq_ok, Except.ok.injEq, h.block_eq,
    h.offsetsOffset_eq, filterOffsetAt, wordAt, Nat.add_sub_cancel_left]
  constructor
  · rintro ⟨_, ⟨⟨-, hle⟩, rfl⟩, rfl⟩
    exact ⟨hle, rfl⟩
  · rintro ⟨hle, rfl⟩
    exact ⟨_, ⟨⟨Nat.le_add_right _ _, hle⟩, rfl⟩, rfl⟩

theorem Reads.getFilterIndex_eq_ok_iff (h : Reads policy block r) :
    getFilterIndex offset r.filterBaseLg2 = .ok ix ↔
      baseIn block < 64 ∧ ix = indexIn block offset := by
  rw [h.filterBaseLg2_eq, getFilterIndex, indexIn]
  split <;> simp [*, eq_comm]

/-- The filter blocks that admit a key of the data block at an offset. -/
theorem Reads.keyMayMatch_eq_true_iff {p : BloomPolicy} (h : Reads p.toFilterPolicy block r) :
    r.keyMayMatch offset key = .ok true ↔ FilterBlockAdmits block offset key := by
  have hpolicy : p.toFilterPolicy.keyMayMatch = BloomPolicy.keyMayMatch := rfl
  have hsplit : r.keyMayMatch offset key = .ok true ↔
      baseIn block < 64 ∧ offsetsStart block + 5 ≤ block.length ∧
        (if filtersIn block < indexIn block offset then pure true else do
          let filterBegin ← r.offsetOf (indexIn block offset)
          let next ← addU32 (indexIn block offset) 1
          let filterEnd ← r.offsetOf next
          ensure (filterBegin < filterEnd)
          ensure (filterEnd ≤ r.offsetsOffset)
          let filter ← slice r.block filterBegin filterEnd
          r.policy.keyMayMatch key filter) = .ok true := by
    rw [keyMayMatch, bind_eq_ok_iff]
    simp only [h.getFilterIndex_eq_ok_iff]
    constructor
    · rintro ⟨_, ⟨hbase, rfl⟩, hrest⟩
      simp only [bind_eq_ok_iff, h.num_eq_ok_iff] at hrest
      obtain ⟨_, ⟨hoffsets, rfl⟩, hrest⟩ := hrest
      exact ⟨hbase, hoffsets, hrest⟩
    · rintro ⟨hbase, hoffsets, hrest⟩
      refine ⟨_, ⟨hbase, rfl⟩, ?_⟩
      rw [h.num_eq_ok_iff.mpr ⟨hoffsets, rfl⟩]
      exact hrest
  rw [hsplit]
  constructor
  · rintro ⟨hbase, hoffsets, hrest⟩
    refine ⟨hbase, hoffsets, ?_⟩
    by_cases hbeyond : filtersIn block < indexIn block offset
    · exact Or.inl hbeyond
    · simp only [if_neg hbeyond, bind_eq_ok_iff, h.offsetOf_eq_ok_iff, addU32_eq_ok_iff,
        ensure_eq_ok_iff, slice_eq_ok_iff, h.offsetsOffset_eq, h.block_eq, h.policy_eq, hpolicy,
        BloomPolicy.keyMayMatch_eq_true_iff] at hrest
      obtain ⟨_, ⟨-, rfl⟩, _, ⟨hnext, rfl⟩, _, ⟨hword, rfl⟩, -, hlt, -, hle, _, ⟨-, rfl⟩,
        hadmits⟩ := hrest
      exact Or.inr ⟨hnext, hword, hlt, hle, hadmits⟩
  · rintro ⟨hbase, hoffsets, hfilter⟩
    refine ⟨hbase, hoffsets, ?_⟩
    by_cases hbeyond : filtersIn block < indexIn block offset
    · rw [if_pos hbeyond, pure_eq_ok]
    · obtain ⟨hnext, hword, hlt, hle, hadmits⟩ := hfilter.resolve_left hbeyond
      simp only [if_neg hbeyond, bind_eq_ok_iff, h.offsetOf_eq_ok_iff, addU32_eq_ok_iff,
        ensure_eq_ok_iff, slice_eq_ok_iff, h.offsetsOffset_eq, h.block_eq, h.policy_eq, hpolicy,
        BloomPolicy.keyMayMatch_eq_true_iff]
      exact ⟨_, ⟨by omega, rfl⟩, _, ⟨hnext, rfl⟩, _, ⟨hword, rfl⟩, (), hlt, (), hle, _,
        ⟨⟨by omega, by omega⟩, rfl⟩, hadmits⟩

end FilterBlockReader

end SSTable
