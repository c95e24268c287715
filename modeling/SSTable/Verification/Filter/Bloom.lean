import Mathlib.Tactic.IntervalCases
import SSTable.Foundation.Pieces
import SSTable.Model.Filter

/-!
# Bloom filters

A filter that fits 2^32 bits is created without a fault, answers every key, and admits every
key it was created from, as long as the keys have hashes: the hash of a key multiplies its length,
and for very long keys the product does not fit a word.

Main results:

- Theorem {lit}`bloomHash_eq_ok_iff`: the keys that have hashes.
- Theorem {lit}`keyMayMatch_total`: a filter answers every key that has a hash.
- Theorem {lit}`createFilter_spec`: a filter that is small enough is created, and admits the
  keys it was created from.
- Theorem {lit}`createFilter_hasHash`: no filter is created from keys without hashes.
- Theorem {lit}`bloom_admits_iff`: when a filter is created and admits its keys.
-/

namespace SSTable

open Foundation Foundation.Exec Foundation.Bytes Foundation.Pieces

/-! ## Concatenated keys -/

/-- Iterating over the concatenation of keys visits every key. -/
theorem offsetDataIterate_eq {σ : Type} (f : σ → Bytes → Exec σ) (pre keys : List Bytes) (s : σ) :
    offsetDataIterate (pre ++ keys).flatten f (startsFrom pre.flatten.length keys) s =
      keys.foldlM f s := by
  induction keys generalizing pre s with
  | nil => rfl
  | cons key keys ih =>
      have hsplit : pre ++ key :: keys = (pre ++ [key]) ++ keys := by simp
      have hget : (pre ++ key :: keys)[pre.length]? = some key := by simp
      have htake : (pre ++ key :: keys).take pre.length = pre := by simp
      have hslice := slice_piece hget []
      rw [List.append_nil, htake] at hslice
      have hnext : (startsFrom (pre.flatten.length + key.length) keys).headD
          (pre ++ key :: keys).flatten.length = pre.flatten.length + key.length := by
        cases keys with
        | nil => simp [startsFrom]
        | cons => rfl
      have hrest : pre.flatten.length + key.length = (pre ++ [key]).flatten.length := by simp
      simp only [startsFrom, offsetDataIterate, offsetDataPiece, hnext, hslice, ok_bind,
        List.foldlM_cons]
      cases f s key with
      | error e => rfl
      | ok s' =>
          rw [ok_bind, ok_bind, hrest, hsplit]
          exact ih (pre ++ [key]) s'

namespace BloomPolicy

/-! ## Hashes -/

/-- The key is short enough for the product of its length and the multiplier to fit a word. -/
def HasHash (key : Bytes) : Prop := key.length ≤ 5535108815

instance (key : Bytes) : Decidable (HasHash key) :=
  inferInstanceAs (Decidable (key.length ≤ 5535108815))

/-- The hash of a key that has one. -/
def keyHash (key : Bytes) : UInt32 :=
  hashBytes key (bloomSeed ^^^ UInt32.ofNat (key.length * 0xc6a4a793))

theorem bloomHash_of_hasHash {key : Bytes} (hkey : HasHash key) :
    bloomHash key = .ok (keyHash key) := by
  have hfits : key.length * 0xc6a4a793 < wordLimit := by
    have hlimit : wordLimit = 2 ^ 64 := rfl
    unfold HasHash at hkey
    omega
  rw [bloomHash, wordMul_of_lt hfits]
  rfl

/-- The length of a key without a hash overflows the multiplication. -/
theorem bloomHash_of_not_hasHash {key : Bytes} (hkey : ¬ HasHash key) :
    bloomHash key = .error .arithmetic := by
  have hover : wordLimit ≤ key.length * 0xc6a4a793 := by
    have hlimit : wordLimit = 2 ^ 64 := rfl
    unfold HasHash at hkey
    omega
  rw [bloomHash, wordMul_of_le hover, error_bind]

theorem bloomHash_eq_ok_iff {key : Bytes} {h : UInt32} :
    bloomHash key = .ok h ↔ HasHash key ∧ h = keyHash key := by
  by_cases hkey : HasHash key
  · simp [bloomHash_of_hasHash hkey, hkey, eq_comm]
  · simp [bloomHash_of_not_hasHash hkey, hkey]

/-! ## Bits -/

/-- The bit at a position is set. -/
def IsSet (filter : Bytes) (pos : Nat) : Prop := testBit filter pos = .ok true

theorem testBit_of_lt {filter : Bytes} {pos : Nat} (h : pos / 8 < filter.length) :
    testBit filter pos =
      .ok (filter[pos / 8] &&& (1 <<< UInt8.ofNat (pos % 8)) != 0) := by
  simp [testBit, List.getElem?_eq_getElem h]

private theorem mask_ne_zero {i : Nat} (h : i < 8) : (1 : UInt8) <<< UInt8.ofNat i ≠ 0 := by
  interval_cases i <;> decide

private theorem or_and_right (x y z : UInt8) : (x ||| y) &&& z = (x &&& z) ||| (y &&& z) := by
  apply UInt8.toBitVec_inj.mp
  simp only [UInt8.toBitVec_and, UInt8.toBitVec_or, BitVec.and_or_distrib_right]

/-- Setting a bit sets it, keeps the bits that are set, and changes no other byte. -/
theorem setBit_spec {filter : Bytes} {pos : Nat} (h : pos / 8 < filter.length) :
    ∃ filter', setBit filter pos = .ok filter' ∧ filter'.length = filter.length ∧
      IsSet filter' pos ∧ (∀ q, IsSet filter q → IsSet filter' q) ∧
      ∀ j, j ≠ pos / 8 → filter'[j]? = filter[j]? := by
  have hbyte : filter[pos / 8]? = some filter[pos / 8] := List.getElem?_eq_getElem h
  refine ⟨filter.set (pos / 8) (filter[pos / 8] ||| (1 <<< UInt8.ofNat (pos % 8))),
    by simp only [setBit, hbyte], List.length_set, ?_, ?_, ?_⟩
  · have hmask := mask_ne_zero (Nat.mod_lt pos (by omega : 0 < 8))
    simp [IsSet, testBit, h, or_and_right, UInt8.or_eq_zero_iff, hmask]
  · intro q hq
    by_cases hsame : q / 8 = pos / 8
    · simp only [IsSet, testBit, hsame, hbyte, Except.ok.injEq, bne_iff_ne, ne_eq] at hq
      simp [IsSet, testBit, hsame, h, or_and_right, UInt8.or_eq_zero_iff, hq]
    · simp only [IsSet, testBit] at hq ⊢
      rwa [List.getElem?_set_ne (Ne.symm hsame)]
  · intro j hj
    exact List.getElem?_set_ne (Ne.symm hj)

/-! ## Probes -/

/-- Every bit a key probes is set. -/
def Probed (bits : Nat) (d : UInt32) (filter : Bytes) : Nat → UInt32 → Prop
  | 0, _ => True
  | n + 1, h => IsSet filter (h.toNat % bits) ∧ Probed bits d filter n (h + d)

variable {bits n : Nat} {d h : UInt32} {filter filter' : Bytes}

theorem bitPos_of_pos (h : UInt32) (hbits : 0 < bits) : bitPos h bits = .ok (h.toNat % bits) := by
  rw [bitPos, if_neg (by omega)]

theorem bitPos_eq_ok_iff {pos : Nat} :
    bitPos h bits = .ok pos ↔ 0 < bits ∧ h.toNat % bits = pos := by
  unfold bitPos
  split <;> simp [*, Nat.pos_iff_ne_zero]

theorem Probed.mono (hp : Probed bits d filter n h)
    (hset : ∀ q, IsSet filter q → IsSet filter' q) : Probed bits d filter' n h := by
  induction n generalizing h with
  | zero => trivial
  | succ n ih => exact ⟨hset _ hp.1, ih hp.2⟩

/-- Adding a key sets the bits it probes, keeps the bits that are set, and leaves the bytes
behind the bits alone. -/
theorem addProbes_spec (d : UInt32) (n : Nat) (h : UInt32) (hbits : 0 < bits)
    (hlen : bits ≤ 8 * filter.length) :
    ∃ filter', addProbes bits d n h filter = .ok filter' ∧ filter'.length = filter.length ∧
      Probed bits d filter' n h ∧ (∀ q, IsSet filter q → IsSet filter' q) ∧
      ∀ j, bits ≤ 8 * j → filter'[j]? = filter[j]? := by
  induction n generalizing h filter with
  | zero => exact ⟨filter, rfl, rfl, trivial, fun _ hq => hq, fun _ _ => rfl⟩
  | succ n ih =>
      have hpos := Nat.mod_lt h.toNat hbits
      obtain ⟨f₁, hf₁, hlen₁, hset₁, hkeep₁, hrest₁⟩ :=
        setBit_spec (show h.toNat % bits / 8 < filter.length by omega)
      obtain ⟨f₂, hf₂, hlen₂, hset₂, hkeep₂, hrest₂⟩ :=
        ih (h + d) (hlen₁ ▸ hlen)
      refine ⟨f₂, ?_, hlen₂.trans hlen₁, ⟨hkeep₂ _ hset₁, hset₂⟩, ?_, ?_⟩
      · rw [addProbes, bitPos_of_pos h hbits, ok_bind, hf₁, ok_bind, hf₂]
      · exact fun q hq => hkeep₂ q (hkeep₁ q hq)
      · intro j hj
        rw [hrest₂ j hj, hrest₁ j (by omega)]

/-- Testing the probes of a key never faults, and finds the bits of an added key. -/
theorem testProbes_total (d : UInt32) (n : Nat) (h : UInt32) (hbits : 0 < bits)
    (hlen : bits ≤ 8 * filter.length) :
    ∃ found, testProbes bits d filter n h = .ok found ∧
      (Probed bits d filter n h → found = true) := by
  induction n generalizing h with
  | zero => exact ⟨true, rfl, fun _ => rfl⟩
  | succ n ih =>
      have hpos := Nat.mod_lt h.toNat hbits
      have hbit := testBit_of_lt (show h.toNat % bits / 8 < filter.length by omega)
      obtain ⟨found, hfound, hprobed⟩ := ih (h + d)
      rw [testProbes, bitPos_of_pos h hbits, ok_bind, hbit, ok_bind]
      split
      · exact ⟨found, hfound, fun hp => hprobed hp.2⟩
      · rename_i hunset
        refine ⟨false, rfl, fun hp => ?_⟩
        have hset := hp.1
        rw [IsSet, hbit, Except.ok.injEq] at hset
        exact absurd hset hunset

/-! ## Filters -/

/-- The shape of a bloom filter: at least one byte of bits, fewer than 2^32 bits, and the
number of probes. -/
structure IsFilter (filter : Bytes) : Prop where
  long : 2 ≤ filter.length
  short : (filter.length - 1) * 8 < 2 ^ 32

/-- The bits of a filter. -/
theorem IsFilter.bits_eq (hf : IsFilter filter) :
    asU32 (filter.length - 1) * 8 = (filter.length - 1) * 8 := by
  have := hf.short
  rw [asU32, Nat.mod_eq_of_lt (by omega)]

/-- A filter answers every key that has a hash. -/
theorem keyMayMatch_total {key : Bytes} (hf : IsFilter filter) (hkey : HasHash key) :
    ∃ found, keyMayMatch key filter = .ok found := by
  obtain ⟨hlong, hshort⟩ := id hf
  have hbits : ¬ (filter.length - 1) * 8 ≥ 2 ^ 32 := not_le.mpr hshort
  cases hlast : filter.getLast? with
  | none => simp [List.getLast?_eq_none_iff.mp hlast] at hlong
  | some k =>
      have hfront : (filter.length - 1) * 8 ≤ 8 * filter.dropLast.length := by
        rw [List.length_dropLast]
        omega
      obtain ⟨found, hfound, -⟩ := testProbes_total (delta (keyHash key)) k.toNat (keyHash key)
        (show 0 < (filter.length - 1) * 8 by omega) hfront
      by_cases hk : k > 30
      · refine ⟨true, ?_⟩
        simp only [keyMayMatch, hlast, hf.bits_eq, if_neg hbits, if_pos hk, pure_eq_ok]
      · refine ⟨found, ?_⟩
        simp only [keyMayMatch, hlast, hf.bits_eq, if_neg hbits, if_neg hk,
          bloomHash_of_hasHash hkey, ok_bind, pure_eq_ok, hfound]

/-- A filter admits a key whose bits it has set. -/
theorem keyMayMatch_of_probed {p : BloomPolicy} {key : Bytes} (hf : IsFilter filter)
    (hlast : filter.getLast? = some (UInt8.ofNat p.k)) (hkey : HasHash key)
    (hprobed : Probed ((filter.length - 1) * 8) (delta (keyHash key)) filter p.k
      (keyHash key)) : keyMayMatch key filter = .ok true := by
  obtain ⟨hlong, hshort⟩ := id hf
  have hbits : ¬ (filter.length - 1) * 8 ≥ 2 ^ 32 := not_le.mpr hshort
  have hk : (UInt8.ofNat p.k).toNat = p.k := by
    have := p.k_le
    rw [UInt8.toNat_ofNat', Nat.mod_eq_of_lt (by omega)]
  have hk_le : ¬ UInt8.ofNat p.k > 30 := by
    have := p.k_le
    rw [gt_iff_lt, UInt8.lt_iff_toNat_lt, hk]
    exact not_lt.mpr this
  -- The probes lie in front of the last byte.
  have hfront : ∀ n h, Probed ((filter.length - 1) * 8) (delta (keyHash key)) filter n h →
      Probed ((filter.length - 1) * 8) (delta (keyHash key)) filter.dropLast n h := by
    intro n
    induction n with
    | zero => exact fun _ _ => trivial
    | succ n ih =>
        intro h hp
        refine ⟨?_, ih _ hp.2⟩
        have hpos := Nat.mod_lt h.toNat (show 0 < (filter.length - 1) * 8 by omega)
        have hset := hp.1
        rw [IsSet, testBit] at hset ⊢
        rwa [List.getElem?_dropLast, if_pos (by omega)]
  have hlen : (filter.length - 1) * 8 ≤ 8 * filter.dropLast.length := by
    rw [List.length_dropLast]
    omega
  obtain ⟨found, hfound, htrue⟩ := testProbes_total (delta (keyHash key)) p.k (keyHash key)
    (show 0 < (filter.length - 1) * 8 by omega) hlen
  simp only [keyMayMatch, hlast, if_neg hbits, if_neg hk_le, hk, bloomHash_of_hasHash hkey, ok_bind,
    pure_eq_ok, hf.bits_eq, hfound, htrue (hfront _ _ hprobed)]

theorem addKey_of_hasHash {k : Nat} {key : Bytes} (hkey : HasHash key) :
    addKey k bits filter key = addProbes bits (delta (keyHash key)) k (keyHash key) filter := by
  rw [addKey, bloomHash_of_hasHash hkey, ok_bind]

theorem addKey_eq_ok_iff {k : Nat} {key : Bytes} :
    addKey k bits filter key = .ok filter' ↔
      HasHash key ∧ addProbes bits (delta (keyHash key)) k (keyHash key) filter = .ok filter' := by
  simp only [addKey, bind_eq_ok_iff, bloomHash_eq_ok_iff]
  constructor
  · rintro ⟨_, ⟨hkey, rfl⟩, hadd⟩
    exact ⟨hkey, hadd⟩
  · rintro ⟨hkey, hadd⟩
    exact ⟨_, ⟨hkey, rfl⟩, hadd⟩

/-- Adding keys one after the other sets the bits that they probe, keeps those that are set, and
leaves the byte behind the bits alone. -/
theorem addKeys_spec {k len : Nat} (hlen : 0 < len) {keys : List Bytes}
    (hkeys : ∀ key ∈ keys, HasHash key) (hlength : filter.length = len + 1) :
    ∃ filter', keys.foldlM (addKey k (len * 8)) filter = .ok filter' ∧
      filter'.length = len + 1 ∧ filter'[len]? = filter[len]? ∧
      (∀ q, IsSet filter q → IsSet filter' q) ∧
      ∀ key ∈ keys, Probed (len * 8) (delta (keyHash key)) filter' k (keyHash key) := by
  induction keys generalizing filter with
  | nil => exact ⟨filter, rfl, hlength, rfl, fun _ hq => hq, by simp⟩
  | cons key keys ih =>
      obtain ⟨f₁, hf₁, hlength₁, hprobed, hkeep₁, hrest⟩ := addProbes_spec
        (delta (keyHash key)) k (keyHash key) (show 0 < len * 8 by omega)
        (show len * 8 ≤ 8 * filter.length by omega)
      obtain ⟨f₂, hf₂, hlength₂, hlast₂, hkeep₂, hprobed₂⟩ :=
        ih (fun key' hmem => hkeys key' (List.mem_cons_of_mem _ hmem)) (hlength₁.trans hlength)
      refine ⟨f₂, ?_, hlength₂, ?_, fun q hq => hkeep₂ q (hkeep₁ q hq), ?_⟩
      · rw [List.foldlM_cons, addKey_of_hasHash (hkeys key List.mem_cons_self), hf₁, ok_bind, hf₂]
      · rw [hlast₂, hrest len (by omega)]
      · intro key' hmem
        rcases List.mem_cons.mp hmem with rfl | hmem
        · exact hprobed.mono hkeep₂
        · exact hprobed₂ key' hmem

theorem filterLength_pos (p : BloomPolicy) (n : Nat) : 0 < p.filterLength n := by
  unfold filterLength
  dsimp only
  split <;> omega

/-- A filter below 2^32 bits is created without a fault if its keys have hashes, and admits the
keys it was created from. -/
theorem createFilter_spec (p : BloomPolicy) {keys : List Bytes}
    (hkeys : ∀ key ∈ keys, HasHash key) (hsmall : p.filterLength keys.length * 8 < 2 ^ 32) :
    ∃ filter, p.createFilter keys.flatten (starts keys) = .ok filter ∧ IsFilter filter ∧
      ∀ key ∈ keys, keyMayMatch key filter = .ok true := by
  obtain ⟨len, hlen⟩ : ∃ len, len = p.filterLength keys.length := ⟨_, rfl⟩
  rw [← hlen] at hsmall
  have hpos : 0 < len := hlen ▸ p.filterLength_pos keys.length
  have hword : ¬ keys.length * p.bitsPerKey ≥ wordLimit := by
    have hlimit : wordLimit = 2 ^ 64 := rfl
    rw [filterLength] at hlen
    split at hlen <;> omega
  have hadj : asU32 (len * 8) = len * 8 := Nat.mod_eq_of_lt hsmall
  have hempty : (List.replicate len 0 ++ [UInt8.ofNat p.k]).length = len + 1 := by simp
  obtain ⟨filter, hrun, hlength, hlast, -, hprobed⟩ :=
    addKeys_spec (k := p.k) hpos hkeys hempty
  have hfilter : IsFilter filter := ⟨by omega, by omega⟩
  have hbits : (filter.length - 1) * 8 = len * 8 := by omega
  have hlast' : filter.getLast? = some (UInt8.ofNat p.k) := by
    rw [List.getLast?_eq_getElem?, hlength, Nat.add_sub_cancel, hlast]
    simp
  refine ⟨filter, ?_, hfilter, ?_⟩
  · simp only [createFilter, starts_length, if_neg hword, ← hlen, hadj]
    rw [← hrun]
    exact offsetDataIterate_eq (addKey p.k (len * 8)) [] keys _
  · intro key hmem
    refine keyMayMatch_of_probed hfilter hlast' (hkeys key hmem) ?_
    rw [hbits]
    exact hprobed key hmem

/-- Every key that a filter is created from has a hash. -/
theorem createFilter_hasHash {p : BloomPolicy} {keys : List Bytes}
    (hcreate : p.createFilter keys.flatten (starts keys) = .ok filter) :
    ∀ key ∈ keys, HasHash key := by
  have hadded : ∀ {bits : Nat} {filter filter' : Bytes},
      keys.foldlM (addKey p.k bits) filter = .ok filter' → ∀ key ∈ keys, HasHash key := by
    clear hcreate
    intro bits filter filter' hrun
    induction keys generalizing filter with
    | nil => simp
    | cons key keys ih =>
        simp only [List.foldlM_cons, bind_eq_ok_iff, addKey_eq_ok_iff] at hrun
        obtain ⟨filter₁, ⟨hkey, -⟩, hrest⟩ := hrun
        rintro key' (_ | ⟨_, hmem⟩)
        · exact hkey
        · exact ih hrest key' hmem
  by_cases hword : keys.length * p.bitsPerKey ≥ wordLimit
  · simp only [createFilter, starts_length, if_pos hword] at hcreate
    cases hcreate
  · simp only [createFilter, starts_length, if_neg hword] at hcreate
    exact hadded ((offsetDataIterate_eq (addKey p.k _) [] keys _).symm.trans hcreate)

end BloomPolicy

open BloomPolicy

/-- A filter below 2^32 bits is created without a fault, answers every one of its keys whatever
policy tests it, and admits all of them, exactly if no key is too long to be hashed. -/
theorem bloom_admits_iff (p q : BloomPolicy) (keys : List Bytes)
    (hsmall : p.filterLength keys.length * 8 < 2 ^ 32) :
    (∃ filter, p.toFilterPolicy.createFilter keys.flatten (starts keys) = .ok filter ∧
        ∀ key ∈ keys, q.toFilterPolicy.keyMayMatch key filter = .ok true) ↔
      ∀ key ∈ keys, key.length ≤ 5535108815 := by
  constructor
  · rintro ⟨filter, hcreate, -⟩
    exact createFilter_hasHash hcreate
  · intro hkeys
    obtain ⟨filter, hcreate, -, hadmits⟩ := p.createFilter_spec hkeys hsmall
    exact ⟨filter, hcreate, hadmits⟩

/-- The empty key and a key given twice, with twelve bits for each key, tested by a policy with
four. -/
theorem bloom_admits_iff_repeated :
    (∃ filter, (BloomPolicy.new 12).toFilterPolicy.createFilter [97, 98, 97, 98] [0, 0, 2] =
          .ok filter ∧
        ∀ key ∈ ([[], [97, 98], [97, 98]] : List Bytes),
          (BloomPolicy.new 4).toFilterPolicy.keyMayMatch key filter = .ok true) ↔
      ∀ key ∈ ([[], [97, 98], [97, 98]] : List Bytes), key.length ≤ 5535108815 :=
  bloom_admits_iff (BloomPolicy.new 12) (BloomPolicy.new 4) [[], [97, 98], [97, 98]] (by decide)

/-- A filter of eight bytes is enough for the key, but the key is too long to be hashed. -/
theorem bloom_overflows :
    (BloomPolicy.new 10).filterLength 1 * 8 < 2 ^ 32 ∧
      (BloomPolicy.new 10).toFilterPolicy.createFilter (List.replicate 5535108816 97) [0] =
        .error .arithmetic := by
  have hlong : ¬ HasHash (List.replicate 5535108816 97) := by
    rw [HasHash, List.length_replicate]
    omega
  refine ⟨by decide, ?_⟩
  have hslice := offsetDataIterate_eq (addKey (BloomPolicy.new 10).k 64) []
    [List.replicate 5535108816 97] (List.replicate 8 0 ++ [UInt8.ofNat (BloomPolicy.new 10).k])
  rw [List.nil_append, List.flatten_singleton, List.foldlM_cons, addKey,
    bloomHash_of_not_hasHash hlong] at hslice
  exact hslice

end SSTable
