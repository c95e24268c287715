import SSTable.Foundation.Fingerprint
import SSTable.Verification.Filter.Answers

/-!
# What a bloom filter admits

The bits of a bloom filter are the fingerprint of its keys: every key marks the positions of its
probes, a bit is set if a key marks it, and a key is admitted exactly if all the bits it would mark
are set.

Main results:

- Theorem {lit}`createFilter_marked`: the bits of a filter are the fingerprint of its keys.
- Theorem {lit}`bloom_exact`: the keys that a filter admits.
- Theorem {lit}`bloom_same_iff`: when two lists of keys have the same filter.
-/

namespace SSTable

open Foundation Foundation.Exec Foundation.Bytes Foundation.Pieces

namespace BloomPolicy

/-- The positions of the bits that are set. -/
def marked (filter : Bytes) : Set Nat := {pos | IsSet filter pos}

/-- The positions of probes that begin with a hash and take steps. -/
def probesFrom (bits : Nat) (d : UInt32) (n : Nat) (h : UInt32) : Set Nat :=
  {pos | ∃ i < n, (h + UInt32.ofNat i * d).toNat % bits = pos}

/-- The positions that a key marks: those of its probes. -/
def probed (k bits : Nat) (key : Bytes) : Set Nat :=
  probesFrom bits (delta (keyHash key)) k (keyHash key)

variable {p q : BloomPolicy} {bits k n pos : Nat} {d h : UInt32} {filter filter' key : Bytes}
  {keys keys' : List Bytes}

/-! ## Bits -/

theorem mem_marked : pos ∈ marked filter ↔
    ∃ x, filter[pos / 8]? = some x ∧ x.toNat.testBit (pos % 8) = true := isSet_iff

/-- Setting a bit sets that bit only. -/
theorem marked_setBit (hset : setBit filter n = .ok filter') :
    marked filter' = insert n (marked filter) := by
  unfold setBit at hset
  cases hx : filter[n / 8]? with
  | none =>
      rw [hx] at hset
      cases hset
  | some x =>
      simp only [hx, Except.ok.injEq] at hset
      have hlt := (List.getElem?_eq_some_iff.mp hx).1
      ext pos
      rw [Set.mem_insert_iff, mem_marked, mem_marked, ← hset]
      by_cases hbyte : n / 8 = pos / 8
      · have hbit : n % 8 = pos % 8 ↔ pos = n := by omega
        simp only [← hbyte, List.getElem?_set_self hlt, hx, Option.some.injEq, exists_eq_left',
          UInt8.toNat_or, toNat_mask (Nat.mod_lt n (by decide : 8 > 0)), Nat.testBit_or,
          Nat.testBit_two_pow, Bool.or_eq_true, decide_eq_true_eq, hbit, or_comm]
      · have hne : pos ≠ n := fun heq => hbyte (congrArg (· / 8) heq.symm)
        simp only [List.getElem?_set_ne hbyte, hne, false_or]

/-- The bits of an empty filter, in front of its last byte. -/
theorem not_mem_marked_replicate {len : Nat} (x : UInt8) (hpos : pos < len * 8) :
    pos ∉ marked (List.replicate len 0 ++ [x]) := by
  have hlt : pos / 8 < len := by omega
  rw [mem_marked, List.getElem?_append_left (by rwa [List.length_replicate]),
    List.getElem?_replicate, if_pos hlt]
  simp

/-! ## Probes -/

/-- The probes behind the first one are those of the next hash. -/
theorem probesFrom_succ :
    probesFrom bits d (n + 1) h = insert (h.toNat % bits) (probesFrom bits d n (h + d)) := by
  ext pos
  constructor
  · rintro ⟨i, hi, hpos⟩
    cases i with
    | zero => exact Or.inl (by simpa using hpos.symm)
    | succ i => exact Or.inr ⟨i, Nat.lt_of_succ_lt_succ hi, probe_succ h d i ▸ hpos⟩
  · rintro (rfl | ⟨i, hi, hpos⟩)
    · exact ⟨0, Nat.succ_pos n, by simp⟩
    · exact ⟨i + 1, Nat.succ_lt_succ hi, (probe_succ h d i).symm ▸ hpos⟩

theorem probesFrom_lt (hbits : 0 < bits) (hpos : pos ∈ probesFrom bits d n h) : pos < bits := by
  obtain ⟨i, -, rfl⟩ := hpos
  exact Nat.mod_lt _ hbits

/-- Adding the probes of a key sets the bits at their positions. -/
theorem marked_addProbes (hadd : addProbes bits d n h filter = .ok filter') :
    marked filter' = marked filter ∪ probesFrom bits d n h := by
  induction n generalizing h filter with
  | zero =>
      rw [addProbes, pure_eq_ok, Except.ok.injEq] at hadd
      simp [hadd, probesFrom]
  | succ n ih =>
      simp only [addProbes, bind_eq_ok_iff, bitPos_eq_ok_iff] at hadd
      obtain ⟨_, ⟨-, rfl⟩, filter₁, hset, hrest⟩ := hadd
      rw [ih hrest, marked_setBit hset, probesFrom_succ, Set.insert_union, Set.union_insert]

/-- Testing the probes of a key finds out whether all their bits are set. -/
theorem testProbes_eq_ok {found : Bool} (htest : testProbes bits d filter n h = .ok found) :
    found = true ↔ probesFrom bits d n h ⊆ marked filter := by
  induction n generalizing h with
  | zero =>
      rw [testProbes, pure_eq_ok, Except.ok.injEq] at htest
      simp [← htest, probesFrom]
  | succ n ih =>
      simp only [testProbes, bind_eq_ok_iff, bitPos_eq_ok_iff] at htest
      obtain ⟨_, ⟨-, rfl⟩, set, hbit, hrest⟩ := htest
      rw [probesFrom_succ, Set.insert_subset_iff]
      cases set with
      | true =>
          have hmem : h.toNat % bits ∈ marked filter := hbit
          rw [ih hrest, and_iff_right hmem]
      | false =>
          have hnot : h.toNat % bits ∉ marked filter := by
            intro hset
            have hset : testBit filter (h.toNat % bits) = .ok true := hset
            rw [hbit, Except.ok.injEq] at hset
            exact Bool.false_ne_true hset
          simp only [Bool.false_eq_true, if_false, pure_eq_ok, Except.ok.injEq] at hrest
          rw [← hrest, iff_false_intro Bool.false_ne_true, false_iff]
          exact fun hall => hnot hall.1

/-! ## Filters -/

/-- Adding keys one after the other sets their fingerprint. -/
theorem marked_foldlM (hadd : keys.foldlM (addKey k bits) filter = .ok filter') :
    marked filter' = marked filter ∪ fingerprint (probed k bits) {key | key ∈ keys} := by
  induction keys generalizing filter with
  | nil =>
      rw [List.foldlM_nil, pure_eq_ok, Except.ok.injEq] at hadd
      simp [hadd, fingerprint]
  | cons key keys ih =>
      rw [List.foldlM_cons, bind_eq_ok_iff] at hadd
      obtain ⟨filter₁, hkey, hrest⟩ := hadd
      have hprobes := (addKey_eq_ok_iff.mp hkey).2
      have hkeys : {key' | key' ∈ key :: keys} = insert key {key' | key' ∈ keys} := by
        ext key'
        exact List.mem_cons
      rw [ih hrest, marked_addProbes hprobes, hkeys, fingerprint, fingerprint, Set.biUnion_insert,
        Set.union_assoc]
      rfl

/-- A bit that is set is in a byte of the filter. -/
theorem lt_of_mem_marked (h : pos ∈ marked filter) : pos < filter.length * 8 := by
  obtain ⟨x, hx, -⟩ := mem_marked.mp h
  have hlt := (List.getElem?_eq_some_iff.mp hx).1
  omega

/-- The bits of a filter do not depend on the byte behind them. -/
theorem mem_marked_concat (x : UInt8) (hpos : pos < filter.length * 8) :
    pos ∈ marked (filter ++ [x]) ↔ pos ∈ marked filter := by
  rw [mem_marked, mem_marked, List.getElem?_append_left (by omega)]

/-- A filter is the fingerprint of its keys, and behind it the number of probes. -/
theorem createFilter_marked (hsmall : p.filterLength keys.length * 8 < 2 ^ 32)
    (hcreate : p.createFilter keys.flatten (starts keys) = .ok filter) :
    ∃ body, filter = body ++ [UInt8.ofNat p.k] ∧ body.length = p.filterLength keys.length ∧
      marked body =
        fingerprint (probed p.k (p.filterLength keys.length * 8)) {key | key ∈ keys} := by
  obtain ⟨hlength, hlast⟩ := createFilter_shape hcreate
  rw [starts_length] at hlength hlast
  have hpos := filterLength_pos p keys.length
  have hadj : asU32 (p.filterLength keys.length * 8) = p.filterLength keys.length * 8 :=
    Nat.mod_eq_of_lt hsmall
  have hword : ¬ keys.length * p.bitsPerKey ≥ wordLimit := by
    intro hge
    simp only [createFilter, starts_length, if_pos hge] at hcreate
    cases hcreate
  obtain ⟨len, hlen⟩ : ∃ len, len = p.filterLength keys.length := ⟨_, rfl⟩
  simp only [createFilter, starts_length, if_neg hword, hadj] at hcreate
  rw [← hlen] at hcreate hlength hlast hpos ⊢
  obtain ⟨body, x, rfl⟩ : ∃ body x, filter = body ++ [x] :=
    ⟨_, _, (List.dropLast_append_getLast (List.ne_nil_of_length_eq_add_one hlength)).symm⟩
  have hbody : body.length = len := by simpa using hlength
  have hx : x = UInt8.ofNat p.k := by simpa [← hbody] using hlast
  refine ⟨body, by rw [hx], hbody, ?_⟩
  have hiter := offsetDataIterate_eq (addKey p.k (len * 8)) [] keys
    (List.replicate len 0 ++ [UInt8.ofNat p.k])
  have hmarked := marked_foldlM (hiter.symm.trans hcreate)
  ext pos
  constructor
  · intro hset
    have hlt := lt_of_mem_marked hset
    have hwhole := (mem_marked_concat x hlt).mpr hset
    rw [hmarked] at hwhole
    exact hwhole.resolve_left (not_mem_marked_replicate _ (hbody ▸ hlt))
  · intro hmem
    obtain ⟨key, -, hprobe⟩ := mem_fingerprint.mp hmem
    have hlt := probesFrom_lt (by omega) hprobe
    apply (mem_marked_concat x (hbody ▸ hlt)).mp
    rw [hmarked]
    exact Or.inr hmem

/-- Testing a key hashes it and tests its probes. -/
theorem keyMayMatch_concat {body : Bytes} (hshort : body.length * 8 < 2 ^ 32) (key : Bytes) :
    keyMayMatch key (body ++ [UInt8.ofNat p.k]) =
      (bloomHash key >>= fun h => testProbes (body.length * 8) (delta h) body p.k h) := by
  have hk : (UInt8.ofNat p.k).toNat = p.k := by
    have := p.k_le
    rw [UInt8.toNat_ofNat', Nat.mod_eq_of_lt (by omega)]
  have hk_le : ¬ UInt8.ofNat p.k > 30 := by
    have := p.k_le
    rw [gt_iff_lt, UInt8.lt_iff_toNat_lt, hk]
    exact not_lt.mpr this
  have hbits : asU32 body.length = body.length := Nat.mod_eq_of_lt (by omega)
  simp only [keyMayMatch, List.getLast?_concat, List.length_append, List.length_singleton,
    Nat.add_sub_cancel, hbits, if_neg (not_le.mpr hshort), if_neg hk_le, List.dropLast_concat, hk]

/-- A key without a hash stops the test. -/
theorem keyMayMatch_of_not_hasHash {body : Bytes} (hshort : body.length * 8 < 2 ^ 32)
    (hkey : ¬ HasHash key) : keyMayMatch key (body ++ [UInt8.ofNat p.k]) = .error .arithmetic := by
  rw [keyMayMatch_concat hshort, bloomHash_of_not_hasHash hkey, error_bind]

/-- A key is answered if it has a hash, and admitted if its probes are marked. -/
theorem keyMayMatch_concat_eq_ok_iff {body : Bytes} (hpos : 0 < body.length)
    (hshort : body.length * 8 < 2 ^ 32) (key : Bytes) (found : Bool) :
    keyMayMatch key (body ++ [UInt8.ofNat p.k]) = .ok found ↔ HasHash key ∧
      (found = true ↔ key ∈ admitted (probed p.k (body.length * 8)) (marked body)) := by
  by_cases hkey : HasHash key
  · obtain ⟨tested, htested, -⟩ := testProbes_total (delta (keyHash key)) p.k (keyHash key)
      (show 0 < body.length * 8 by omega) (show body.length * 8 ≤ 8 * body.length by omega)
    have hprobes : tested = true ↔ key ∈ admitted (probed p.k (body.length * 8)) (marked body) :=
      testProbes_eq_ok htested
    rw [keyMayMatch_concat hshort, bloomHash_of_hasHash hkey, ok_bind, htested, Except.ok.injEq,
      ← hprobes, and_iff_right hkey, ← Bool.eq_iff_iff, eq_comm]
  · simp [keyMayMatch_of_not_hasHash hshort hkey, hkey]

/-- Filters of one length are told apart by their bits. -/
theorem eq_of_marked_eq (hlen : filter.length = filter'.length)
    (hmarked : marked filter = marked filter') : filter = filter' := by
  apply List.ext_getElem hlen
  intro i hi hi'
  rw [← UInt8.toNat_inj]
  apply Nat.eq_of_testBit_eq
  intro j
  by_cases hj : j < 8
  · have hbyte : (i * 8 + j) / 8 = i := by omega
    have hbit : (i * 8 + j) % 8 = j := by omega
    have hsame : i * 8 + j ∈ marked filter ↔ i * 8 + j ∈ marked filter' := by rw [hmarked]
    simpa only [mem_marked, hbyte, hbit, List.getElem?_eq_getElem hi,
      List.getElem?_eq_getElem hi', Option.some.injEq, exists_eq_left', ← Bool.eq_iff_iff]
      using hsame
  · have hpow : 2 ^ 8 ≤ 2 ^ j := Nat.pow_le_pow_right (by decide) (not_lt.mp hj)
    rw [Nat.testBit_lt_two_pow (lt_of_lt_of_le (UInt8.toNat_lt _) hpow),
      Nat.testBit_lt_two_pow (lt_of_lt_of_le (UInt8.toNat_lt _) hpow)]

/-- A filter admits the keys that the fingerprint of its keys admits. -/
theorem createFilter_exact (p : BloomPolicy) {keys : List Bytes}
    (hkeys : ∀ key ∈ keys, HasHash key) (hsmall : p.filterLength keys.length * 8 < 2 ^ 32) :
    ∃ body, p.createFilter keys.flatten (starts keys) = .ok (body ++ [UInt8.ofNat p.k]) ∧
      body.length = p.filterLength keys.length ∧
      marked body = fingerprint (probed p.k (body.length * 8)) {key | key ∈ keys} ∧
      ∀ key found, keyMayMatch key (body ++ [UInt8.ofNat p.k]) = .ok found ↔ HasHash key ∧
        (found = true ↔ key ∈ admitted (probed p.k (body.length * 8))
          (fingerprint (probed p.k (body.length * 8)) {key | key ∈ keys})) := by
  obtain ⟨filter, hcreate, -⟩ := p.createFilter_spec hkeys hsmall
  obtain ⟨body, rfl, hlen, hmarked⟩ := createFilter_marked hsmall hcreate
  rw [← hlen] at hmarked
  refine ⟨body, hcreate, hlen, hmarked, ?_⟩
  rw [← hmarked]
  exact keyMayMatch_concat_eq_ok_iff (hlen ▸ filterLength_pos p keys.length) (hlen ▸ hsmall)

end BloomPolicy

open BloomPolicy

/-- A bloom filter of keys that have hashes is the fingerprint of its keys, and every policy that
tests it answers the keys that have hashes, and admits just those whose probes are all probes of
keys that it was created from. -/
theorem bloom_exact (p q : BloomPolicy) (keys : List Bytes) (hkeys : ∀ key ∈ keys, HasHash key)
    (hsmall : p.filterLength keys.length * 8 < 2 ^ 32) :
    ∃ body, p.toFilterPolicy.createFilter keys.flatten (starts keys) =
        .ok (body ++ [UInt8.ofNat p.k]) ∧
      marked body = fingerprint (probed p.k (body.length * 8)) {key | key ∈ keys} ∧
      ∀ key found,
        q.toFilterPolicy.keyMayMatch key (body ++ [UInt8.ofNat p.k]) = .ok found ↔ HasHash key ∧
          (found = true ↔ ∀ pos ∈ probed p.k (body.length * 8) key,
            ∃ key' ∈ keys, pos ∈ probed p.k (body.length * 8) key') := by
  obtain ⟨body, hcreate, -, hmarked, hadmits⟩ := createFilter_exact p hkeys hsmall
  simp only [mem_admitted, mem_fingerprint, Set.mem_ofPred_eq] at hadmits
  exact ⟨body, hcreate, hmarked, hadmits⟩

/-- The filter of two keys. -/
theorem bloom_exact_two :
    ∃ body, (BloomPolicy.new 10).toFilterPolicy.createFilter [97, 98] [0, 1] =
        .ok (body ++ [UInt8.ofNat (BloomPolicy.new 10).k]) ∧
      marked body = fingerprint (probed (BloomPolicy.new 10).k (body.length * 8))
        {key | key ∈ [[97], [98]]} ∧
      ∀ key found, (BloomPolicy.new 4).toFilterPolicy.keyMayMatch key
          (body ++ [UInt8.ofNat (BloomPolicy.new 10).k]) = .ok found ↔ HasHash key ∧
        (found = true ↔ ∀ pos ∈ probed (BloomPolicy.new 10).k (body.length * 8) key,
          ∃ key' ∈ [[97], [98]], pos ∈ probed (BloomPolicy.new 10).k (body.length * 8) key') :=
  bloom_exact (BloomPolicy.new 10) (BloomPolicy.new 4) [[97], [98]] (by decide) (by decide)

/-- Two lists of keys that have hashes, and whose filters have one length, have the same filter
exactly if each filter admits the keys of the other list: order and repetition do not matter, nor
do keys that were admitted anyway. -/
theorem bloom_same_iff (p q : BloomPolicy) (keys keys' : List Bytes)
    (hkeys : ∀ key ∈ keys, HasHash key) (hkeys' : ∀ key ∈ keys', HasHash key)
    (hlen : p.filterLength keys'.length = p.filterLength keys.length)
    (hsmall : p.filterLength keys.length * 8 < 2 ^ 32) :
    ∃ filter filter',
      p.toFilterPolicy.createFilter keys.flatten (starts keys) = .ok filter ∧
      p.toFilterPolicy.createFilter keys'.flatten (starts keys') = .ok filter' ∧
      (filter = filter' ↔
        (∀ key ∈ keys', q.toFilterPolicy.keyMayMatch key filter = .ok true) ∧
          ∀ key ∈ keys, q.toFilterPolicy.keyMayMatch key filter' = .ok true) := by
  obtain ⟨body, hcreate, hbody, hmarked, hadmits⟩ := createFilter_exact p hkeys hsmall
  obtain ⟨body', hcreate', hbody', hmarked', hadmits'⟩ :=
    createFilter_exact p hkeys' (hlen ▸ hsmall)
  have hsame : body.length = body'.length := by rw [hbody, hbody', hlen]
  rw [← hsame] at hmarked' hadmits'
  refine ⟨_, _, hcreate, hcreate', ?_⟩
  calc body ++ [UInt8.ofNat p.k] = body' ++ [UInt8.ofNat p.k]
      ↔ marked body = marked body' := by
        rw [List.append_left_inj]
        exact ⟨congrArg marked, eq_of_marked_eq hsame⟩
    _ ↔ _ := by
        rw [hmarked, hmarked', fingerprint_eq_iff]
        apply and_congr
        · refine forall₂_congr fun key hmem => ?_
          have htrue := hadmits key true
          rw [and_iff_right (hkeys' key hmem), eq_self, true_iff] at htrue
          exact htrue.symm
        · refine forall₂_congr fun key hmem => ?_
          have htrue := hadmits' key true
          rw [and_iff_right (hkeys key hmem), eq_self, true_iff] at htrue
          exact htrue.symm

/-- Two keys in another order, and one of them twice. -/
theorem bloom_same_iff_repeated :
    ∃ filter filter',
      (BloomPolicy.new 10).toFilterPolicy.createFilter [97, 98] [0, 1] = .ok filter ∧
      (BloomPolicy.new 10).toFilterPolicy.createFilter [98, 97, 98] [0, 1, 2] = .ok filter' ∧
      (filter = filter' ↔
        (∀ key ∈ [[98], [97], [98]],
          (BloomPolicy.new 4).toFilterPolicy.keyMayMatch key filter = .ok true) ∧
          ∀ key ∈ [[97], [98]],
            (BloomPolicy.new 4).toFilterPolicy.keyMayMatch key filter' = .ok true) :=
  bloom_same_iff (BloomPolicy.new 10) (BloomPolicy.new 4) [[97], [98]] [[98], [97], [98]]
    (by decide) (by decide) (by decide) (by decide)

end SSTable
