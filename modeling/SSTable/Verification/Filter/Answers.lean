import SSTable.Verification.Filter.Block
import SSTable.Verification.Filter.Raw

/-!
# Offsets that a filter block answers

A filter block can be built from any keys at any offsets that the builder accepts: ranges may
have no keys, blocks may have no keys, and keys may be empty.  The reader of such a block is
asked for offsets of any range, also of those without a filter and of those behind the last one.

Main results:

- Theorem {lit}`filter_reader_answers_iff`: when the reader answers.
- Theorem {lit}`filter_reader_stops`: it answers neither in an empty range nor at the end.
-/

namespace SSTable

open Foundation Foundation.Exec Foundation.Bytes Foundation.Pieces

/-! ## The length of a created filter -/

/-- What every key preserves holds at the end of the iteration. -/
theorem offsetDataIterate_invariant {σ : Type} {data : Bytes} {f : σ → Bytes → Exec σ}
    (I : σ → Prop) (hstep : ∀ s key s', I s → f s key = .ok s' → I s') {offsets : List Nat}
    {s s' : σ} (hs : I s) (hrun : offsetDataIterate data f offsets s = .ok s') : I s' := by
  induction offsets generalizing s with
  | nil =>
      rw [offsetDataIterate, pure_eq_ok, Except.ok.injEq] at hrun
      rwa [← hrun]
  | cons off later ih =>
      simp only [offsetDataIterate, bind_eq_ok_iff] at hrun
      obtain ⟨piece, -, s₁, hkey, hrest⟩ := hrun
      exact ih (hstep s piece s₁ hs hkey) hrest

namespace BloomPolicy

theorem setBit_length {filter filter' : Bytes} {pos : Nat} (h : setBit filter pos = .ok filter') :
    filter'.length = filter.length := by
  unfold setBit at h
  split at h
  · rw [Except.ok.injEq] at h
    rw [← h, List.length_set]
  · cases h

theorem addProbes_length {bits n : Nat} {d h : UInt32} {filter filter' : Bytes}
    (hrun : addProbes bits d n h filter = .ok filter') : filter'.length = filter.length := by
  induction n generalizing h filter with
  | zero =>
      rw [addProbes, pure_eq_ok, Except.ok.injEq] at hrun
      rw [hrun]
  | succ n ih =>
      simp only [addProbes, bind_eq_ok_iff] at hrun
      obtain ⟨pos, -, filter₁, hset, hrest⟩ := hrun
      rw [ih hrest, setBit_length hset]

theorem setBit_getElem? {filter filter' : Bytes} {pos j : Nat}
    (h : setBit filter pos = .ok filter') (hj : j ≠ pos / 8) : filter'[j]? = filter[j]? := by
  unfold setBit at h
  split at h
  · rw [Except.ok.injEq] at h
    rw [← h, List.getElem?_set_ne (Ne.symm hj)]
  · cases h

/-- The bytes behind the bits are left alone. -/
theorem addProbes_getElem? {bits n j : Nat} {d h : UInt32} {filter filter' : Bytes}
    (hrun : addProbes bits d n h filter = .ok filter') (hj : bits ≤ 8 * j) :
    filter'[j]? = filter[j]? := by
  induction n generalizing h filter with
  | zero =>
      rw [addProbes, pure_eq_ok, Except.ok.injEq] at hrun
      rw [hrun]
  | succ n ih =>
      simp only [addProbes, bind_eq_ok_iff, bitPos_eq_ok_iff] at hrun
      obtain ⟨_, ⟨hbits, rfl⟩, filter₁, hset, hrest⟩ := hrun
      have hpos := Nat.mod_lt h.toNat hbits
      rw [ih hrest, setBit_getElem? hset (by omega)]

/-- A filter that a policy has created, however large it is: it has bits, and behind them the
number of probes. -/
structure Created (filter : Bytes) : Prop where
  long : 2 ≤ filter.length
  probes : ∃ k, filter.getLast? = some k ∧ k ≤ 30

/-- Every filter that is created has its bits and the number of probes. -/
theorem createFilter_shape {p : BloomPolicy} {keys : Bytes} {offsets : List Nat} {filter : Bytes}
    (h : p.createFilter keys offsets = .ok filter) :
    filter.length = p.filterLength offsets.length + 1 ∧
      filter[p.filterLength offsets.length]? = some (UInt8.ofNat p.k) := by
  by_cases hword : offsets.length * p.bitsPerKey ≥ wordLimit
  · simp only [createFilter, if_pos hword] at h
    cases h
  · simp only [createFilter, if_neg hword] at h
    refine offsetDataIterate_invariant (fun f : Bytes =>
      f.length = p.filterLength offsets.length + 1 ∧
        f[p.filterLength offsets.length]? = some (UInt8.ofNat p.k)) ?_ ?_ h
    · rintro f key f' ⟨hlength, hlast⟩ hadd
      obtain ⟨-, hprobes⟩ := addKey_eq_ok_iff.mp hadd
      have hbits : asU32 (p.filterLength offsets.length * 8) ≤
          8 * p.filterLength offsets.length := by
        rw [Nat.mul_comm 8]
        exact Nat.mod_le _ _
      exact ⟨(addProbes_length hprobes).trans hlength,
        (addProbes_getElem? hprobes hbits).trans hlast⟩
    · simp

theorem created_of_createFilter {p : BloomPolicy} {keys : Bytes} {offsets : List Nat}
    {filter : Bytes} (h : p.createFilter keys offsets = .ok filter) : Created filter := by
  obtain ⟨hlength, hlast⟩ := createFilter_shape h
  have hpos := p.filterLength_pos offsets.length
  refine ⟨by omega, UInt8.ofNat p.k, ?_, ?_⟩
  · rw [List.getLast?_eq_getElem?, hlength]
    exact hlast
  · have hk := p.k_le
    rw [UInt8.le_iff_toNat_le, UInt8.toNat_ofNat', Nat.mod_eq_of_lt (by omega)]
    exact hk

/-- A filter answers just if its bits are fewer than 2^32 and the key has a hash. -/
theorem keyMayMatch_answers_iff (key : Bytes) {filter : Bytes} (hcreated : Created filter)
    (hwords : filter.length < 2 ^ 32) :
    (∃ found, keyMayMatch key filter = .ok found) ↔
      (filter.length - 1) * 8 < 2 ^ 32 ∧ HasHash key := by
  obtain ⟨k, hlast, hk⟩ := hcreated.probes
  have hbits : asU32 (filter.length - 1) = filter.length - 1 := asU32_of_lt (by omega)
  constructor
  · rintro ⟨found, hfound⟩
    by_cases hmany : (filter.length - 1) * 8 ≥ 2 ^ 32
    · simp only [keyMayMatch, hlast, hbits, if_pos hmany] at hfound
      cases hfound
    · simp only [keyMayMatch, hlast, hbits, if_neg hmany, if_neg (UInt8.not_lt.mpr hk), pure_eq_ok,
        bind_eq_ok_iff, bloomHash_eq_ok_iff] at hfound
      obtain ⟨_, ⟨hkey, -⟩, -⟩ := hfound
      exact ⟨not_le.mp hmany, hkey⟩
  · rintro ⟨hshort, hkey⟩
    exact keyMayMatch_total ⟨hcreated.long, hshort⟩ hkey

end BloomPolicy

/-! ## The filters of any run -/

namespace FilterBlockBuilder

/-- The builder has generated some filters: each is empty, or its policy has created it. -/
structure Generated (policy : FilterPolicy) (fs : List Bytes) (b : FilterBlockBuilder) : Prop where
  policy_eq : b.policy = policy
  filters_eq : b.filters = fs.flatten
  offsets_eq : b.filterOffsets = starts fs
  created : ∀ f ∈ fs, f ≠ [] → ∃ keys offsets, policy.createFilter keys offsets = .ok f

variable {policy : FilterPolicy} {fs : List Bytes} {b b' : FilterBlockBuilder}

theorem generated_new (policy : FilterPolicy) : Generated policy [] (new policy) where
  policy_eq := rfl
  filters_eq := rfl
  offsets_eq := rfl
  created := by simp

/-- Remembering keys generates nothing. -/
theorem Generated.addKeys (h : Generated policy fs b) (keys : List Bytes) :
    Generated policy fs (b.addKeys keys) := by
  induction keys generalizing b with
  | nil => exact h
  | cons key keys ih =>
      apply ih
      exact ⟨h.policy_eq, h.filters_eq, h.offsets_eq, h.created⟩

/-- One more filter is generated; without keys it is empty. -/
theorem Generated.generateFilter (h : Generated policy fs b) (hrun : b.generateFilter = .ok b') :
    ∃ f, Generated policy (fs ++ [f]) b' := by
  unfold FilterBlockBuilder.generateFilter at hrun
  dsimp only at hrun
  by_cases hnil : b.keys = []
  · rw [if_pos hnil, pure_eq_ok, Except.ok.injEq] at hrun
    use []
    rw [← hrun]
    constructor
    · exact h.policy_eq
    · simpa using h.filters_eq
    · rw [h.offsets_eq, h.filters_eq, starts_concat]
    · intro f hf hne
      apply h.created f _ hne
      simpa [hne] using hf
  · simp only [if_neg hnil, bind_eq_ok_iff, pure_eq_ok, Except.ok.injEq] at hrun
    obtain ⟨f, hf, rfl⟩ := hrun
    use f
    constructor
    · exact h.policy_eq
    · simp [h.filters_eq]
    · rw [h.offsets_eq, h.filters_eq, starts_concat]
    · intro g hg hne
      rw [List.mem_append, List.mem_singleton] at hg
      cases hg with
      | inl hold => exact h.created g hold hne
      | inr hnew =>
          rw [hnew, ← h.policy_eq]
          exact ⟨_, _, hf⟩

theorem Generated.startBlock (h : Generated policy fs b) {offset : Nat}
    (hrun : b.startBlock offset = .ok b') : ∃ fs', Generated policy fs' b' := by
  simp only [FilterBlockBuilder.startBlock, bind_eq_ok_iff] at hrun
  obtain ⟨ix, -, -, -, hloop⟩ := hrun
  have hend := whileLoop_invariant (fun s => ∃ fs', Generated policy fs' s)
    (by
      intro s s' hs _ hgenerate
      obtain ⟨fs', hfs'⟩ := hs
      obtain ⟨f, hf⟩ := hfs'.generateFilter hgenerate
      exact ⟨_, hf⟩)
    ⟨fs, h⟩ hloop
  exact hend.1

/-- Blocks at any offsets that are accepted leave fewer filters than there are 32-bit words. -/
theorem Generated.feed (h : Generated policy fs b) (hfew : fs.length < 2 ^ 32)
    {blocks : List (List Bytes × Nat)} (hrun : b.feed blocks = .ok b') :
    ∃ fs', Generated policy fs' b' ∧ fs'.length < 2 ^ 32 := by
  induction blocks generalizing b fs with
  | nil =>
      rw [FilterBlockBuilder.feed, pure_eq_ok, Except.ok.injEq] at hrun
      rw [← hrun]
      exact ⟨fs, h, hfew⟩
  | cons block rest ih =>
      obtain ⟨keys, offset⟩ := block
      simp only [FilterBlockBuilder.feed, bind_eq_ok_iff] at hrun
      obtain ⟨b₁, hstart, hrest⟩ := hrun
      have hkeys := h.addKeys keys
      obtain ⟨fs₁, hfs₁⟩ := hkeys.startBlock hstart
      have hoffsets := startBlock_offsets (by rw [hkeys.offsets_eq, starts_length]; exact hfew) hstart
      rw [hfs₁.offsets_eq, starts_length] at hoffsets
      apply ih hfs₁ _ hrest
      rw [hoffsets.2]
      exact Nat.mod_lt _ (by decide)

/-- The finished block is written from the generated filters, and perhaps one more. -/
theorem Generated.finish (h : Generated policy fs b) {fb : Bytes} (hrun : b.finish = .ok fb) :
    ∃ fs', fb = filterBlockBytes fs' ∧ fs'.length ≤ fs.length + 1 ∧
      ∀ f ∈ fs', f ≠ [] → ∃ keys offsets, policy.createFilter keys offsets = .ok f := by
  have hbytes : ∀ (b' : FilterBlockBuilder) (fs' : List Bytes), Generated policy fs' b' →
      b'.filters ++ (b'.filterOffsets.map encodeFixed32).flatten ++
        encodeFixed32 b'.filters.length ++ [UInt8.ofNat filterBaseLog2] = filterBlockBytes fs' := by
    intro b' fs' h'
    rw [h'.filters_eq, h'.offsets_eq, bytes_eq_filterBlockBytes]
  unfold FilterBlockBuilder.finish at hrun
  by_cases hnil : b.keys = []
  · rw [if_pos hnil] at hrun
    simp only [pure_eq_ok, ok_bind, Except.ok.injEq] at hrun
    rw [hbytes b fs h] at hrun
    exact ⟨fs, hrun.symm, Nat.le_succ _, h.created⟩
  · rw [if_neg hnil] at hrun
    simp only [bind_eq_ok_iff, pure_eq_ok, Except.ok.injEq] at hrun
    obtain ⟨b', hgenerate, hrun⟩ := hrun
    obtain ⟨f, hf⟩ := h.generateFilter hgenerate
    rw [hbytes b' _ hf] at hrun
    refine ⟨_, hrun.symm, ?_, hf.created⟩
    rw [List.length_append, List.length_singleton]

/-- Whatever keys are added at whatever offsets, the finished block is written from filters that
the policy has created and from empty ones. -/
theorem finish_generated {blocks : List (List Bytes × Nat)} {last : List Bytes} {fb : Bytes}
    (hfeed : (new policy).feed blocks = .ok b) (hfinish : (b.addKeys last).finish = .ok fb) :
    ∃ fs, fb = filterBlockBytes fs ∧ fs.length ≤ 2 ^ 32 ∧
      ∀ f ∈ fs, f ≠ [] → ∃ keys offsets, policy.createFilter keys offsets = .ok f := by
  obtain ⟨fs, hfs, hfew⟩ := (generated_new policy).feed (by decide) hfeed
  obtain ⟨fs', hbytes, hlen, hcreated⟩ := (hfs.addKeys last).finish hfinish
  exact ⟨fs', hbytes, by omega, hcreated⟩

end FilterBlockBuilder

/-! ## The reader -/

namespace FilterBlockReader

variable (policy : FilterPolicy) {fs : List Bytes} {offset : Nat} (key : Bytes)

/-- Every key is admitted beyond the slot behind the last filter. -/
theorem keyMayMatch_beyond (h : asU32 fs.length < asU32 (offset / 2048)) :
    (reading policy fs).keyMayMatch offset key = .ok true := by
  have hbase : (reading policy fs).filterBaseLg2 = filterBaseLog2 := rfl
  rw [keyMayMatch, hbase, getFilterIndex_eq, ok_bind, num_reading, ok_bind, if_pos h]
  rfl

/-- In the slot behind the last filter there is an offset where a filter would begin, but none
where it would end. -/
theorem keyMayMatch_at_end (hfew : fs.length < 2 ^ 32) (h : asU32 (offset / 2048) = fs.length)
    (found : Bool) : (reading policy fs).keyMayMatch offset key ≠ .ok found := by
  intro hfound
  have hbase : (reading policy fs).filterBaseLg2 = filterBaseLog2 := rfl
  have hlen := filterBlockBytes_length fs
  rw [keyMayMatch, hbase, getFilterIndex_eq, ok_bind, num_reading, ok_bind, asU32_of_lt hfew, h,
    if_neg (lt_irrefl _)] at hfound
  simp only [bind_eq_ok_iff, offsetOf, slice_eq_ok_iff] at hfound
  obtain ⟨filterBegin, -, next, hnext, filterEnd, ⟨word, ⟨⟨-, hshort⟩, -⟩, -⟩, -⟩ := hfound
  have hsucc : next = fs.length + 1 := by
    unfold addU32 at hnext
    split at hnext
    · exact (Except.ok.inj hnext).symm
    · cases hnext
  have hoffsets : (reading policy fs).offsetsOffset = fs.flatten.length := rfl
  have hblock : (reading policy fs).block = filterBlockBytes fs := rfl
  rw [hoffsets, hblock, hsucc] at hshort
  omega

/-- Where the reader answers, if its filters have bits: beyond the slot behind the last filter, and
where there is a filter with fewer than 2^32 bits that is not empty, for a key that has a hash. -/
theorem keyMayMatch_reading_iff (q : BloomPolicy) (hsmall : fs.flatten.length < 2 ^ 32)
    (hfew : fs.length ≤ 2 ^ 32) (hcreated : ∀ f ∈ fs, f ≠ [] → BloomPolicy.Created f) :
    (∃ found, (reading q.toFilterPolicy fs).keyMayMatch offset key = .ok found ∧
        (asU32 fs.length ≤ asU32 (offset / 2048) → found = true)) ↔
      asU32 fs.length < asU32 (offset / 2048) ∨
        ∃ f, fs[asU32 (offset / 2048)]? = some f ∧ f ≠ [] ∧ (f.length - 1) * 8 < 2 ^ 32 ∧
          BloomPolicy.HasHash key ∧
          (asU32 (offset / 2048) < asU32 fs.length ∨ BloomPolicy.Admits f key) := by
  have hix : asU32 (offset / 2048) < 2 ^ 32 := Nat.mod_lt _ (by decide)
  by_cases hbeyond : asU32 fs.length < asU32 (offset / 2048)
  · simp [keyMayMatch_beyond q.toFilterPolicy key hbeyond, hbeyond]
  cases hget : fs[asU32 (offset / 2048)]? with
  | none =>
      have hle := List.getElem?_eq_none_iff.mp hget
      have hword := asU32_of_lt (hle.trans_lt hix)
      have hix_eq : asU32 (offset / 2048) = fs.length := by omega
      have hend := keyMayMatch_at_end q.toFilterPolicy key (hle.trans_lt hix) hix_eq
      simp [hbeyond, hend]
  | some f =>
      have hmem := List.mem_of_getElem? hget
      have hkey := keyMayMatch_reading_at q.toFilterPolicy hsmall hfew (getFilterIndex_eq offset)
        hget key
      have hnotfull : ¬ (fs.length = 2 ^ 32 ∧ 0 < asU32 (offset / 2048)) := by
        intro hfull
        rw [hfull.1] at hbeyond
        exact hbeyond hfull.2
      rw [if_neg hnotfull] at hkey
      by_cases hnil : f = []
      · simp [hkey, hnil, hbeyond]
      rw [if_neg hnil] at hkey
      have hle : f.length ≤ fs.flatten.length := by
        have hsucc := flatten_take_succ hget
        have hall := flatten_take_le fs (asU32 (offset / 2048) + 1)
        omega
      have hanswers := BloomPolicy.keyMayMatch_answers_iff key (hcreated f hmem hnil) (by omega)
      have hpolicy : q.toFilterPolicy.keyMayMatch = BloomPolicy.keyMayMatch := rfl
      rw [hkey, hpolicy]
      constructor
      · rintro ⟨found, hfound, htrue⟩
        obtain ⟨hshort, hhash⟩ := hanswers.mp ⟨found, hfound⟩
        refine Or.inr ⟨f, rfl, hnil, hshort, hhash, ?_⟩
        by_cases hlt : asU32 (offset / 2048) < asU32 fs.length
        · exact Or.inl hlt
        · right
          rw [← BloomPolicy.keyMayMatch_eq_true_iff, hfound, htrue (not_lt.mp hlt)]
      · rintro (hlt | ⟨f', hf', -, hshort, hhash, hrest⟩)
        · exact absurd hlt hbeyond
        · rw [Option.some.injEq] at hf'
          subst hf'
          cases hrest with
          | inl hlt =>
              obtain ⟨found, hfound⟩ := hanswers.mpr ⟨hshort, hhash⟩
              exact ⟨found, hfound, fun hge => absurd hlt (not_lt.mpr hge)⟩
          | inr hadmits =>
              exact ⟨true, BloomPolicy.keyMayMatch_eq_true_iff.mpr hadmits, fun _ => rfl⟩

end FilterBlockReader

/-- Whatever keys are added at whatever offsets the builder accepts, the finished block is written
from its filters, and as long as they stay below 2^32 bytes together the reader opens it.  It
answers for an offset, and answers yes behind the filters, just if the index of the offset is
above the number of filters, or there is a filter below 2^32 bits at the index that is not empty
and the key has a hash.  The last condition matters only where the number of filters is one too
large for a 32-bit word. -/
theorem filter_reader_answers_iff (p q : BloomPolicy) {blocks : List (List Bytes × Nat)}
    {last : List Bytes} {b : FilterBlockBuilder} {fb : Bytes}
    (hfeed : (FilterBlockBuilder.new p.toFilterPolicy).feed blocks = .ok b)
    (hfinish : (b.addKeys last).finish = .ok fb) :
    ∃ fs, fb = filterBlockBytes fs ∧ fs.length ≤ 2 ^ 32 ∧
      (fs.flatten.length < 2 ^ 32 →
        ∃ r, FilterBlockReader.new q.toFilterPolicy fb = .ok r ∧ r.num = .ok (asU32 fs.length) ∧
          ∀ offset key,
            ((∃ found, r.keyMayMatch offset key = .ok found ∧
                (asU32 fs.length ≤ asU32 (offset / 2048) → found = true)) ↔
              asU32 fs.length < asU32 (offset / 2048) ∨
                ∃ f, fs[asU32 (offset / 2048)]? = some f ∧ f ≠ [] ∧
                  (f.length - 1) * 8 < 2 ^ 32 ∧ BloomPolicy.HasHash key ∧
                  (asU32 (offset / 2048) < asU32 fs.length ∨ BloomPolicy.Admits f key))) := by
  obtain ⟨fs, hbytes, hfew, hcreated⟩ := FilterBlockBuilder.finish_generated hfeed hfinish
  refine ⟨fs, hbytes, hfew, ?_⟩
  intro hsmall
  use FilterBlockReader.reading q.toFilterPolicy fs
  refine ⟨?_, FilterBlockReader.num_reading _ fs, ?_⟩
  · rw [hbytes, FilterBlockReader.new_filterBlockBytes _ hsmall]
  · intro offset key
    apply FilterBlockReader.keyMayMatch_reading_iff key q hsmall hfew
    intro f hf hne
    obtain ⟨keys, offsets, hcreate⟩ := hcreated f hf hne
    exact BloomPolicy.created_of_createFilter hcreate

/-- A block of one key that ends in the third range. -/
theorem filter_reader_answers_iff_gap :
    let policy := (BloomPolicy.new 10).toFilterPolicy
    ∃ b fb fs, (FilterBlockBuilder.new policy).feed [([[97]], 5000)] = .ok b ∧
      (b.addKeys [[98]]).finish = .ok fb ∧ fb = filterBlockBytes fs ∧ fs.length ≤ 2 ^ 32 ∧
      (fs.flatten.length < 2 ^ 32 →
        ∃ r, FilterBlockReader.new policy fb = .ok r ∧ r.num = .ok (asU32 fs.length) ∧
          ∀ offset key,
            ((∃ found, r.keyMayMatch offset key = .ok found ∧
                (asU32 fs.length ≤ asU32 (offset / 2048) → found = true)) ↔
              asU32 fs.length < asU32 (offset / 2048) ∨
                ∃ f, fs[asU32 (offset / 2048)]? = some f ∧ f ≠ [] ∧
                  (f.length - 1) * 8 < 2 ^ 32 ∧ BloomPolicy.HasHash key ∧
                  (asU32 (offset / 2048) < asU32 fs.length ∨ BloomPolicy.Admits f key))) := by
  have hfeed : ∃ b, (FilterBlockBuilder.new (BloomPolicy.new 10).toFilterPolicy).feed
      [([[97]], 5000)] = .ok b := ⟨_, rfl⟩
  obtain ⟨b, hfeed⟩ := hfeed
  have hfinish : ∃ fb, (b.addKeys [[98]]).finish = .ok fb := by
    cases hfeed
    exact ⟨_, rfl⟩
  obtain ⟨fb, hfinish⟩ := hfinish
  obtain ⟨fs, hfs⟩ := filter_reader_answers_iff (BloomPolicy.new 10) (BloomPolicy.new 10) hfeed
    hfinish
  exact ⟨b, fb, fs, hfeed, hfinish, hfs⟩

/-- The second range is empty and the third one is behind the last filter: the reader fails an
assertion in the one and reads beyond the offsets in the other. -/
theorem filter_reader_stops :
    let policy := (BloomPolicy.new 10).toFilterPolicy
    ∃ b fb r, (FilterBlockBuilder.new policy).feed [([[97]], 5000)] = .ok b ∧
      (b.addKeys []).finish = .ok fb ∧ FilterBlockReader.new policy fb = .ok r ∧
      r.num = .ok 2 ∧ r.keyMayMatch 2048 [97] = .error .assertion ∧
      r.keyMayMatch 4096 [97] = .error .outOfBounds :=
  ⟨_, _, _, rfl, rfl, rfl, rfl, rfl, rfl⟩

end SSTable
