import SSTable.Verification.Filter.Bloom
import SSTable.Verification.Filter.Block
import SSTable.Verification.Table.Opening

/-!
# The filters of a table

The filter of a range is created from the keys of the data blocks that begin in the range, so a
block's keys are admitted by the filter that the reader finds for the block.

Main results:

- Theorem {lit}`filters_spec`: the filter block of a table whose filters are small enough.
- Theorem {lit}`filtersOf_prefix`: the filters of the first blocks can be built if all can.
- Theorem {lit}`rangeKeys_ne_nil`: no block begins in a range without keys.
-/

namespace SSTable

open Foundation Foundation.Exec Foundation.Bytes

/-- A filter of a bloom policy that is small enough is created. -/
theorem filterOf_bloom (p : BloomPolicy) {keys : List Bytes}
    (hkeys : ∀ key ∈ keys, BloomPolicy.HasHash key)
    (hbits : p.filterLength keys.length * 8 < 2 ^ 32) :
    ∃ f, filterOf p.toFilterPolicy keys = .ok f := by
  unfold filterOf
  split
  · exact ⟨[], rfl⟩
  · obtain ⟨f, hf, -⟩ := p.createFilter_spec hkeys hbits
    exact ⟨f, hf⟩

variable [Crates]

/-- The bloom filters of a table are below 2^32 bits. -/
def BloomLimits (p : BloomPolicy) (opt : Options) (cs : List Cut) : Prop :=
  ∀ g, p.filterLength (rangeKeys 0 (filterFeed opt cs) g).length * 8 < 2 ^ 32

/-- A table is built with one of the policies of the library, and its filters are small enough. -/
def FilterLimits (opt : Options) (cs : List Cut) : Prop :=
  opt.filterPolicy = NoFilterPolicy ∨
    ∃ p : BloomPolicy, opt.filterPolicy = p.toFilterPolicy ∧ BloomLimits p opt cs

variable {opt : Options} {cs : List Cut}

/-- The keys of the blocks that are fed to the filters are not empty. -/
theorem filterFeed_visible (hkeys : ∀ c ∈ cs, NonEmptyKeys c.entries) :
    ∀ block ∈ filterFeed opt cs, Visible block.1 := by
  intro block hmem
  apply visible_of_forall_ne
  intro k hk
  obtain ⟨p, hp, rfl⟩ := List.mem_map.mp hmem
  obtain ⟨e, he, rfl⟩ := List.mem_map.mp hk
  have hc : p.1 ∈ cs := by
    have hfst := List.mem_map_of_mem (f := Prod.fst) hp
    rwa [place_map_fst] at hfst
  exact hkeys p.1 hc e he

/-- The offsets of the blocks ascend. -/
theorem ascending_feed {off : Nat} (h : off + (dataBytes opt cs).length < 2 ^ 43) :
    Ascending off ((place opt off cs).map fun p =>
      (keysOf p.1.entries, p.2.offset + p.2.size + 5)) := by
  induction cs generalizing off with
  | nil => trivial
  | cons c cs ih =>
      rw [dataBytes_cons, List.length_append, envelope_length] at h
      refine ⟨?_, ?_, ih ?_⟩
      · dsimp only
        omega
      · dsimp only
        omega
      · dsimp only
        omega

/-- The data blocks end where the last of the ascending offsets is. -/
theorem data_end_lt {off : Nat} (hoff : off < 2 ^ 43)
    (h : Ascending off ((place opt off cs).map fun p =>
      (keysOf p.1.entries, p.2.offset + p.2.size + 5))) :
    off + (dataBytes opt cs).length < 2 ^ 43 := by
  induction cs generalizing off with
  | nil => exact hoff
  | cons c cs ih =>
      rw [place, List.map_cons, Ascending] at h
      obtain ⟨-, hnext, hrest⟩ := h
      have hend := ih hnext hrest
      dsimp only at hend
      rw [dataBytes_cons, List.length_append, envelope_length]
      omega

/-- A stored block is not much longer than its contents. -/
theorem stored_length_le (ctype : CompressionType) (block : Bytes) :
    (stored ctype block).length ≤ 32 + block.length + block.length / 6 := by
  cases hcompress : compressBlock ctype block with
  | error e => simp [stored, hcompress, Except.toOption]
  | ok data =>
      rw [stored_of_ok hcompress]
      unfold compressBlock at hcompress
      split at hcompress
      · exact Crates.compressVec_length_le _ _ hcompress
      · rw [Except.ok.injEq] at hcompress
        rw [← hcompress]
        omega

theorem spaced_feed (hdata : ∀ c ∈ cs, (c.contents opt).length < 2 ^ 32) (off : Nat) :
    FilterBlockBuilder.Spaced off ((place opt off cs).map fun p =>
      (keysOf p.1.entries, p.2.offset + p.2.size + 5)) := by
  induction cs generalizing off with
  | nil => trivial
  | cons c cs ih =>
      have hstored := stored_length_le opt.compressionType (c.contents opt)
      have hlt := hdata c List.mem_cons_self
      refine ⟨?_, ?_, ih (fun c hc => hdata c (List.mem_cons_of_mem _ hc)) _⟩
      · dsimp only
        omega
      · dsimp only
        omega

/-- The filters were built, so the data blocks end below 2^43. -/
theorem data_lt_of_filterBytes {fb : Bytes} (hdata : ∀ c ∈ cs, (c.contents opt).length < 2 ^ 32)
    (h : filterBytes opt cs = .ok fb) : (dataBytes opt cs).length < 2 ^ 43 := by
  rw [filterBytes, bind_eq_ok_iff] at h
  obtain ⟨b, hfeed, -⟩ := h
  have hend := data_end_lt (by decide) (FilterBlockBuilder.feed_ascending (spaced_feed hdata 0)
    (by decide) rfl hfeed)
  rwa [Nat.zero_add] at hend

/-- The blocks begin where they were placed. -/
theorem blockStarts_place (off : Nat) :
    blockStarts off ((place opt off cs).map fun p =>
      (keysOf p.1.entries, p.2.offset + p.2.size + 5)) =
      (place opt off cs).map fun p => (p.2.offset, keysOf p.1.entries) := by
  induction cs generalizing off with
  | nil => rfl
  | cons c cs ih =>
      rw [place, List.map_cons, List.map_cons, blockStarts]
      exact congrArg _ (ih _)

/-- The keys of blocks below 2^32 bytes have hashes. -/
theorem hasHash_of_mem_rangeKeys (hdata : ∀ c ∈ cs, (c.contents opt).length < 2 ^ 32) {g : Nat}
    {key : Bytes} (hkey : key ∈ rangeKeys 0 (filterFeed opt cs) g) : BloomPolicy.HasHash key := by
  obtain ⟨block, hmem, -, hk⟩ := exists_start_of_mem_rangeKeys hkey
  rw [filterFeed, blockStarts_place] at hmem
  obtain ⟨p, hp, rfl⟩ := List.mem_map.mp hmem
  have hc : p.1 ∈ cs := by
    have hfst := List.mem_map_of_mem (f := Prod.fst) hp
    rwa [place_map_fst] at hfst
  have hle := BlockBuilder.length_le_finish opt hk
  have hlt := hdata p.1 hc
  rw [Cut.contents] at hlt
  unfold BloomPolicy.HasHash
  omega

/-- Every filter of a table is created. -/
theorem FilterLimits.filterOf_total (h : FilterLimits opt cs)
    (hdata : ∀ c ∈ cs, (c.contents opt).length < 2 ^ 32) (g : Nat) :
    ∃ f, filterOf opt.filterPolicy (rangeKeys 0 (filterFeed opt cs) g) = .ok f := by
  rcases h with hpolicy | ⟨p, hpolicy, hbits⟩
  · rw [hpolicy, filterOf]
    split
    · exact ⟨[], rfl⟩
    · exact ⟨[], rfl⟩
  · rw [hpolicy]
    exact filterOf_bloom p (fun key hkey => hasHash_of_mem_rangeKeys hdata hkey) (hbits g)

/-- The keys of a block are among the keys of the range that the block begins in. -/
theorem mem_rangeKeys {off : Nat} {p : Cut × BlockHandle} (hp : p ∈ place opt off cs) {k : Bytes}
    (hk : k ∈ keysOf p.1.entries) :
    k ∈ rangeKeys off ((place opt off cs).map fun p =>
      (keysOf p.1.entries, p.2.offset + p.2.size + 5)) (p.2.offset / 2048) := by
  apply mem_rangeKeys_of_start _ hk
  rw [blockStarts_place]
  exact List.mem_map_of_mem hp

/-- The filter block of a table: one filter for every range, created from the keys of the range. -/
theorem filters_spec (hlimits : FilterLimits opt cs) (hkeys : ∀ c ∈ cs, NonEmptyKeys c.entries)
    (hdata : ∀ c ∈ cs, (c.contents opt).length < 2 ^ 32)
    (hsize : (dataBytes opt cs).length < 2 ^ 43) :
    ∃ fs, filterBytes opt cs = .ok (filterBlockBytes fs) ∧
      FilterBlockBuilder.Filters opt.filterPolicy (rangeKeys 0 (filterFeed opt cs)) fs ∧
      fs.length ≤ 2 ^ 32 ∧
      (fs.length = 2 ^ 32 → rangeKeys 0 (filterFeed opt cs) (2 ^ 32 - 1) ≠ []) ∧
      ∀ g, rangeKeys 0 (filterFeed opt cs) g ≠ [] → g < fs.length := by
  obtain ⟨b, fs, hfeed, hfinish, hfilters, hspec⟩ := FilterBlockBuilder.feed_finish_spec
    opt.filterPolicy (filterFeed_visible hkeys) (ascending_feed (by omega))
    (hlimits.filterOf_total hdata)
  refine ⟨fs, ?_, hfilters, hspec⟩
  rw [filterBytes]
  exact (congrArg (· >>= _) hfeed).trans hfinish

/-- The filters of the first blocks can be built if those of all blocks can. -/
theorem filtersOf_prefix {xs ys : List Cut} {b : FilterBlockBuilder}
    (h : TableBuilder.filtersOf opt (xs ++ ys) = .ok b) :
    ∃ b', TableBuilder.filtersOf opt xs = .ok b' := by
  rw [TableBuilder.filtersOf, filterFeed, place_append, List.map_append,
    FilterBlockBuilder.feed_append, bind_eq_ok_iff] at h
  obtain ⟨b', hb', -⟩ := h
  exact ⟨b', hb'⟩

/-! ## Ranges of blocks without entries -/

/-- An empty block is short, compressed or not. -/
theorem stored_empty_length_le (opt : Options) :
    (stored opt.compressionType (BlockBuilder.new opt).finish).length ≤ 41 := by
  have hlen : (BlockBuilder.new opt).finish.length = 8 := rfl
  have hstored := stored_length_le opt.compressionType (BlockBuilder.new opt).finish
  rwa [hlen] at hstored

/-- The range that a block begins in has keys, also if the block itself is empty: then the next
block begins in the same range. -/
theorem rangeKeys_ne_nil (opt : Options) (es : List Entry) {p : Cut × BlockHandle}
    (hp : p ∈ place opt 0 (cuts opt es)) :
    rangeKeys 0 (filterFeed opt (cuts opt es)) (p.2.offset / 2048) ≠ [] := by
  by_cases hnil : p.1.entries = []
  · obtain ⟨i, hi⟩ := List.mem_iff_getElem?.mp hp
    obtain ⟨rfl, d, hd, hne⟩ := exists_next_of_nil (place_getElem? hi) hnil
    have hmore := (List.getElem?_eq_some_iff.mp hd).1
    -- The empty block is the first one, and the one behind it begins at most 46 bytes later.
    obtain ⟨c, rest, hcuts⟩ : ∃ c rest, cuts opt es = c :: d :: rest := by
      match hcuts : cuts opt es with
      | [] => simp [hcuts] at hmore
      | [_] => simp [hcuts] at hmore
      | c :: d' :: rest =>
          rw [hcuts] at hd
          exact ⟨c, rest, by simpa using hd⟩
    rw [hcuts, place, List.getElem?_cons_zero, Option.some.injEq] at hi
    rw [← hi] at hnil ⊢
    have hempty : c.contents opt = (BlockBuilder.new opt).finish := by
      rw [Cut.contents, hnil, BlockBuilder.pushAll_nil]
    have hshort := stored_empty_length_le opt
    rw [← hempty] at hshort
    have hplace : ∃ q ∈ place opt 0 (c :: d :: rest), q.1 = d ∧ q.2.offset / 2048 = 0 := by
      refine ⟨_, List.mem_cons_of_mem _ (List.mem_cons_self ..), rfl, ?_⟩
      simp only
      omega
    obtain ⟨q, hq, rfl, hzero⟩ := hplace
    have hmem := mem_rangeKeys hq (lastKeyOf_mem hne)
    rw [hzero] at hmem
    rw [hcuts]
    simp only [Nat.zero_div]
    exact List.ne_nil_of_mem hmem
  · exact List.ne_nil_of_mem (mem_rangeKeys hp (lastKeyOf_mem hnil))

/-- A range has keys exactly if a block begins in it. -/
theorem rangeKeys_ne_nil_iff (opt : Options) (es : List Entry) (g : Nat) :
    rangeKeys 0 (filterFeed opt (cuts opt es)) g ≠ [] ↔
      ∃ h ∈ dataHandles opt es, h.offset / 2048 = g := by
  constructor
  · intro hne
    obtain ⟨key, hkey⟩ := List.exists_mem_of_ne_nil _ hne
    obtain ⟨block, hmem, hg, -⟩ := exists_start_of_mem_rangeKeys hkey
    rw [filterFeed, blockStarts_place] at hmem
    obtain ⟨p, hp, rfl⟩ := List.mem_map.mp hmem
    exact ⟨p.2, List.mem_map_of_mem hp, hg⟩
  · rintro ⟨h, hh, rfl⟩
    obtain ⟨p, hp, rfl⟩ := List.mem_map.mp hh
    exact rangeKeys_ne_nil opt es hp

end SSTable
