import SSTable.Verification.Filter.Exactness
import SSTable.Verification.Table.Lookup

/-!
# What the filters of a table answer

The filter that is asked for a data block of a written table was created from the keys of all blocks
that begin in the same range of the file.  It answers every key that has a hash, and stops at the
others.

Main results:

- Theorem {lit}`Sizes.filterAdmits_iff`: what the filter of a block answers.
- Theorem {lit}`Sizes.filterAdmits_of_not_hasHash`: at which keys it stops.
- Theorem {lit}`Sizes.filtersAdmit`: no key is denied in its own block.
-/

namespace SSTable

open Foundation Foundation.Exec Foundation.Bytes

variable [Crates] {opt : Options} {es : List Entry} {fb : Bytes} {t : Table} {key : Bytes}
  {h : BlockHandle} {p p' : BloomPolicy}

/-- The filters of a table with a bloom policy are below 2^32 bits. -/
theorem FilterLimits.bloom {cs : List Cut} (h : FilterLimits opt cs)
    (hpolicy : opt.filterPolicy = p.toFilterPolicy) :
    ∃ q : BloomPolicy, opt.filterPolicy = q.toFilterPolicy ∧ BloomLimits q opt cs := by
  rcases h with hnone | hbloom
  · have hname : "_" = "leveldb.BuiltinBloomFilter2" :=
      congrArg FilterPolicy.name (hnone.symm.trans hpolicy)
    exact absurd hname (by decide)
  · exact hbloom

/-- The keys of the blocks that begin in the same range of the file as a block. -/
def keysBeside (opt : Options) (es : List Entry) (h : BlockHandle) : List Bytes :=
  rangeKeys 0 (filterFeed opt (cuts opt es)) (h.offset / 2048)

/-- All probes of a key are probes of keys that lie beside a block. -/
def Passes (p : BloomPolicy) (opt : Options) (es : List Entry) (h : BlockHandle) (key : Bytes) :
    Prop :=
  let bits := p.filterLength (keysBeside opt es h).length * 8
  key ∈ admitted (BloomPolicy.probed p.k bits)
    (fingerprint (BloomPolicy.probed p.k bits) {key' | key' ∈ keysBeside opt es h})

/-- The filter of a data block is the fingerprint of the keys that lie beside it. -/
theorem Sizes.exists_filter (hs : Sizes opt (cuts opt es) fb)
    (hpolicy : opt.filterPolicy = p.toFilterPolicy) (hkeys : NonEmptyKeys es)
    (hlimits : SizeLimits opt es) (hfb : filterBytes opt (cuts opt es) = .ok fb)
    {reader : FilterBlockReader} (hreader : FilterBlockReader.new p'.toFilterPolicy fb = .ok reader)
    (ht : t.filters = some reader) (hh : h ∈ dataHandles opt es) :
    ∃ body, body.length = p.filterLength (keysBeside opt es h).length ∧
      body.length * 8 < 2 ^ 32 ∧
      BloomPolicy.marked body = fingerprint (BloomPolicy.probed p.k (body.length * 8))
        {key | key ∈ keysBeside opt es h} ∧
      ∀ key, t.filterAdmits h key = BloomPolicy.keyMayMatch key (body ++ [UInt8.ofNat p.k]) := by
  obtain ⟨q, hq, hbits⟩ := hlimits.filters.bloom hpolicy
  obtain ⟨fs, hfs, hfilters, -, -, hranges⟩ := filters_spec hlimits.filters
    (fun c hc => cut_nonEmptyKeys hkeys hc) hlimits.data_lt
    (lt_trans hlimits.data_file_lt (by decide))
  rw [hfs, Except.ok.injEq] at hfb
  subst hfb
  have hlen := FilterBlockReader.filterBlockBytes_length fs
  have hlt := hlimits.filter_lt _ hfs
  have hsmall : fs.flatten.length < 2 ^ 32 := by omega
  rw [FilterBlockReader.new_filterBlockBytes _ hsmall, Except.ok.injEq] at hreader
  subst hreader
  have hrange : keysBeside opt es h ≠ [] :=
    (rangeKeys_ne_nil_iff opt es (h.offset / 2048)).mpr ⟨h, hh, rfl⟩
  obtain ⟨f, hget⟩ : ∃ f, fs[h.offset / 2048]? = some f :=
    ⟨_, List.getElem?_eq_getElem (hranges _ hrange)⟩
  have hcreate : filterOf opt.filterPolicy (keysBeside opt es h) = .ok f := hfilters _ f hget
  rw [filterOf, if_neg hrange, hpolicy] at hcreate
  -- The filter was created by both policies, so it has one length.
  have hcreate' := hcreate
  rw [← hpolicy, hq] at hcreate'
  have hlength := (BloomPolicy.createFilter_shape hcreate).1
  have hlength' := (BloomPolicy.createFilter_shape hcreate').1
  rw [Pieces.starts_length] at hlength hlength'
  have hshort : p.filterLength (keysBeside opt es h).length * 8 < 2 ^ 32 := by
    have hlimit : q.filterLength (keysBeside opt es h).length * 8 < 2 ^ 32 :=
      hbits (h.offset / 2048)
    omega
  obtain ⟨body, rfl, hbody, hmarked⟩ := BloomPolicy.createFilter_marked hshort hcreate
  rw [← hbody] at hmarked hshort
  refine ⟨body, hbody, hshort, hmarked, ?_⟩
  intro key
  have hread := FilterBlockReader.keyMayMatch_reading p'.toFilterPolicy hsmall (by omega) hget
    (List.concat_ne_nil _ _) key
  rw [if_neg (fun h => absurd h.1 (by omega))] at hread
  rw [Table.filterAdmits, ht]
  exact hread

/-- The filters of a written table answer the keys that have hashes, and pass those that cannot be
told from the keys beside a block. -/
theorem Sizes.filterAdmits_iff (hs : Sizes opt (cuts opt es) fb)
    (hpolicy : opt.filterPolicy = p.toFilterPolicy) (hkeys : NonEmptyKeys es)
    (hlimits : SizeLimits opt es) (hfb : filterBytes opt (cuts opt es) = .ok fb)
    {reader : FilterBlockReader} (hreader : FilterBlockReader.new p'.toFilterPolicy fb = .ok reader)
    (ht : t.filters = some reader) (hh : h ∈ dataHandles opt es) (key : Bytes) (passed : Bool) :
    t.filterAdmits h key = .ok passed ↔
      BloomPolicy.HasHash key ∧ (passed = true ↔ Passes p opt es h key) := by
  obtain ⟨body, hlength, hshort, hmarked, hasks⟩ :=
    hs.exists_filter hpolicy hkeys hlimits hfb hreader ht hh
  have hpos : 0 < body.length := hlength ▸ p.filterLength_pos _
  rw [hasks, BloomPolicy.keyMayMatch_concat_eq_ok_iff hpos hshort, hmarked, hlength]
  rfl

/-- The filters of a written table stop at a key without a hash. -/
theorem Sizes.filterAdmits_of_not_hasHash (hs : Sizes opt (cuts opt es) fb)
    (hpolicy : opt.filterPolicy = p.toFilterPolicy) (hkeys : NonEmptyKeys es)
    (hlimits : SizeLimits opt es) (hfb : filterBytes opt (cuts opt es) = .ok fb)
    {reader : FilterBlockReader} (hreader : FilterBlockReader.new p'.toFilterPolicy fb = .ok reader)
    (ht : t.filters = some reader) (hh : h ∈ dataHandles opt es)
    (hkey : ¬ BloomPolicy.HasHash key) : t.filterAdmits h key = .error .arithmetic := by
  obtain ⟨body, -, hshort, -, hasks⟩ :=
    hs.exists_filter hpolicy hkeys hlimits hfb hreader ht hh
  rw [hasks, BloomPolicy.keyMayMatch_of_not_hasHash hshort hkey]

/-- The bloom filters of a sorted table answer a key that has a hash for every data block, and deny
it in none that has it. -/
theorem Sizes.filtersAdmit (hs : Sizes opt (cuts opt es) fb) (bad : Nat → Bool)
    (hpolicy : opt.filterPolicy = p.toFilterPolicy) (hkeys : NonEmptyKeys es)
    (hlimits : SizeLimits opt es) (hfb : filterBytes opt (cuts opt es) = .ok fb)
    {reader : FilterBlockReader} (hreader : FilterBlockReader.new p'.toFilterPolicy fb = .ok reader)
    (ht : t.filters = some reader) (hkey : BloomPolicy.HasHash key) :
    t.FiltersAdmit (hs.view bad) key := by
  intro i h L hh hb
  rw [hs.view_handles, Option.map_eq_some_iff] at hh
  obtain ⟨place, hplace, rfl⟩ := hh
  rw [hs.view_blocks, place_getElem? hplace, Option.map_some, Option.some.injEq] at hb
  have hmem := List.mem_of_getElem? hplace
  have hh : place.2 ∈ dataHandles opt es := List.mem_map_of_mem hmem
  have hanswers := hs.filterAdmits_iff hpolicy hkeys hlimits hfb hreader ht hh key
  by_cases hpasses : Passes p opt es place.2 key
  · refine ⟨true, (hanswers true).mpr ⟨hkey, by simpa using hpasses⟩, ?_⟩
    intro hfalse
    cases hfalse
  · refine ⟨false, (hanswers false).mpr ⟨hkey, by simpa using hpasses⟩, ?_⟩
    intro _ hown
    apply hpasses
    have hcut : key ∈ keysOf place.1.entries := by
      split at hb
      · cases hb
      · rw [Option.some.injEq] at hb
        rwa [← hb, ← BlockLayout.keysOf_entries, layoutOf_entries] at hown
    -- The probes of a key that lies beside the block are all among its marks.
    have hbeside : key ∈ keysBeside opt es place.2 := mem_rangeKeys hmem hcut
    exact mem_admitted.mpr fun pos hpos => mem_fingerprint.mpr ⟨key, hbeside, hpos⟩

end SSTable
