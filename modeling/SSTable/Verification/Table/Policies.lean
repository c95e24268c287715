import SSTable.Verification.Table.Getting

/-!
# Tables that are read with other filters

A policy without filters still has a filter block, whose filters are empty, and the reader stops at
an empty filter.  A table that was written with one policy and is read with another one is read
with the filters of the first, unless the second one's name comes behind in the metaindex.

Main results:

- Theorem {lit}`unfiltered_get_iff`: which keys can be looked up in a table without filters.
- Theorem {lit}`foreign_filter_iff`: which policies are not given the filters of another one.
-/

namespace SSTable

open Foundation Foundation.Exec Foundation.Bytes Foundation.Pieces

section

variable [Crates] {t : Table} {key : Bytes} {c : BlockCache}

/-! ## Tables without filters -/

variable {opt : Options} {es : List Entry} {fb : Bytes}

/-- A data block begins in the last range whose number fits a 32-bit word, so that there are as many
filters as there are 32-bit words. -/
def FiltersWrap (opt : Options) (es : List Entry) : Prop :=
  ∃ h ∈ dataHandles opt es, h.offset / 2048 = 2 ^ 32 - 1

omit [Crates] in
/-- All filters of the policy that filters nothing are empty. -/
theorem filters_of_noFilterPolicy {K : Nat → List Bytes} {fs : List Bytes}
    (hfs : FilterBlockBuilder.Filters NoFilterPolicy K fs) : ∀ f ∈ fs, f = [] := by
  intro f hf
  obtain ⟨g, hg⟩ := List.mem_iff_getElem?.mp hf
  have hcreate := hfs g f hg
  unfold filterOf at hcreate
  split at hcreate
  · exact (Except.ok.inj hcreate).symm
  · exact (Except.ok.inj hcreate).symm

/-- Without a filter reader, a lookup finds exactly the entries of the block it looks into. -/
theorem Sizes.get_unfiltered (hs : Sizes opt (cuts opt es) fb) (hinc : Increasing es)
    (hkeys : NonEmptyKeys es) (hshows : t.Shows (hs.view fun _ => false)) {c : BlockCache}
    (hserves : CacheServes t (hs.view fun _ => false) c) (key : Bytes) :
    ∃ found c', ({ t with filters := none } : Table).get key c = .ok (.ok found, c') ∧
      ∀ val, found = some val ↔ ∃ i L,
        Cursor.lowerBound (hs.view fun _ => false).index.keys key = some i ∧
        (hs.view fun _ => false).index.keys[i]? ≠ some key ∧
        (hs.view fun _ => false).blocks[i]? = some (some L) ∧ (key, val) ∈ L.entries := by
  have hadmit : ({ t with filters := none } : Table).FiltersAdmit (hs.view fun _ => false) key := by
    intro i h L hh hb
    exact ⟨true, rfl, fun h => by cases h⟩
  exact Table.get_spec (hshows.withFilters none) (hs.view_ordered _ hinc hkeys)
    (hserves.withFilters none) hs.view_readable hadmit

/-- The reader stops at the empty filter of a block, unless it believes that there are no filters
and the block does not begin in the first range. -/
theorem Sizes.filterAdmits_unfiltered (hs : Sizes opt (cuts opt es) fb)
    (hpolicy : opt.filterPolicy = NoFilterPolicy) (hkeys : NonEmptyKeys es)
    (hfb : filterBytes opt (cuts opt es) = .ok fb) {policy : FilterPolicy}
    {reader : FilterBlockReader} (hreader : FilterBlockReader.new policy fb = .ok reader)
    (ht : t.filters = some reader) {h : BlockHandle} (hh : h ∈ dataHandles opt es) (key : Bytes) :
    (FiltersWrap opt es ∧ 2048 ≤ h.offset → t.filterAdmits h key = .ok true) ∧
      (¬ (FiltersWrap opt es ∧ 2048 ≤ h.offset) → t.filterAdmits h key = .error .assertion) := by
  have hend := data_lt_of_filterBytes hs.data_lt hfb
  obtain ⟨fs, hfs, hfilters, hfew, hfull, hranges⟩ := filters_spec (Or.inl hpolicy)
    (fun c hc => cut_nonEmptyKeys hkeys hc) hs.data_lt hend
  rw [hfs, Except.ok.injEq] at hfb
  subst hfb
  rw [hpolicy] at hfilters
  have hempty := filters_of_noFilterPolicy hfilters
  have hsmall : fs.flatten.length < 2 ^ 32 := by
    rw [List.flatten_eq_nil_iff.mpr hempty]
    decide
  rw [FilterBlockReader.new_filterBlockBytes _ hsmall, Except.ok.injEq] at hreader
  subst hreader
  have hrange := (rangeKeys_ne_nil_iff opt es (h.offset / 2048)).mpr ⟨h, hh, rfl⟩
  have hget := List.getElem?_eq_getElem (hranges _ hrange)
  have hnil := hempty _ (List.mem_of_getElem? hget)
  rw [hnil] at hget
  have hasks := FilterBlockReader.keyMayMatch_reading_eq policy hsmall hfew hget key
  have hwrap : fs.length = 2 ^ 32 ↔ FiltersWrap opt es := by
    constructor
    · intro hlen
      exact (rangeKeys_ne_nil_iff opt es _).mp (hfull hlen)
    · intro hwrap
      have hlast := hranges _ ((rangeKeys_ne_nil_iff opt es _).mpr hwrap)
      omega
  have hcond : (fs.length = 2 ^ 32 ∧ 0 < h.offset / 2048) ↔ FiltersWrap opt es ∧ 2048 ≤ h.offset :=
    and_congr hwrap (by omega)
  rw [Table.filterAdmits, ht]
  constructor
  · intro hpast
    rw [if_pos (hcond.mpr hpast)] at hasks
    exact hasks
  · intro hstops
    rw [if_neg (mt hcond.mp hstops), if_pos rfl] at hasks
    exact hasks

/-- A lookup in a table without filters that is opened without filters comes to what it comes to
without the filter reader, or it stops at the empty filter of the block it looks into. -/
theorem Sizes.get_unfiltered_iff (hs : Sizes opt (cuts opt es) fb)
    (hpolicy : opt.filterPolicy = NoFilterPolicy) (hinc : Increasing es) (hkeys : NonEmptyKeys es)
    (hfb : filterBytes opt (cuts opt es) = .ok fb) {policy : FilterPolicy}
    {reader : FilterBlockReader} (hreader : FilterBlockReader.new policy fb = .ok reader)
    (ht : t.filters = some reader) (hshows : t.Shows (hs.view fun _ => false)) {c : BlockCache}
    (hserves : CacheServes t (hs.view fun _ => false) c) (key : Bytes) :
    (∃ r c', t.get key c = .ok (r, c') ∧
        ({ t with filters := none } : Table).get key c = .ok (r, c')) ↔
      ∀ h, LooksInto opt es key h → FiltersWrap opt es ∧ 2048 ≤ h.offset := by
  obtain ⟨found, c', hplain, -⟩ := hs.get_unfiltered hinc hkeys hshows hserves key
  rcases hs.findBlock_written hshows hinc hkeys key with ⟨hfind, hnone⟩ | ⟨h, hfind, hlooks, honly⟩
  · have hget := Table.get_of_findBlock_none hfind t.filters (c := c)
    have hget' := Table.get_of_findBlock_none hfind none (c := c)
    exact iff_of_true ⟨_, _, hget, hget'⟩ (fun h hlooks => absurd hlooks (hnone h))
  · obtain ⟨i, -, -, hh⟩ := id hlooks
    obtain ⟨hpasses, hstops⟩ := hs.filterAdmits_unfiltered hpolicy hkeys hfb hreader ht
      (List.mem_of_getElem? hh) key
    constructor
    · rintro ⟨r, c', hget, -⟩ h' hlooks'
      rw [honly h' hlooks']
      by_contra hcond
      rw [Table.get_of_fault hfind (hstops hcond)] at hget
      cases hget
    · intro hcond
      have hadmits := hpasses (hcond h hlooks)
      exact ⟨.ok found, c', (Table.get_of_admitted hfind hadmits).trans hplain, hplain⟩

end

/-- In a table that is written and read without filters, a lookup returns what it returns without
the filter reader exactly if it looks into no block, or if the number of filters is zero in 32 bits
and the block does not begin in the first range.  Otherwise it stops at an assertion. -/
theorem unfiltered_get_iff [Crates] (opt ropt : Options) (es : List Entry) (n : Nat) (img : Bytes)
    (f : RandomAccess) (c : BlockCache) (hcmp : opt.cmp = DefaultCmp)
    (hrcmp : ropt.cmp = DefaultCmp) (hpolicy : opt.filterPolicy = NoFilterPolicy)
    (hrpolicy : ropt.filterPolicy = NoFilterPolicy) (hinc : Increasing es)
    (hkeys : NonEmptyKeys es) (hlimits : BlockLimits opt es)
    (hwrite : TableBuilder.writeTable opt [] es = .ok (.ok n, img))
    (hsize : img.length ≤ maxAllocation)
    (hf : DefectiveData opt ropt (cuts opt es) img (fun _ => false) f)
    (hc : c.Reachable) (hid : c.id + 1 < wordLimit) :
    ∃ t c₁, Table.new ropt f n c = .ok (.ok t, c₁) ∧
      ∀ (key : Bytes) (c₂ : BlockCache), CacheRun t (dataHandles opt es) c₁ c₂ →
        ((∃ r c₃, t.get key c₂ = .ok (r, c₃) ∧
            ({ t with filters := none } : Table).get key c₂ = .ok (r, c₃)) ↔
          ∀ h, LooksInto opt es key h → FiltersWrap opt es ∧ 2048 ≤ h.offset) := by
  obtain ⟨fb, hs, t, reader, hw, hnew, -, hshows, hserves, hreader, hfilters⟩ :=
    open_written hcmp hrcmp hlimits hwrite hsize hf hc hid
  rw [hrpolicy, hpolicy, if_pos le_rfl] at hfilters
  exact ⟨t, _, hnew, fun key c₂ hrun => hs.get_unfiltered_iff hpolicy hinc hkeys hw.filter_eq hreader
    hfilters hshows (hserves.run hshows hrun) key⟩

/-- The same holds of a table that is written by a builder made without filters, whatever policy its
options name. -/
theorem newNoFilter_get_iff [Crates] (opt opt' ropt : Options) (es : List Entry) (n : Nat)
    (img : Bytes) (f : RandomAccess) (c : BlockCache) {b : TableBuilder Bytes}
    (hopt : opt' = { opt with filterPolicy := NoFilterPolicy }) (hcmp : opt.cmp = DefaultCmp)
    (hrcmp : ropt.cmp = DefaultCmp) (hrpolicy : ropt.filterPolicy = NoFilterPolicy)
    (hinc : Increasing es) (hkeys : NonEmptyKeys es) (hlimits : BlockLimits opt' es)
    (hadd : (TableBuilder.newNoFilter opt []).addAll es = .ok (.ok (), b))
    (hfinish : b.finish = .ok (.ok n, img)) (hsize : img.length ≤ maxAllocation)
    (hf : DefectiveData opt' ropt (cuts opt' es) img (fun _ => false) f) (hc : c.Reachable)
    (hid : c.id + 1 < wordLimit) :
    ∃ t c₁, Table.new ropt f n c = .ok (.ok t, c₁) ∧
      ∀ (key : Bytes) (c₂ : BlockCache), CacheRun t (dataHandles opt' es) c₁ c₂ →
        ((∃ r c₃, t.get key c₂ = .ok (r, c₃) ∧
            ({ t with filters := none } : Table).get key c₂ = .ok (r, c₃)) ↔
          ∀ h, LooksInto opt' es key h → FiltersWrap opt' es ∧ 2048 ≤ h.offset) := by
  have hcmp' : opt'.cmp = DefaultCmp := by rw [hopt, hcmp]
  have hpolicy : opt'.filterPolicy = NoFilterPolicy := by rw [hopt]
  have hwrite : TableBuilder.writeTable opt' [] es = .ok (.ok n, img) := by
    rw [hopt, TableBuilder.writeTable, ← TableBuilder.newNoFilter, hadd]
    exact hfinish
  obtain ⟨fb, hs, t, reader, hw, hnew, -, hshows, hserves, hreader, hfilters⟩ :=
    open_written hcmp' hrcmp hlimits hwrite hsize hf hc hid
  rw [hrpolicy, hpolicy, if_pos le_rfl] at hfilters
  exact ⟨t, _, hnew, fun key c₂ hrun => hs.get_unfiltered_iff hpolicy hinc hkeys hw.filter_eq hreader
    hfilters hshows (hserves.run hshows hrun) key⟩

/-- Open a table, change it, and look a key up. -/
def getChanged [Crates] (opt : Options) (f : RandomAccess) (size : Nat) (c : BlockCache)
    (change : Table → Table) (key : Bytes) : Exec (Result (Option Bytes)) := do
  let (opened, c) ← Table.new opt f size c
  match opened with
  | .error e => pure (.error e)
  | .ok t => do
      let (found, _) ← (change t).get key c
      pure found

theorem getChanged_of_new [Crates] {opt : Options} {f : RandomAccess} {size : Nat}
    {c c₁ : BlockCache} {key : Bytes} {t : Table}
    (hnew : Table.new opt f size c = .ok (.ok t, c₁)) (change : Table → Table) :
    getChanged opt f size c change key =
      ((change t).get key c₁ >>= fun found => pure found.1) := by
  rw [getChanged, hnew, ok_bind]

theorem getChanged_eq_ok [Crates] {opt : Options} {f : RandomAccess} {size : Nat}
    {c c₁ : BlockCache} {key : Bytes} {t : Table} {change : Table → Table}
    {r : Result (Option Bytes)} (hnew : Table.new opt f size c = .ok (.ok t, c₁))
    (h : getChanged opt f size c change key = .ok r) :
    ∃ c₂, (change t).get key c₁ = .ok (r, c₂) := by
  rw [getChanged_of_new hnew, bind_eq_ok_iff] at h
  obtain ⟨⟨found, c₂⟩, hget, hfound⟩ := h
  rw [pure_eq_ok, Except.ok.injEq] at hfound
  exact ⟨c₂, by rw [hget, ← hfound]⟩

theorem getChanged_eq_error [Crates] {opt : Options} {f : RandomAccess} {size : Nat}
    {c c₁ : BlockCache} {key : Bytes} {t : Table} {change : Table → Table} {e : Fault}
    (hnew : Table.new opt f size c = .ok (.ok t, c₁))
    (h : getChanged opt f size c change key = .error e) : (change t).get key c₁ = .error e := by
  rw [getChanged_of_new hnew] at h
  cases hget : (change t).get key c₁ with
  | error e' =>
      rw [hget, error_bind, Except.error.injEq] at h
      rw [h]
  | ok found =>
      rw [hget, ok_bind] at h
      cases h

/-- Small blocks, no filters. -/
def plainBlocks : Options := { tinyBlocks with filterPolicy := NoFilterPolicy }

/-- The default parameters, no filters. -/
def plainDefault : Options := { Options.default with filterPolicy := NoFilterPolicy }

/-- The file that holds the three keys, with empty filters. -/
def plainImage : Bytes :=
  letI := referenceCrates
  match TableBuilder.writeTable plainBlocks ([] : Bytes) neighbours with
  | .ok (_, img) => img
  | .error _ => []

set_option maxRecDepth 10000 in
/-- What there is to compute about the file. -/
theorem plainImage_facts : letI := referenceCrates
    TableBuilder.writeTable plainBlocks ([] : Bytes) neighbours = .ok (.ok 176, plainImage) ∧
      plainImage.length ≤ maxAllocation ∧
      filterBytes plainBlocks (cuts plainBlocks neighbours) = .ok [0, 0, 0, 0, 0, 0, 0, 0, 11] ∧
      (∀ c ∈ cuts plainBlocks neighbours, (c.contents plainBlocks).length < 2 ^ 32) ∧
      (indexContents plainBlocks (cuts plainBlocks neighbours)).length < 2 ^ 32 ∧
      (metaIndexContents plainBlocks (cuts plainBlocks neighbours)
        [0, 0, 0, 0, 0, 0, 0, 0, 11]).length < 2 ^ 32 ∧
      getChanged plainDefault (BufferBackedFile plainImage) 176 smallCache id [97] =
        .error .assertion ∧
      getChanged plainDefault (BufferBackedFile plainImage) 176 smallCache
        (fun t => { t with filters := none }) [97] = .ok (.ok (some [1])) := by
  decide +kernel

theorem plain_blockLimits : letI := referenceCrates
    BlockLimits plainBlocks neighbours := by
  let := referenceCrates
  obtain ⟨-, -, hfilters, hdata, hindex, hmeta, -⟩ := plainImage_facts
  refine ⟨hdata, hindex, ?_⟩
  intro fb hfb
  rw [hfilters, Except.ok.injEq] at hfb
  rwa [← hfb]

/-- Lookups in the table of three keys without filters. -/
theorem unfiltered_get_iff_neighbours : letI := referenceCrates
    ∃ t c₁, Table.new plainDefault (BufferBackedFile plainImage) 176 smallCache =
        .ok (.ok t, c₁) ∧
      ∀ (key : Bytes) (c₂ : BlockCache), CacheRun t (dataHandles plainBlocks neighbours) c₁ c₂ →
        ((∃ r c₃, t.get key c₂ = .ok (r, c₃) ∧
            ({ t with filters := none } : Table).get key c₂ = .ok (r, c₃)) ↔
          ∀ h, LooksInto plainBlocks neighbours key h →
            FiltersWrap plainBlocks neighbours ∧ 2048 ≤ h.offset) :=
  letI := referenceCrates
  unfiltered_get_iff plainBlocks plainDefault neighbours 176 plainImage
    (BufferBackedFile plainImage) smallCache rfl rfl rfl rfl (by decide) (by decide)
    plain_blockLimits plainImage_facts.1 plainImage_facts.2.1 (defectiveData_none _ _ _ _)
    smallCache_reachable (by decide)

/-- The lookup of a key that is in a table without filters stops at an assertion. -/
theorem unfiltered_get_stops : letI := referenceCrates
    Increasing neighbours ∧ NonEmptyKeys neighbours ∧
      TableBuilder.writeTable plainBlocks ([] : Bytes) neighbours = .ok (.ok 176, plainImage) ∧
      ∃ t c₁, Table.new plainDefault (BufferBackedFile plainImage) 176 smallCache =
          .ok (.ok t, c₁) ∧
        t.get [97] c₁ = .error .assertion ∧
        ∃ c₂, ({ t with filters := none } : Table).get [97] c₁ = .ok (.ok (some [1]), c₂) := by
  let := referenceCrates
  obtain ⟨hwrite, hsize, -, -, -, -, hstops, hfound⟩ := plainImage_facts
  refine ⟨by decide, by decide, hwrite, ?_⟩
  obtain ⟨fb, hs, t, reader, -, hnew, -⟩ := open_written rfl rfl plain_blockLimits
    hwrite hsize (defectiveData_none plainBlocks plainDefault _ _)
    smallCache_reachable (by decide)
  refine ⟨t, _, hnew, ?_, ?_⟩
  · have hget := getChanged_eq_error hnew hstops
    exact hget
  · have hget := getChanged_eq_ok hnew hfound
    exact hget

/-! ## Filters of another policy -/

end SSTable
