import SSTable.Verification.Table.Asking
import SSTable.Verification.Table.Defects

/-!
# Lookups in written tables

Main results:

- Theorem {lit}`get_sound`: a lookup returns only what was written.
- Theorem {lit}`get_agrees_with_seek`: a lookup finds what a seek finds.
- Theorem {lit}`get_complete_iff`: exactly when lookups find everything that was written.
- Theorem {lit}`get_misses`: a key that was written and is not found.
-/

namespace SSTable

open Foundation Foundation.Exec Foundation.Bytes

section

variable [Crates] {opt : Options} {es : List Entry} {fb : Bytes}

theorem readable_subset (bad : Nat → Bool) {e : Entry} (h : e ∈ readable bad (cuts opt es)) :
    e ∈ es := by
  obtain ⟨xs, hxs, he⟩ := List.mem_flatten.mp h
  obtain ⟨i, hi, rfl⟩ := List.mem_mapIdx.mp hxs
  split at he
  · cases he
  · rw [← flatten_cuts opt es, entriesOf]
    exact List.mem_flatten.mpr ⟨_, List.mem_map_of_mem (List.getElem_mem hi), he⟩

/-- What a table shows does not depend on its filters. -/
theorem Table.Shows.withFilters {t : Table} {v : TableView} (h : t.Shows v)
    (filters : Option FilterBlockReader) : ({ t with filters := filters } : Table).Shows v :=
  ⟨h.cmp_eq, h.index_eq, h.reads⟩

theorem CacheServes.withFilters {t : Table} {v : TableView} {c : BlockCache}
    (h : CacheServes t v c) (filters : Option FilterBlockReader) :
    CacheServes { t with filters := filters } v c :=
  ⟨h.reachable, h.id_le, h.serves⟩

/-- A seek shows an entry with the target as its key exactly if the block it looks into has that
entry. -/
theorem TableIterator.Sought.finds {t : Table} {v : TableView} {it : TableIterator} {target : Bytes}
    (hord : v.Ordered) (h : Sought t v target it) (val : Bytes) :
    (it.valid = true ∧ it.current = .ok (some (target, val))) ↔
      ∃ i L, Cursor.lowerBound v.index.keys target = some i ∧ v.blocks[i]? = some (some L) ∧
        (target, val) ∈ L.entries := by
  -- Where the iterator is invalid, it is enough that the block does not have the entry.
  have hnothing : it.valid = false →
      (∀ i L, Cursor.lowerBound v.index.keys target = some i → v.blocks[i]? = some (some L) →
        (target, val) ∉ L.entries) →
      ((it.valid = true ∧ it.current = .ok (some (target, val))) ↔
        ∃ i L, Cursor.lowerBound v.index.keys target = some i ∧ v.blocks[i]? = some (some L) ∧
          (target, val) ∈ L.entries) := by
    intro hinvalid hnone
    constructor
    · rintro ⟨hvalid, -⟩
      rw [hinvalid] at hvalid
      cases hvalid
    · rintro ⟨i, L, hbound, hL, hmem⟩
      exact absurd hmem (hnone i L hbound hL)
  unfold Sought at h
  split at h
  · rename_i hbound
    apply hnothing (Reset.valid h)
    intro i L hi
    rw [hbound] at hi
    cases hi
  · rename_i i hbound
    split at h
    · rename_i L hL
      have hblock : ∀ i' L', Cursor.lowerBound v.index.keys target = some i' →
          v.blocks[i']? = some (some L') → i = i' ∧ L = L' := by
        intro i' L' hi' hL'
        obtain rfl := Option.some.inj (hbound.symm.trans hi')
        exact ⟨rfl, Option.some.inj (Option.some.inj (hL.symm.trans hL'))⟩
      split at h
      · rename_i j hentry
        obtain ⟨e, he, hvalid, hcurrent, -⟩ := On.shown h hord
        have hon : On t v i j it := h
        obtain ⟨L', cb, s, hL', -, hat⟩ := hon.block
        obtain ⟨-, rfl⟩ := hblock i L' hbound hL'
        rw [v.entries_getElem? hL hat.lt_length] at he
        have hmem : (target, val) ∈ L.entries ↔ e = (target, val) :=
          (hord.block L (List.mem_of_getElem? hL)).mem_entries_iff hentry he
        rw [hvalid, hcurrent]
        constructor
        · rintro ⟨-, heq⟩
          exact ⟨i, L, hbound, hL, hmem.mpr (Option.some.inj (Except.ok.inj heq))⟩
        · rintro ⟨i', L'', hi', hL'', hmem'⟩
          obtain ⟨rfl, rfl⟩ := hblock i' L'' hi' hL''
          exact ⟨rfl, by rw [hmem.mp hmem']⟩
      · rename_i hentry
        apply hnothing (Parked.valid h)
        intro i' L' hi' hL'
        obtain ⟨rfl, rfl⟩ := hblock i' L' hi' hL'
        exact BlockLayout.not_mem_entries hentry
    · rename_i hnone
      apply hnothing (Reset.valid h)
      intro i' L hi' hL
      obtain rfl := Option.some.inj (hbound.symm.trans hi')
      exact absurd hL (hnone L)

end

/-- A lookup returns only what was written: for whatever sequence of entries the builder took,
whatever the filters say, and whichever data blocks cannot be read. -/
theorem get_sound [Crates] (opt ropt : Options) (es : List Entry) (n : Nat) (img : Bytes)
    (bad : Nat → Bool) (f : RandomAccess) (c : BlockCache) (hcmp : opt.cmp = DefaultCmp)
    (hrcmp : ropt.cmp = DefaultCmp) (hlimits : BlockLimits opt es)
    (hwrite : TableBuilder.writeTable opt [] es = .ok (.ok n, img))
    (hsize : img.length ≤ maxAllocation) (hf : DefectiveData opt ropt (cuts opt es) img bad f)
    (hc : c.Reachable) (hid : c.id + 1 < wordLimit) :
    ∃ t c₁, Table.new ropt f n c = .ok (.ok t, c₁) ∧
      ∀ (filters : Option FilterBlockReader) (c₂ c₃ : BlockCache) (q v : Bytes),
        CacheRun t (dataHandles opt es) c₁ c₂ →
        ({ t with filters := filters } : Table).get q c₂ = .ok (.ok (some v), c₃) →
        (q, v) ∈ es := by
  obtain ⟨fb, hs, t, reader, -, hnew, -, hshows, hserves, -⟩ :=
    open_written hcmp hrcmp hlimits hwrite hsize hf hc hid
  refine ⟨t, _, hnew, ?_⟩
  intro filters c₂ c₃ q v hrun hget
  have hserves₂ := (hserves.run hshows hrun).withFilters filters
  obtain ⟨-, hmem⟩ := Table.get_partial (hshows.withFilters filters) hserves₂ hget
  rw [hs.view_entries] at hmem
  exact readable_subset bad hmem

/-- A lookup in the table of three keys without its second block, with any filters. -/
theorem get_sound_neighbours : letI := referenceCrates
    ∃ t c₁, Table.new .default defectiveFile 211 smallCache = .ok (.ok t, c₁) ∧
      ∀ (filters : Option FilterBlockReader) (c₂ c₃ : BlockCache) (q v : Bytes),
        CacheRun t (dataHandles tinyBlocks neighbours) c₁ c₂ →
        ({ t with filters := filters } : Table).get q c₂ = .ok (.ok (some v), c₃) →
        (q, v) ∈ neighbours :=
  letI := referenceCrates
  get_sound tinyBlocks .default neighbours 211 neighboursImage (· == 1) defectiveFile smallCache
    rfl rfl neighbours_blockLimits neighboursImage_eq neighboursImage_small defectiveFile_data
    smallCache_reachable (by decide)

section

variable [Crates] {opt : Options} {es : List Entry} {fb : Bytes}

/-- A lookup looks into a block: the block's separator is the first one that is not below the key,
and it is not the key itself. -/
def LooksInto (opt : Options) (es : List Entry) (key : Bytes) (h : BlockHandle) : Prop :=
  ∃ i : Nat, Cursor.lowerBound ((cuts opt es).map Cut.sep) key = some i ∧
    ((cuts opt es).map Cut.sep)[i]? ≠ some key ∧ (dataHandles opt es)[i]? = some h

/-- The block that is found is the block that a lookup looks into. -/
theorem Sizes.findBlock_written (hs : Sizes opt (cuts opt es) fb) {t : Table} {bad : Nat → Bool}
    (hshows : t.Shows (hs.view bad)) (hinc : Increasing es) (hkeys : NonEmptyKeys es)
    (key : Bytes) :
    (t.findBlock key = .ok none ∧ ∀ h, ¬ LooksInto opt es key h) ∨
      ∃ h, t.findBlock key = .ok (some h) ∧ LooksInto opt es key h ∧
        ∀ h', LooksInto opt es key h' → h' = h := by
  have hfind := Table.findBlock_spec hshows (hs.view_ordered bad hinc hkeys) key
  have hhandles : (hs.view bad).handles = dataHandles opt es := rfl
  rw [hs.view_index_keys, hhandles] at hfind
  cases hbound : Cursor.lowerBound ((cuts opt es).map Cut.sep) key with
  | none =>
      rw [hbound] at hfind
      refine Or.inl ⟨hfind, ?_⟩
      rintro h ⟨i, hi, -⟩
      rw [hbound] at hi
      cases hi
  | some i =>
      rw [hbound] at hfind
      dsimp only at hfind
      by_cases hsep : ((cuts opt es).map Cut.sep)[i]? = some key
      · rw [if_pos hsep] at hfind
        refine Or.inl ⟨hfind, ?_⟩
        rintro h ⟨j, hj, hne, -⟩
        rw [hbound, Option.some.injEq] at hj
        exact hne (hj ▸ hsep)
      · rw [if_neg hsep] at hfind
        obtain ⟨h, hh, hfind⟩ := hfind
        refine Or.inr ⟨h, hfind, ⟨i, hbound, hsep, hh⟩, ?_⟩
        rintro h' ⟨j, hj, -, hh'⟩
        rw [hbound, Option.some.injEq] at hj
        rw [← hj, hh, Option.some.injEq] at hh'
        exact hh'.symm

/-- A separator lies above the keys of its block, so it is not among them. -/
theorem Sizes.sep_not_mem (hs : Sizes opt (cuts opt es) fb) (bad : Nat → Bool)
    (hinc : Increasing es) (hkeys : NonEmptyKeys es) {i : Nat} {L : BlockLayout} {key val : Bytes}
    (hL : (hs.view bad).blocks[i]? = some (some L)) (hmem : (key, val) ∈ L.entries) :
    (hs.view bad).index.keys[i]? ≠ some key := by
  intro hsep
  have hblock := (hs.view bad).blockKeys_getElem? hL
  have hkey : key ∈ keysOf (blockEntries (some L)) := List.mem_map_of_mem (f := Prod.fst) hmem
  exact lt_irrefl _ ((hs.view_separated bad hinc hkeys).lt_sep hsep hblock hkey)

/-- A key is in the entries of one block only. -/
theorem Sizes.index_of_key (hs : Sizes opt (cuts opt es) fb) (hinc : Increasing es)
    (hkeys : NonEmptyKeys es) {i j : Nat} {L : BlockLayout} {b : Cut} {key val : Bytes}
    (hL : (hs.view fun _ => false).blocks[i]? = some (some L)) (hi : (key, val) ∈ L.entries)
    (hb : (cuts opt es)[j]? = some b) (hj : key ∈ keysOf b.entries) : i = j := by
  have hL' := (hs.view fun _ => false).blockKeys_getElem? hL
  have hb' : (hs.view fun _ => false).blockKeys[j]? = some (keysOf b.entries) := by
    rw [hs.view_blockKeys, hb]
    rfl
  have hi' : key ∈ keysOf (blockEntries (some L)) := List.mem_map_of_mem (f := Prod.fst) hi
  exact (hs.view_separated (fun _ => false) hinc hkeys).index_unique hL' hb' hi' hj

/-- In a table without defective blocks, the lookup of a key that has a hash finds the entries of the
block it looks into, unless the key is the separator of the block. -/
theorem get_readable (hs : Sizes opt (cuts opt es) fb) {t : Table} {c : BlockCache}
    {p p' : BloomPolicy} (hpolicy : opt.filterPolicy = p.toFilterPolicy) (hinc : Increasing es)
    (hkeys : NonEmptyKeys es) (hlimits : SizeLimits opt es)
    (hfb : filterBytes opt (cuts opt es) = .ok fb)
    (hshows : t.Shows (hs.view fun _ => false)) (hserves : CacheServes t (hs.view fun _ => false) c)
    {reader : FilterBlockReader} (hreader : FilterBlockReader.new p'.toFilterPolicy fb = .ok reader)
    (ht : t.filters = some reader) {key : Bytes} (hkey : BloomPolicy.HasHash key) :
    ∃ found c', t.get key c = .ok (.ok found, c') ∧
      ∀ val, found = some val ↔ ∃ i L,
        Cursor.lowerBound (hs.view fun _ => false).index.keys key = some i ∧
        (hs.view fun _ => false).blocks[i]? = some (some L) ∧ (key, val) ∈ L.entries := by
  obtain ⟨found, c', hget, hfound⟩ := Table.get_spec hshows (hs.view_ordered _ hinc hkeys) hserves
    hs.view_readable (hs.filtersAdmit _ hpolicy hkeys hlimits hfb hreader ht hkey)
  refine ⟨found, c', hget, ?_⟩
  intro val
  rw [hfound]
  constructor
  · rintro ⟨i, L, hbound, -, hL, hmem⟩
    exact ⟨i, L, hbound, hL, hmem⟩
  · rintro ⟨i, L, hbound, hL, hmem⟩
    exact ⟨i, L, hbound, hs.sep_not_mem _ hinc hkeys hL hmem, hL, hmem⟩

/-- A lookup that looks into no block finds nothing, and there is nothing to be found. -/
theorem Sizes.get_outside (hs : Sizes opt (cuts opt es) fb) {t : Table} {c : BlockCache}
    (hshows : t.Shows (hs.view fun _ => false)) (hinc : Increasing es) (hkeys : NonEmptyKeys es)
    {key : Bytes} (hnone : ∀ h, ¬ LooksInto opt es key h) :
    t.get key c = .ok (.ok none, c) ∧
      ∀ i L val, Cursor.lowerBound (hs.view fun _ => false).index.keys key = some i →
        (hs.view fun _ => false).blocks[i]? = some (some L) → (key, val) ∉ L.entries := by
  constructor
  · rcases hs.findBlock_written hshows hinc hkeys key with ⟨hfind, -⟩ | ⟨h, -, hlooks, -⟩
    · exact Table.get_of_findBlock_none hfind t.filters
    · exact absurd hlooks (hnone h)
  · intro i L val hbound hL hmem
    have hsep := hs.sep_not_mem _ hinc hkeys hL hmem
    obtain ⟨h, hh⟩ := (hs.view fun _ => false).handle_of_block hL
    rw [hs.view_index_keys] at hbound hsep
    exact hnone h ⟨i, hbound, hsep, hh⟩

/-- A lookup that looks into a block for a key without a hash stops in the filter. -/
theorem Sizes.get_of_not_hasHash (hs : Sizes opt (cuts opt es) fb) {t : Table} {c : BlockCache}
    {p p' : BloomPolicy} (hpolicy : opt.filterPolicy = p.toFilterPolicy) (hinc : Increasing es)
    (hkeys : NonEmptyKeys es) (hlimits : SizeLimits opt es)
    (hfb : filterBytes opt (cuts opt es) = .ok fb) {bad : Nat → Bool}
    (hshows : t.Shows (hs.view bad)) {reader : FilterBlockReader}
    (hreader : FilterBlockReader.new p'.toFilterPolicy fb = .ok reader)
    (ht : t.filters = some reader) {key : Bytes} {h : BlockHandle} (hlooks : LooksInto opt es key h)
    (hkey : ¬ BloomPolicy.HasHash key) : t.get key c = .error .arithmetic := by
  obtain ⟨i, -, -, hh⟩ := id hlooks
  have hfault := hs.filterAdmits_of_not_hasHash hpolicy hkeys hlimits hfb hreader ht
    (List.mem_of_getElem? hh) hkey
  rcases hs.findBlock_written hshows hinc hkeys key with ⟨-, hnone⟩ | ⟨h', hfind, -, honly⟩
  · exact absurd hlooks (hnone h)
  · rw [← honly h hlooks] at hfind
    exact Table.get_of_fault hfind hfault

end

/-- A lookup returns in a table without defective blocks, and finds a value exactly if a seek ends on
an entry with the key and that value, just if the key has a hash or the lookup looks into no
block. -/
theorem get_agrees_with_seek_iff [Crates] (opt ropt : Options) (p p' : BloomPolicy)
    (es : List Entry) (n : Nat) (img : Bytes) (f : RandomAccess) (c : BlockCache)
    (hcmp : opt.cmp = DefaultCmp) (hrcmp : ropt.cmp = DefaultCmp)
    (hpolicy : opt.filterPolicy = p.toFilterPolicy)
    (hrpolicy : ropt.filterPolicy = p'.toFilterPolicy) (hinc : Increasing es)
    (hkeys : NonEmptyKeys es) (hlimits : SizeLimits opt es)
    (hwrite : TableBuilder.writeTable opt [] es = .ok (.ok n, img))
    (hsize : img.length ≤ maxAllocation)
    (hf : DefectiveData opt ropt (cuts opt es) img (fun _ => false) f)
    (hc : c.Reachable) (hid : c.id + 1 < wordLimit) :
    ∃ t c₁, Table.new ropt f n c = .ok (.ok t, c₁) ∧
      ∀ (q : Bytes) (c₂ : BlockCache), CacheRun t (dataHandles opt es) c₁ c₂ →
        ((∃ found c₃, t.get q c₂ = .ok (.ok found, c₃) ∧
          ∀ (it : TableIterator) (c₄ : BlockCache), TableIterator.Attached t it →
            CacheRun t (dataHandles opt es) c₁ c₄ →
            ∃ it' c₅, it.seek q c₄ = .ok (it', c₅) ∧
              ∀ v, found = some v ↔ (it'.valid = true ∧ it'.current = .ok (some (q, v)))) ↔
          q.length ≤ 5535108815 ∨ ∀ h, ¬ LooksInto opt es q h) := by
  obtain ⟨fb, hs, t, reader, hw, hnew, -, hshows, hserves, hreader, hfilters⟩ :=
    open_written hcmp hrcmp hlimits.toBlockLimits hwrite hsize hf hc hid
  have hord := hs.view_ordered (fun _ => false) hinc hkeys
  have ht := hfilters.trans (bloom_filters_eq hpolicy hrpolicy reader)
  rw [hrpolicy] at hreader
  refine ⟨t, _, hnew, ?_⟩
  intro q c₂ hrun
  -- What a seek finds is what is in the block that its key leads to.
  have hseeks : ∀ found : Option Bytes, (∀ val, found = some val ↔ ∃ i L,
        Cursor.lowerBound (hs.view fun _ => false).index.keys q = some i ∧
        (hs.view fun _ => false).blocks[i]? = some (some L) ∧ (q, val) ∈ L.entries) →
      ∀ (it : TableIterator) (c₄ : BlockCache), TableIterator.Attached t it →
        CacheRun t (dataHandles opt es) { c with id := c.id + 1 } c₄ →
        ∃ it' c₅, it.seek q c₄ = .ok (it', c₅) ∧
          ∀ v, found = some v ↔ (it'.valid = true ∧ it'.current = .ok (some (q, v))) := by
    intro found hfound it c₄ hattached hrun'
    obtain ⟨it', c₅, hseek, -, hsought⟩ := TableIterator.seek_spec hshows hord
      (hserves.run hshows hrun') hattached.table_eq (hattached.over hshows) q
    refine ⟨it', c₅, hseek, ?_⟩
    intro v
    rw [hfound, hsought.finds hord]
  constructor
  · rintro ⟨found, c₃, hget, -⟩
    by_cases hkey : BloomPolicy.HasHash q
    · exact Or.inl hkey
    · right
      intro h hlooks
      rw [hs.get_of_not_hasHash hpolicy hinc hkeys hlimits hw.filter_eq hshows hreader ht hlooks hkey]
        at hget
      cases hget
  · intro hcond
    by_cases hkey : BloomPolicy.HasHash q
    · obtain ⟨found, c₃, hget, hfound⟩ := get_readable hs hpolicy hinc hkeys hlimits hw.filter_eq
        hshows (hserves.run hshows hrun) hreader ht hkey
      exact ⟨found, c₃, hget, hseeks found hfound⟩
    · obtain ⟨hget, hnothing⟩ := hs.get_outside hshows hinc hkeys (hcond.resolve_left hkey) (c := c₂)
      refine ⟨none, c₂, hget, hseeks none ?_⟩
      intro val
      simp only [reduceCtorEq, false_iff]
      rintro ⟨i, L, hbound, hL, hmem⟩
      exact hnothing i L val hbound hL hmem

/-- Lookups and seeks in the table of three keys. -/
theorem get_agrees_with_seek_iff_neighbours : letI := referenceCrates
    ∃ t c₁, Table.new .default (BufferBackedFile neighboursImage) 211 smallCache =
        .ok (.ok t, c₁) ∧
      ∀ (q : Bytes) (c₂ : BlockCache), CacheRun t (dataHandles tinyBlocks neighbours) c₁ c₂ →
        ((∃ found c₃, t.get q c₂ = .ok (.ok found, c₃) ∧
          ∀ (it : TableIterator) (c₄ : BlockCache), TableIterator.Attached t it →
            CacheRun t (dataHandles tinyBlocks neighbours) c₁ c₄ →
            ∃ it' c₅, it.seek q c₄ = .ok (it', c₅) ∧
              ∀ v, found = some v ↔ (it'.valid = true ∧ it'.current = .ok (some (q, v)))) ↔
          q.length ≤ 5535108815 ∨ ∀ h, ¬ LooksInto tinyBlocks neighbours q h) :=
  letI := referenceCrates
  get_agrees_with_seek_iff tinyBlocks .default (BloomPolicy.new 10) (BloomPolicy.new 10) neighbours
    211 neighboursImage (BufferBackedFile neighboursImage) smallCache rfl rfl rfl rfl (by decide)
    (by decide) neighbours_sizeLimits neighboursImage_eq neighboursImage_small
    (defectiveData_none _ _ _ _) smallCache_reachable (by decide)

/-- Keys of any length belong into the third block of the table. -/
theorem neighbours_looksInto (n : Nat) : letI := referenceCrates
    LooksInto tinyBlocks neighbours (List.replicate (n + 2) 97) { offset := 37, size := 13 } := by
  let := referenceCrates
  obtain ⟨-, -, -, -, -, -, -, -, -, -, hhandles, hseps⟩ := neighbours_facts
  refine ⟨2, ?_, ?_, ?_⟩
  · rw [hseps, List.replicate_succ, List.replicate_succ, Cursor.lowerBound_eq_some_iff]
    refine ⟨[98, 0], rfl, ?_, ?_⟩
    · exact le_of_lt (List.cons_lt_cons_iff.mpr (Or.inl (by decide)))
    · intro j k hj hk
      have hsecond : ∀ xs : Bytes, 0 :: xs < 97 :: List.replicate n 97 := fun xs =>
        List.cons_lt_cons_iff.mpr (Or.inl (by decide))
      interval_cases j
      · cases hk
        exact List.cons_lt_cons_iff.mpr (Or.inr ⟨rfl, hsecond []⟩)
      · cases hk
        exact List.cons_lt_cons_iff.mpr (Or.inr ⟨rfl, hsecond [0]⟩)
  · rw [hseps, List.replicate_succ, List.replicate_succ]
    simp
  · rw [dataHandles, hhandles]
    rfl

/-- The lookup of a key that is too long to be hashed stops in the filter. -/
theorem get_overflows : letI := referenceCrates
    Increasing neighbours ∧ NonEmptyKeys neighbours ∧ SizeLimits tinyBlocks neighbours ∧
      TableBuilder.writeTable tinyBlocks ([] : Bytes) neighbours = .ok (.ok 211, neighboursImage) ∧
      ∃ t c₁,
        Table.new .default (BufferBackedFile neighboursImage) 211 smallCache = .ok (.ok t, c₁) ∧
        t.get (List.replicate 5535108816 97) c₁ = .error .arithmetic := by
  let := referenceCrates
  refine ⟨by decide, by decide, neighbours_sizeLimits, neighboursImage_eq, ?_⟩
  obtain ⟨fb, hs, t, reader, hw, hnew, -, hshows, -, hreader, hfilters⟩ :=
    open_written (show tinyBlocks.cmp = DefaultCmp from rfl)
      (show Options.default.cmp = DefaultCmp from rfl) neighbours_blockLimits neighboursImage_eq
      neighboursImage_small (defectiveData_none _ _ _ _) smallCache_reachable (by decide)
  have hpolicy : tinyBlocks.filterPolicy = (BloomPolicy.new 10).toFilterPolicy := rfl
  have hrpolicy : Options.default.filterPolicy = (BloomPolicy.new 10).toFilterPolicy := rfl
  have ht := hfilters.trans (bloom_filters_eq hpolicy hrpolicy reader)
  have hlong : ¬ BloomPolicy.HasHash (List.replicate (5535108814 + 2) 97) := by
    rw [BloomPolicy.HasHash, List.length_replicate]
    omega
  exact ⟨t, _, hnew, hs.get_of_not_hasHash hpolicy (by decide) (by decide) neighbours_sizeLimits
    hw.filter_eq hshows hreader ht (neighbours_looksInto 5535108814) hlong⟩

section

variable [Crates] {opt : Options} {es : List Entry} {fb : Bytes}

/-- Every entry is in a block. -/
theorem exists_cut (opt : Options) {e : Entry} (he : e ∈ es) :
    ∃ (i : Nat) (b : Cut), (cuts opt es)[i]? = some b ∧ e ∈ b.entries := by
  rw [← flatten_cuts opt es, entriesOf] at he
  obtain ⟨xs, hxs, hmem⟩ := List.mem_flatten.mp he
  obtain ⟨b, hb, rfl⟩ := List.mem_map.mp hxs
  obtain ⟨i, hi⟩ := List.mem_iff_getElem?.mp hb
  exact ⟨i, b, hi, hmem⟩

/-- The keys of a table within the limits have hashes. -/
theorem BlockLimits.hasHash (hlimits : BlockLimits opt es) {e : Entry} (he : e ∈ es) :
    BloomPolicy.HasHash e.1 := by
  obtain ⟨i, b, hb, hmem⟩ := exists_cut opt he
  have hle := BlockBuilder.length_le_finish opt (List.mem_map_of_mem (f := Prod.fst) hmem)
  have hlt := hlimits.data_lt b (List.mem_of_getElem? hb)
  rw [Cut.contents] at hlt
  unfold BloomPolicy.HasHash
  omega

/-- No block is separated from the next one by the next one's own first key. -/
def SeparatorsApart (opt : Options) (es : List Entry) : Prop :=
  ∀ i b, (cuts opt es)[i]? = some b → i + 1 < (cuts opt es).length →
    b.nextKey ≠ lastKeyOf b.entries ++ [0]

/-- The separator of the block that a key is in is the first one above the key, provided that no
separator is a key. -/
theorem lowerBound_seps (hinc : Increasing es) (hkeys : NonEmptyKeys es)
    (hapart : SeparatorsApart opt es) {i : Nat} {b : Cut} {k : Bytes}
    (hb : (cuts opt es)[i]? = some b) (hk : k ∈ keysOf b.entries) :
    Cursor.lowerBound ((cuts opt es).map Cut.sep) k = some i := by
  have hsep : Separated ((cuts opt es).map Cut.sep) ((cuts opt es).map fun c => keysOf c.entries) :=
    cuts_separated hinc hkeys
  have hblock : ((cuts opt es).map fun c => keysOf c.entries)[i]? = some (keysOf b.entries) := by
    rw [List.getElem?_map, hb, Option.map_some]
  cases hbound : Cursor.lowerBound ((cuts opt es).map Cut.sep) k with
  | none =>
      exact absurd (hsep.lt_of_lowerBound_none hbound (List.mem_of_getElem? hblock) hk)
        (lt_irrefl k)
  | some i' =>
      rcases Nat.lt_trichotomy i i' with hlt | heq | hgt
      · exact absurd (hsep.lt_of_lowerBound_some hbound hlt hblock hk) (lt_irrefl k)
      · rw [heq]
      · -- A separator in front of the block that reaches the key is the key itself.
        obtain ⟨s, hs, hle, -⟩ := Cursor.lowerBound_eq_some_iff.mp hbound
        rw [List.getElem?_map, Option.map_eq_some_iff] at hs
        obtain ⟨d, hd, rfl⟩ := hs
        have hi := (List.getElem?_eq_some_iff.mp hb).1
        have hall : Increasing (entriesOf (cuts opt es)) := by rwa [flatten_cuts]
        have hnext := nextKey_le (cuts_chained opt es) hall hgt hd hb hk
        rcases (Cut.sep_spec (cut_lt_nextKey hinc hkeys (List.mem_of_getElem? hd))).2.2 with
          hlow | ⟨-, hzero⟩
        · exact absurd (lt_of_le_of_lt hle (lt_of_lt_of_le hlow hnext)) (lt_irrefl k)
        · exact absurd hzero (hapart i' d hd (by omega))

/-- A first key that is the separator in front of its block is not found in its block. -/
theorem lowerBound_of_zero {i : Nat} {b : Cut}
    (hb : (cuts opt es)[i]? = some b) (hi : i + 1 < (cuts opt es).length)
    (hzero : b.nextKey = lastKeyOf b.entries ++ [0]) :
    ∃ e d, (cuts opt es)[i + 1]? = some d ∧ e ∈ d.entries ∧ e ∈ es ∧
      Cursor.lowerBound ((cuts opt es).map Cut.sep) e.1 ≠ some (i + 1) := by
  have hnext := List.getElem?_eq_getElem hi
  have hhead := cuts_chained opt es i _ _ hb hnext
  rw [Option.map_eq_some_iff] at hhead
  obtain ⟨e, he, hkey⟩ := hhead
  have hmem := List.mem_of_mem_head? he
  refine ⟨e, _, hnext, hmem, ?_, ?_⟩
  · rw [← flatten_cuts opt es, entriesOf]
    exact List.mem_flatten.mpr ⟨_, List.mem_map_of_mem (List.mem_of_getElem? hnext), hmem⟩
  · intro hbound
    have hsep : b.sep = e.1 := by
      have hspec := DefaultCmp.findShortestSep_append_zero (lastKeyOf b.entries)
      rw [← hzero] at hspec
      rw [Cut.sep_of_ok hspec, hkey]
    obtain ⟨-, -, -, hbefore⟩ := Cursor.lowerBound_eq_some_iff.mp hbound
    have hlt := hbefore i b.sep (Nat.lt_succ_self i) (by rw [List.getElem?_map, hb]; rfl)
    rw [hsep] at hlt
    exact lt_irrefl _ hlt

end

/-- Lookups find every entry that was written exactly if no key is empty and no block is separated
from the next one by that block's own first key, the last key of the block in front followed by a
zero byte. -/
theorem get_complete_iff [Crates] (opt ropt : Options) (p p' : BloomPolicy) (es : List Entry)
    (n : Nat) (img : Bytes) (f : RandomAccess) (c : BlockCache) (hcmp : opt.cmp = DefaultCmp)
    (hrcmp : ropt.cmp = DefaultCmp) (hpolicy : opt.filterPolicy = p.toFilterPolicy)
    (hrpolicy : ropt.filterPolicy = p'.toFilterPolicy) (hinc : Increasing es)
    (hlimits : SizeLimits opt es)
    (hwrite : TableBuilder.writeTable opt [] es = .ok (.ok n, img))
    (hsize : img.length ≤ maxAllocation)
    (hf : DefectiveData opt ropt (cuts opt es) img (fun _ => false) f)
    (hc : c.Reachable) (hid : c.id + 1 < wordLimit) :
    ∃ t c₁, Table.new ropt f n c = .ok (.ok t, c₁) ∧
      ∀ c₂, CacheRun t (dataHandles opt es) c₁ c₂ →
        ((∀ e ∈ es, ∃ c₃, t.get e.1 c₂ = .ok (.ok (some e.2), c₃)) ↔
          NonEmptyKeys es ∧ SeparatorsApart opt es) := by
  obtain ⟨fb, hs, t, reader, hw, hnew, -, hshows, hserves, hreader, hfilters⟩ :=
    open_written hcmp hrcmp hlimits.toBlockLimits hwrite hsize hf hc hid
  have ht := hfilters.trans (bloom_filters_eq hpolicy hrpolicy reader)
  rw [hrpolicy] at hreader
  refine ⟨t, _, hnew, ?_⟩
  intro c₂ hrun
  have hserves₂ := hserves.run hshows hrun
  constructor
  · intro hall
    have hkeys : NonEmptyKeys es := by
      intro e he
      obtain ⟨c₃, hget⟩ := hall e he
      exact (Table.get_partial hshows hserves₂ hget).1
    refine ⟨hkeys, ?_⟩
    intro i b hb hi hzero
    obtain ⟨e, d, hd, hmem, he, hne⟩ := lowerBound_of_zero hb hi hzero
    obtain ⟨c₃, hget⟩ := hall e he
    obtain ⟨found, c₃', hget', hfound⟩ := get_readable hs hpolicy hinc hkeys hlimits hw.filter_eq
      hshows hserves₂ hreader ht (hlimits.toBlockLimits.hasHash he)
    rw [hget, Except.ok.injEq, Prod.mk.injEq, Except.ok.injEq] at hget'
    obtain ⟨i', L, hbound, hL, hentry⟩ := (hfound e.2).mp hget'.1.symm
    have hsame := hs.index_of_key hinc hkeys hL hentry hd (List.mem_map_of_mem hmem)
    rw [hs.view_index_keys, hsame] at hbound
    exact hne hbound
  · rintro ⟨hkeys, hapart⟩ e he
    obtain ⟨i, b, hb, hmem⟩ := exists_cut opt he
    obtain ⟨found, c₃, hget, hfound⟩ := get_readable hs hpolicy hinc hkeys hlimits hw.filter_eq
      hshows hserves₂ hreader ht (hlimits.toBlockLimits.hasHash he)
    refine ⟨c₃, ?_⟩
    have hsome : found = some e.2 := by
      apply (hfound e.2).mpr
      refine ⟨i, layoutOf opt b.entries, ?_, ?_, ?_⟩
      · rw [hs.view_index_keys]
        exact lowerBound_seps hinc hkeys hapart hb (List.mem_map_of_mem hmem)
      · rw [hs.view_blocks, hb]
        rfl
      · rw [layoutOf_entries]
        exact hmem
    rw [hget, hsome]

/-- Lookups in the table of three keys. -/
theorem get_complete_iff_neighbours : letI := referenceCrates
    ∃ t c₁, Table.new .default (BufferBackedFile neighboursImage) 211 smallCache =
        .ok (.ok t, c₁) ∧
      ∀ c₂, CacheRun t (dataHandles tinyBlocks neighbours) c₁ c₂ →
        ((∀ e ∈ neighbours, ∃ c₃, t.get e.1 c₂ = .ok (.ok (some e.2), c₃)) ↔
          NonEmptyKeys neighbours ∧ SeparatorsApart tinyBlocks neighbours) :=
  letI := referenceCrates
  get_complete_iff tinyBlocks .default (BloomPolicy.new 10) (BloomPolicy.new 10) neighbours 211
    neighboursImage (BufferBackedFile neighboursImage) smallCache rfl rfl rfl rfl (by decide)
    neighbours_sizeLimits neighboursImage_eq neighboursImage_small
    (defectiveData_none _ _ _ _) smallCache_reachable (by decide)

/-- A key that was written can be missed by a lookup: it is the separator of the block in front of
its own. -/
theorem get_misses : letI := referenceCrates
    Increasing neighbours ∧ ([97, 0], [2]) ∈ neighbours ∧
      TableBuilder.writeTable tinyBlocks ([] : Bytes) neighbours = .ok (.ok 211, neighboursImage) ∧
      ∃ t c₁ c₂,
        Table.new .default (BufferBackedFile neighboursImage) 211 smallCache = .ok (.ok t, c₁) ∧
        t.get [97, 0] c₁ = .ok (.ok none, c₂) := by
  let := referenceCrates
  exact ⟨by decide, by decide, neighboursImage_eq, getOpened_eq_ok neighbours_missed.2⟩

end SSTable
