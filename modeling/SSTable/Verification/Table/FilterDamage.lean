import SSTable.Verification.Filter.Raw
import SSTable.Verification.Table.Policies

/-!
# Damaged filter blocks

The filter block is stored with a checksum, but read without it.  A table whose filter block was
changed is opened, and looks its keys up with whatever the bytes of the block happen to mean.

Main results:

- Theorem {lit}`Written.damaged_delivers`: a file with a damaged filter block delivers the rest.
- Theorem {lit}`damaged_filter_iff`: when the damage is not seen.
- Theorem {lit}`damaged_filter_misses`: a key that was written is not found.
-/

namespace SSTable

open Foundation Foundation.Exec Foundation.Bytes

/-- Two files of one length agree outside a range. -/
def AgreesOutside (lo hi : Nat) (img img' : Bytes) : Prop :=
  img'.length = img.length ∧ ∀ i, i < lo ∨ hi ≤ i → img'[i]? = img[i]?

/-- A change within one part of a file leaves the other parts where they are. -/
theorem AgreesOutside.split {x d y img' : Bytes}
    (h : AgreesOutside x.length (x.length + d.length) (x ++ (d ++ y)) img') :
    ∃ d', d'.length = d.length ∧ img' = x ++ (d' ++ y) := by
  obtain ⟨hlen, hsame⟩ := h
  rw [List.length_append, List.length_append] at hlen
  use (img'.drop x.length).take d.length
  have htake : img'.take x.length = x := by
    apply List.ext_getElem?
    intro i
    rw [List.getElem?_take]
    by_cases hi : i < x.length
    · rw [if_pos hi, hsame i (Or.inl hi), List.getElem?_append_left hi]
    · rw [if_neg hi, List.getElem?_eq_none_iff.mpr (not_lt.mp hi)]
  have hdrop : img'.drop (x.length + d.length) = y := by
    apply List.ext_getElem?
    intro i
    rw [List.getElem?_drop, hsame _ (Or.inr (Nat.le_add_right _ i)), ← List.append_assoc,
      List.getElem?_append_right (by rw [List.length_append]; omega), List.length_append,
      Nat.add_sub_cancel_left]
  constructor
  · rw [List.length_take, List.length_drop]
    omega
  · calc
      img' = img'.take x.length ++ img'.drop x.length := (List.take_append_drop _ _).symm
      _ = x ++ ((img'.drop x.length).take d.length ++ (img'.drop x.length).drop d.length) := by
        rw [htake, List.take_append_drop]
      _ = x ++ ((img'.drop x.length).take d.length ++ y) := by
        rw [List.drop_drop, hdrop]

/-- Changing one byte of the range changes nothing outside of it. -/
theorem agreesOutside_set {lo hi i : Nat} (img : Bytes) (b : UInt8) (hlo : lo ≤ i) (hhi : i < hi) :
    AgreesOutside lo hi img (img.set i b) := by
  constructor
  · exact List.length_set
  · intro j hj
    apply List.getElem?_set_ne
    omega

section

variable [Crates] {opt ropt : Options} {es : List Entry} {cs : List Cut} {fb : Bytes}

/-- The bytes that a file has in the place of the filter block. -/
def filterPart (opt : Options) (cs : List Cut) (fb img : Bytes) : Bytes :=
  (img.drop (filterHandle opt cs fb).offset).take (filterHandle opt cs fb).size

/-- A file that differs from a finished table only in the stored filter block, its type and its
checksum, delivers the table. -/
theorem Written.damaged_delivers (h : Written opt cs fb) (hs : Sizes opt cs fb) {img' : Bytes}
    (hdamage : AgreesOutside (filterHandle opt cs fb).offset
      ((filterHandle opt cs fb).offset + (filterHandle opt cs fb).size + 5)
      (fileBytes opt cs fb) img') :
    Delivers opt ropt cs fb (filterPart opt cs fb img') (fun _ => false) (BufferBackedFile img') := by
  have hend : (filterHandle opt cs fb).offset + (filterHandle opt cs fb).size + 5 =
      (dataBytes opt cs).length + (envelope .CompressionNone fb).length := by
    rw [envelope_length, filterHandle, Nat.add_assoc]
  rw [fileBytes_split, hend] at hdamage
  obtain ⟨d, hd, rfl⟩ := hdamage.split
  rw [envelope_length] at hd
  have hshort : fb.length ≤ d.length := by omega
  rw [filterPart, filterHandle, List.drop_left, List.take_append_of_le_length hshort]
  apply Delivers.of_holds hd
  · intro x e y hsplit _
    rw [hsplit]
    exact holds_middle _ _ _
  · intro i p hp _
    exact h.read_data hs.file_le hp _
  · intro i p _ hbad
    cases hbad

/-- The lookup of an entry's key gives an error, or the value. -/
def Table.FindsOrFails (t : Table) (e : Entry) (c : BlockCache) : Prop :=
  ∃ r c', t.get e.1 c = .ok (r, c') ∧ ∀ found, r = .ok found → found = some e.2

/-- In a table whose blocks are all readable, the lookup of a key finds its value or fails exactly
if the separator of the key's block is the first one that is not below the key, and the filters
admit the key. -/
theorem Sizes.findsOrFails_iff (hs : Sizes opt (cuts opt es) fb) {t : Table} {c : BlockCache}
    (hinc : Increasing es) (hkeys : NonEmptyKeys es) (hshows : t.Shows (hs.view fun _ => false))
    (hserves : CacheServes t (hs.view fun _ => false) c) {i : Nat} {b : Cut} {h : BlockHandle}
    (hb : (cuts opt es)[i]? = some b) (hh : (dataHandles opt es)[i]? = some h) {e : Entry}
    (he : e ∈ b.entries) :
    t.FindsOrFails e c ↔ Cursor.lowerBound ((cuts opt es).map Cut.sep) e.1 = some i ∧
      t.filterAdmits h e.1 = .ok true := by
  have hkey : e.1 ∈ keysOf b.entries := List.mem_map_of_mem he
  obtain ⟨found, c₁, hplain, hfound⟩ := hs.get_unfiltered hinc hkeys hshows hserves e.1
  rw [hs.view_index_keys] at hfound
  constructor
  · rintro ⟨r, c₂, hget, hr⟩
    cases hs.findBlock_written hshows hinc hkeys e.1 with
    | inl hnone =>
        have hmiss := Table.get_of_findBlock_none hnone.1 t.filters (c := c)
        rw [hget, Except.ok.injEq, Prod.mk.injEq] at hmiss
        exact absurd (hr none hmiss.1) (by simp)
    | inr hsome =>
        obtain ⟨h', hfind, ⟨i', hbound, hsep, hh'⟩, -⟩ := hsome
        cases hasks : t.filterAdmits h' e.1 with
        | error fault =>
            rw [Table.get_of_fault hfind hasks] at hget
            cases hget
        | ok admitted =>
            cases admitted with
            | false =>
                rw [Table.get_of_denied hfind hasks, Except.ok.injEq, Prod.mk.injEq] at hget
                exact absurd (hr none hget.1.symm) (by simp)
            | true =>
                rw [Table.get_of_admitted hfind hasks, hplain, Except.ok.injEq,
                  Prod.mk.injEq] at hget
                obtain ⟨i₁, L, hi₁, -, hL, hmem⟩ := (hfound e.2).mp (hr found hget.1.symm)
                have hsame := hs.index_of_key hinc hkeys hL hmem hb hkey
                rw [hbound, Option.some.injEq] at hi₁
                subst hi₁
                subst hsame
                rw [hh, Option.some.injEq] at hh'
                subst hh'
                exact ⟨hbound, hasks⟩
  · rintro ⟨hbound, hadmits⟩
    have hL : (hs.view fun _ => false).blocks[i]? = some (some (layoutOf opt b.entries)) := by
      rw [hs.view_blocks, hb]
      rfl
    have hmem : (e.1, e.2) ∈ (layoutOf opt b.entries).entries := by
      rw [layoutOf_entries]
      exact he
    have hsep := hs.sep_not_mem _ hinc hkeys hL hmem
    rw [hs.view_index_keys] at hsep
    have hvalue := (hfound e.2).mpr ⟨i, _, hbound, hsep, hL, hmem⟩
    cases hs.findBlock_written hshows hinc hkeys e.1 with
    | inl hnone => exact absurd ⟨i, hbound, hsep, hh⟩ (hnone.2 h)
    | inr hsome =>
        obtain ⟨h', hfind, -, honly⟩ := hsome
        rw [← honly h ⟨i, hbound, hsep, hh⟩] at hfind
        refine ⟨.ok found, c₁, (Table.get_of_admitted hfind hadmits).trans hplain, ?_⟩
        intro found' heq
        rw [← Except.ok.inj heq, hvalue]

/-- A table whose filter block was damaged is opened; its filters are what the bytes in the place of
the filter block mean. -/
theorem open_damaged {n : Nat} {img img' : Bytes} (hcmp : opt.cmp = DefaultCmp)
    (hrcmp : ropt.cmp = DefaultCmp) (hlimits : BlockLimits opt es)
    (hwrite : TableBuilder.writeTable opt [] es = .ok (.ok n, img))
    (hsize : img.length ≤ maxAllocation) (hfb : filterBytes opt (cuts opt es) = .ok fb)
    (hdamage : AgreesOutside (filterHandle opt (cuts opt es) fb).offset
      ((filterHandle opt (cuts opt es) fb).offset + (filterHandle opt (cuts opt es) fb).size + 5)
      img img')
    {c : BlockCache} (hc : c.Reachable) (hid : c.id + 1 < wordLimit) :
    ∃ (hs : Sizes opt (cuts opt es) fb) (t : Table) (reader : FilterBlockReader),
      Table.new ropt (BufferBackedFile img') n c = .ok (.ok t, { c with id := c.id + 1 }) ∧
      t.Shows (hs.view fun _ => false) ∧
      CacheServes t (hs.view fun _ => false) { c with id := c.id + 1 } ∧
      FilterBlockReader.new ropt.filterPolicy (filterPart opt (cuts opt es) fb img') = .ok reader ∧
      t.filters = if TableBuilder.filterKey ropt.filterPolicy.name ≤
        TableBuilder.filterKey opt.filterPolicy.name then some reader else none := by
  have hlimit : maxAllocation < wordLimit := by decide
  obtain ⟨fb', hw, rfl, rfl⟩ := TableBuilder.writeTable_written hcmp hwrite (by omega)
  have hsame := hw.filter_eq
  rw [hfb, Except.ok.injEq] at hsame
  subst hsame
  have hs : Sizes opt (cuts opt es) fb :=
    ⟨hlimits.data_lt, hlimits.index_lt, hlimits.meta_lt fb hfb, hsize⟩
  have hdelivers : Delivers opt ropt (cuts opt es) fb (filterPart opt (cuts opt es) fb img')
      (fun _ => false) (BufferBackedFile img') := hw.damaged_delivers hs hdamage
  obtain ⟨t, reader, hnew, -, hspec⟩ := hdelivers.open_spec hw hs hrcmp hc hid
  exact ⟨hs, t, reader, hnew, hspec⟩

end

/-- A table whose stored filter block was changed, contents, type or checksum, is opened.  Its
lookups find the values or fail, for all keys that were written, exactly if the bytes that are now
in the place of the filter block admit every key at the offset of its data block, and no block is
separated from the next one by that block's own first key. -/
theorem damaged_filter_iff [Crates] (opt ropt : Options) (p p' : BloomPolicy) (es : List Entry)
    (n : Nat) (img img' fb : Bytes) (c : BlockCache) (hcmp : opt.cmp = DefaultCmp)
    (hrcmp : ropt.cmp = DefaultCmp) (hpolicy : opt.filterPolicy = p.toFilterPolicy)
    (hrpolicy : ropt.filterPolicy = p'.toFilterPolicy) (hinc : Increasing es)
    (hkeys : NonEmptyKeys es) (hlimits : BlockLimits opt es)
    (hwrite : TableBuilder.writeTable opt [] es = .ok (.ok n, img))
    (hsize : img.length ≤ maxAllocation) (hfb : filterBytes opt (cuts opt es) = .ok fb)
    (hdamage : AgreesOutside (filterHandle opt (cuts opt es) fb).offset
      ((filterHandle opt (cuts opt es) fb).offset + (filterHandle opt (cuts opt es) fb).size + 5)
      img img')
    (hc : c.Reachable) (hid : c.id + 1 < wordLimit) :
    ∃ t c₁, Table.new ropt (BufferBackedFile img') n c = .ok (.ok t, c₁) ∧
      ∀ c₂, CacheRun t (dataHandles opt es) c₁ c₂ →
        ((∀ e ∈ es, t.FindsOrFails e c₂) ↔
          SeparatorsApart opt es ∧
            ∀ (i : Nat) (b : Cut) (h : BlockHandle), (cuts opt es)[i]? = some b →
              (dataHandles opt es)[i]? = some h →
              ∀ e ∈ b.entries,
                FilterBlockAdmits (filterPart opt (cuts opt es) fb img') h.offset e.1) := by
  obtain ⟨hs, t, reader, hnew, hshows, hserves, hreader, hfilters⟩ :=
    open_damaged hcmp hrcmp hlimits hwrite hsize hfb hdamage hc hid
  rw [bloom_filters_eq hpolicy hrpolicy] at hfilters
  rw [hrpolicy] at hreader
  refine ⟨t, _, hnew, ?_⟩
  intro c₂ hrun
  have hserves₂ := hserves.run hshows hrun
  have hasks : ∀ h key, t.filterAdmits h key = .ok true ↔
      FilterBlockAdmits (filterPart opt (cuts opt es) fb img') h.offset key := by
    intro h key
    rw [Table.filterAdmits, hfilters]
    exact (FilterBlockReader.reads_of_new hreader).keyMayMatch_eq_true_iff
  have hplaced : ∀ (i : Nat) (b : Cut), (cuts opt es)[i]? = some b →
      ∃ h, (dataHandles opt es)[i]? = some h := by
    intro i b hb
    have hlen : (dataHandles opt es).length = (cuts opt es).length := by simp [dataHandles]
    have hi := (List.getElem?_eq_some_iff.mp hb).1
    exact ⟨_, List.getElem?_eq_getElem (hlen ▸ hi)⟩
  constructor
  · intro hall
    have hown : ∀ (i : Nat) (b : Cut), (cuts opt es)[i]? = some b → ∀ e ∈ b.entries, e ∈ es := by
      intro i b hb e he
      rw [← flatten_cuts opt es, entriesOf]
      exact List.mem_flatten.mpr ⟨_, List.mem_map_of_mem (List.mem_of_getElem? hb), he⟩
    constructor
    · intro i b hb hi hzero
      obtain ⟨e, d, hd, hmem, he, hne⟩ := lowerBound_of_zero hb hi hzero
      obtain ⟨h, hh⟩ := hplaced _ d hd
      exact hne ((hs.findsOrFails_iff hinc hkeys hshows hserves₂ hd hh hmem).mp (hall e he)).1
    · intro i b h hb hh e he
      rw [← hasks]
      exact ((hs.findsOrFails_iff hinc hkeys hshows hserves₂ hb hh he).mp
        (hall e (hown i b hb e he))).2
  · rintro ⟨hapart, hadmits⟩ e he
    obtain ⟨i, b, hb, hmem⟩ := exists_cut opt he
    obtain ⟨h, hh⟩ := hplaced i b hb
    rw [hs.findsOrFails_iff hinc hkeys hshows hserves₂ hb hh hmem, hasks]
    exact ⟨lowerBound_seps hinc hkeys hapart hb (List.mem_map_of_mem hmem),
      hadmits i b h hb hh e hmem⟩

set_option maxRecDepth 10000 in
/-- What there is to compute about the file of three keys and two changes to its filter block. -/
theorem neighbours_damage_facts : letI := referenceCrates
    filterHandle tinyBlocks (cuts tinyBlocks neighbours) neighboursFilters =
        { offset := 55, size := 18 } ∧
      getOpened .default (BufferBackedFile (neighboursImage.set 55 0)) 211 smallCache [97] =
        .ok (.ok none) ∧
      getChanged .default (BufferBackedFile (neighboursImage.set 64 255)) 211 smallCache id [97] =
        .error .assertion := by
  decide +kernel

/-- A changed byte of the filter block. -/
theorem neighbours_damaged {i : Nat} (hlo : 55 ≤ i) (hhi : i < 78) (b : UInt8) :
    letI := referenceCrates
    AgreesOutside (filterHandle tinyBlocks (cuts tinyBlocks neighbours) neighboursFilters).offset
      ((filterHandle tinyBlocks (cuts tinyBlocks neighbours) neighboursFilters).offset +
        (filterHandle tinyBlocks (cuts tinyBlocks neighbours) neighboursFilters).size + 5)
      neighboursImage (neighboursImage.set i b) := by
  rw [neighbours_damage_facts.1]
  exact agreesOutside_set _ _ hlo hhi

/-- Lookups in the table of three keys, with a byte of its filter changed. -/
theorem damaged_filter_iff_neighbours : letI := referenceCrates
    ∃ t c₁, Table.new .default (BufferBackedFile (neighboursImage.set 55 0)) 211 smallCache =
        .ok (.ok t, c₁) ∧
      ∀ c₂, CacheRun t (dataHandles tinyBlocks neighbours) c₁ c₂ →
        ((∀ e ∈ neighbours, t.FindsOrFails e c₂) ↔
          SeparatorsApart tinyBlocks neighbours ∧
            ∀ (i : Nat) (b : Cut) (h : BlockHandle), (cuts tinyBlocks neighbours)[i]? = some b →
              (dataHandles tinyBlocks neighbours)[i]? = some h →
              ∀ e ∈ b.entries, FilterBlockAdmits (filterPart tinyBlocks (cuts tinyBlocks neighbours)
                neighboursFilters (neighboursImage.set 55 0)) h.offset e.1) := by
  let := referenceCrates
  apply damaged_filter_iff tinyBlocks .default (BloomPolicy.new 10) (BloomPolicy.new 10) neighbours
    211 neighboursImage _ _ smallCache rfl rfl rfl rfl (by decide) (by decide)
    neighbours_blockLimits neighboursImage_eq neighboursImage_small neighboursFilters_eq
    (neighbours_damaged (i := 55) (by decide) (by decide) 0) smallCache_reachable (by decide)

/-- Two files that differ from a table in one byte of the filter block: in the one, a key that was
written is not found; in the other, its lookup stops at an assertion. -/
theorem damaged_filter_misses : letI := referenceCrates
    Increasing neighbours ∧ NonEmptyKeys neighbours ∧ ([97], [1]) ∈ neighbours ∧
      TableBuilder.writeTable tinyBlocks ([] : Bytes) neighbours = .ok (.ok 211, neighboursImage) ∧
      filterBytes tinyBlocks (cuts tinyBlocks neighbours) = .ok neighboursFilters ∧
      filterHandle tinyBlocks (cuts tinyBlocks neighbours) neighboursFilters =
        { offset := 55, size := 18 } ∧
      (∃ t c₁ c₂, Table.new .default (BufferBackedFile (neighboursImage.set 55 0)) 211 smallCache =
          .ok (.ok t, c₁) ∧ t.get [97] c₁ = .ok (.ok none, c₂)) ∧
      ∃ t c₁, Table.new .default (BufferBackedFile (neighboursImage.set 64 255)) 211 smallCache =
          .ok (.ok t, c₁) ∧ t.get [97] c₁ = .error .assertion := by
  let := referenceCrates
  obtain ⟨hhandle, hmissed, hstops⟩ := neighbours_damage_facts
  refine ⟨by decide, by decide, by decide, neighboursImage_eq, neighboursFilters_eq, hhandle,
    getOpened_eq_ok hmissed, ?_⟩
  obtain ⟨-, t, -, hnew, -⟩ := open_damaged rfl (show Options.default.cmp = DefaultCmp from rfl)
    neighbours_blockLimits neighboursImage_eq neighboursImage_small neighboursFilters_eq
    (neighbours_damaged (i := 64) (by decide) (by decide) 255) smallCache_reachable (by decide)
  have hget := getChanged_eq_error hnew hstops
  exact ⟨t, _, hnew, hget⟩

end SSTable
