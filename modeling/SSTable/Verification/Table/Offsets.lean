import SSTable.Verification.Table.RoundTrip

/-!
# Approximate offsets

The approximate offset of a key is where the first data block begins whose index key reaches the
key, and the offset of the metaindex block if there is none.  It lies between the blocks that hold
smaller keys and those that do not.

Main results:

- Theorem {lit}`approxOffsetOf_eq`: the approximate offset is a boundary between the data blocks.
- Theorem {lit}`approx_offset_brackets`: what it says about the entries of a table, and that it is
  monotone.
-/

namespace SSTable

open Foundation Foundation.Exec Foundation.Bytes

section

variable [Crates]

/-- Data blocks begin one behind the other. -/
theorem place_consecutive {opt : Options} (cs : List Cut) (fb : Bytes) :
    Consecutive ((place opt 0 cs).map fun p => p.2.offset)
      (fileFooter opt cs fb).metaIndex.offset where
  sorted := (place_offsets_lt 0).imp le_of_lt
  le_stop := by
    intro o ho
    obtain ⟨p, hp, rfl⟩ := List.mem_map.mp ho
    have hend := place_end_le hp
    simp only [fileFooter, frontBytes, List.length_append]
    omega

variable {opt ropt : Options} {es : List Entry} {fb img : Bytes} {n : Nat} {f : RandomAccess}
  {c c₁ : BlockCache} {t : Table}

/-- A table that is opened has the footer and the index of the file. -/
theorem Written.opened (h : Written opt (cuts opt es) fb)
    (hsize : (fileBytes opt (cuts opt es) fb).length ≤ maxAllocation) {bad : Nat → Bool}
    (hf : DefectiveData opt ropt (cuts opt es) (fileBytes opt (cuts opt es) fb) bad f)
    (hnew : Table.new ropt f (fileBytes opt (cuts opt es) fb).length c = .ok (.ok t, c₁)) :
    t.footer = fileFooter opt (cuts opt es) fb ∧
      t.indexBlock =
        { block := (layoutOf opt (indexEntries opt (cuts opt es))).contents, opt := ropt } := by
  have hdelivers := hf.delivers h hsize
  obtain ⟨-, -, hfooter, hindex, -⟩ := Table.new_eq_ok_iff.mp hnew
  rw [hdelivers.readFooter_eq h hsize, Except.ok.injEq, Except.ok.injEq] at hfooter
  rw [← hfooter, hdelivers.read_index h hsize, Except.ok.injEq, Except.ok.injEq] at hindex
  exact ⟨hfooter.symm, hindex.symm⟩

/-- The approximate offset is a boundary between the data blocks. -/
theorem Table.approxOffsetOf_eq (hrcmp : ropt.cmp = DefaultCmp) (hinc : Increasing es)
    (hkeys : NonEmptyKeys es) (hindex : (indexContents opt (cuts opt es)).length < 2 ^ 32)
    (hsize : (fileBytes opt (cuts opt es) fb).length ≤ maxAllocation)
    (hblock : t.indexBlock =
      { block := (layoutOf opt (indexEntries opt (cuts opt es))).contents, opt := ropt })
    (key : Bytes) :
    t.approxOffsetOf key = .ok (boundary ((cuts opt es).map Cut.sep)
      ((place opt 0 (cuts opt es)).map fun p => p.2.offset) t.footer.metaIndex.offset key) := by
  obtain ⟨L, hL⟩ : ∃ L, L = layoutOf opt (indexEntries opt (cuts opt es)) := ⟨_, rfl⟩
  have hentries : L.entries = indexEntries opt (cuts opt es) := by rw [hL, layoutOf_entries]
  have hseps : L.keys = (cuts opt es).map Cut.sep := by
    rw [← BlockLayout.keysOf_entries, hentries, keysOf_indexEntries]
  have hsmall : L.Small := by
    rw [BlockLayout.Small, hL, layoutOf_contents]
    exact hindex
  have hord : L.Ordered := by
    obtain ⟨hincreasing, hne⟩ := indexEntries_increasing opt hinc hkeys
    apply BlockLayout.ordered_of_entries
    · rwa [hentries]
    · rwa [hentries]
  rw [← hL] at hblock
  obtain ⟨it, hiter, hun⟩ := Block.iter_spec (b := t.indexBlock) hsmall
    (by rw [hblock]; exact hrcmp) (by rw [hblock])
  obtain ⟨it', hseek, hplaced⟩ := BlockIter.seek_spec hun.toOver hord key
  rw [hseps] at hplaced
  cases hbound : Cursor.lowerBound ((cuts opt es).map Cut.sep) key with
  | none =>
      rw [hbound] at hplaced
      have hcurrent := BlockIter.Unplaced.current hplaced
      rw [boundary_of_none hbound]
      simp [Table.approxOffsetOf, hiter, hseek, hcurrent]
  | some i =>
      rw [hbound] at hplaced
      obtain ⟨s, hat⟩ := hplaced
      have hcurrent := hat.current (hord.key_ne_nil s (List.mem_of_getElem? hat.slot_eq))
      have hentry : L.entries[i]? = some s.entry := by
        rw [L.entries_getElem?, hat.slot_eq, Option.map_some]
      rw [hentries, indexEntries, List.getElem?_map, Option.map_eq_some_iff] at hentry
      obtain ⟨p, hp, heq⟩ := hentry
      have hstart : ((place opt 0 (cuts opt es)).map fun p => p.2.offset)[i]? = some p.2.offset := by
        rw [List.getElem?_map, hp, Option.map_some]
      have hdecode := BlockHandle.decode_encode (place_fits hsize (List.mem_of_getElem? hp)) []
      rw [List.append_nil] at hdecode
      rw [boundary_of_some hbound hstart]
      simp [Table.approxOffsetOf, hiter, hseek, hcurrent, ← heq, hdecode]

/-- An offset has the data blocks with a key below the target at or in front of it, and those with a
key that is not below the target at or behind it. -/
structure Brackets (places : List (Cut × BlockHandle)) (target : Bytes) (offset : Nat) : Prop where
  le_offset : ∀ p ∈ places, ∀ e ∈ p.1.entries, e.1 < target → p.2.offset ≤ offset
  offset_le : ∀ p ∈ places, ∀ e ∈ p.1.entries, target ≤ e.1 → offset ≤ p.2.offset

/-- The block in which a placed entry lies, and where it begins. -/
theorem place_entry {p : Cut × BlockHandle} {e : Entry} (hp : p ∈ place opt 0 (cuts opt es))
    (he : e ∈ p.1.entries) :
    ∃ i : Nat, ((cuts opt es).map fun c => keysOf c.entries)[i]? = some (keysOf p.1.entries) ∧
      ((place opt 0 (cuts opt es)).map fun p => p.2.offset)[i]? = some p.2.offset ∧
      e.1 ∈ keysOf p.1.entries := by
  obtain ⟨i, hi⟩ := List.mem_iff_getElem?.mp hp
  refine ⟨i, ?_, ?_, List.mem_map_of_mem he⟩
  · rw [List.getElem?_map, place_getElem? hi, Option.map_some]
  · rw [List.getElem?_map, hi, Option.map_some]

/-- The boundary between the data blocks brackets the entries. -/
theorem boundary_brackets (hinc : Increasing es) (hkeys : NonEmptyKeys es) (fb target : Bytes) :
    Brackets (place opt 0 (cuts opt es)) target (boundary ((cuts opt es).map Cut.sep)
      ((place opt 0 (cuts opt es)).map fun p => p.2.offset)
      (fileFooter opt (cuts opt es) fb).metaIndex.offset target) where
  le_offset := by
    intro p hp e he hbelow
    obtain ⟨i, hblock, hstart, hmem⟩ := place_entry hp he
    apply (place_consecutive (cuts opt es) fb).start_le_boundary (cuts_separated hinc hkeys) _
      hblock hstart hmem hbelow
    simp
  offset_le := by
    intro p hp e he hreach
    obtain ⟨i, hblock, hstart, hmem⟩ := place_entry hp he
    apply (place_consecutive (cuts opt es) fb).boundary_le_start (cuts_separated hinc hkeys) _
      hblock hstart hmem hreach
    simp

/-- Above the last key of the index there is no separator. -/
theorem sep_lt_of_last (hinc : Increasing es) (hkeys : NonEmptyKeys es) {last : Entry}
    (hlast : (indexEntries opt (cuts opt es)).getLast? = some last) {target : Bytes}
    (hbelow : last.1 < target) : ∀ s ∈ (cuts opt es).map Cut.sep, s < target := by
  intro s hs
  rw [← keysOf_indexEntries] at hs
  have hle := (indexEntries_increasing opt hinc hkeys).1.le_lastKeyOf hs
  rw [lastKeyOf, hlast] at hle
  exact lt_of_le_of_lt hle hbelow

end

/-- In an opened table, the approximate offset of every key lies behind the beginnings of the data
blocks with smaller entries and not behind those of the other ones.  It is at most the offset of
the metaindex block, equal to it above the last key of the index, and monotone. -/
theorem approx_offset_brackets [Crates] (opt ropt : Options) (es : List Entry) (n : Nat)
    (img : Bytes) (f : RandomAccess) (c c₁ : BlockCache) (t : Table) (hcmp : opt.cmp = DefaultCmp)
    (hrcmp : ropt.cmp = DefaultCmp) (hinc : Increasing es) (hkeys : NonEmptyKeys es)
    (hindex : (indexContents opt (cuts opt es)).length < 2 ^ 32)
    (hwrite : TableBuilder.writeTable opt [] es = .ok (.ok n, img))
    (hsize : img.length ≤ maxAllocation)
    (hf : DefectiveData opt ropt (cuts opt es) img (fun _ => false) f)
    (hnew : Table.new ropt f n c = .ok (.ok t, c₁)) :
    entriesOf ((place opt 0 (cuts opt es)).map Prod.fst) = es ∧
      (∀ p ∈ place opt 0 (cuts opt es),
        readTableBlock ropt f p.2 = .ok (.ok { block := p.1.contents opt, opt := ropt })) ∧
      t.indexBlock = { block := indexContents opt (cuts opt es), opt := ropt } ∧
      ∃ offset : Bytes → Nat, Monotone offset ∧ ∀ key, t.approxOffsetOf key = .ok (offset key) ∧
        Brackets (place opt 0 (cuts opt es)) key (offset key) ∧
        offset key ≤ t.footer.metaIndex.offset ∧
        ∀ last, (indexEntries opt (cuts opt es)).getLast? = some last → last.1 < key →
          offset key = t.footer.metaIndex.offset := by
  have hlimit : maxAllocation < wordLimit := by decide
  obtain ⟨fb, hw, rfl, rfl⟩ := TableBuilder.writeTable_written hcmp hwrite (by omega)
  obtain ⟨hfooter, hblock⟩ := hw.opened hsize hf hnew
  have hconsecutive : Consecutive ((place opt 0 (cuts opt es)).map fun p => p.2.offset)
      t.footer.metaIndex.offset := by
    rw [hfooter]
    exact place_consecutive _ _
  refine ⟨by rw [place_map_fst, flatten_cuts], ?_, ?_, ?_⟩
  · intro p hp
    obtain ⟨i, hi⟩ := List.mem_iff_getElem?.mp hp
    rw [hf.read_intact hw hsize hi rfl, layoutOf_contents, Cut.contents]
  · rw [hblock, layoutOf_contents, indexContents]
  · refine ⟨_, fun key key' hle => hconsecutive.boundary_mono hle, fun key =>
      ⟨Table.approxOffsetOf_eq hrcmp hinc hkeys hindex hsize hblock key, ?_,
        hconsecutive.boundary_le_stop, ?_⟩⟩
    · rw [hfooter]
      exact boundary_brackets hinc hkeys fb key
    · intro last hlast hbelow
      exact boundary_eq_stop (sep_lt_of_last hinc hkeys hlast hbelow)

/-- Approximate offsets in the table of three keys. -/
theorem approx_offset_brackets_neighbours : letI := referenceCrates
    ∃ t c₁, Table.new .default (BufferBackedFile neighboursImage) 211 smallCache =
        .ok (.ok t, c₁) ∧
      ∃ offset : Bytes → Nat, Monotone offset ∧ ∀ key, t.approxOffsetOf key = .ok (offset key) ∧
        Brackets (place tinyBlocks 0 (cuts tinyBlocks neighbours)) key (offset key) ∧
        offset key ≤ t.footer.metaIndex.offset := by
  let := referenceCrates
  have hf := defectiveData_none tinyBlocks .default (cuts tinyBlocks neighbours) neighboursImage
  obtain ⟨-, -, t, -, -, hnew, -⟩ := open_written rfl rfl
    neighbours_blockLimits neighboursImage_eq neighboursImage_small hf smallCache_reachable
    (by decide)
  obtain ⟨-, -, -, offset, hmono, hoffset⟩ := approx_offset_brackets tinyBlocks .default neighbours
    211 neighboursImage (BufferBackedFile neighboursImage) smallCache _ t rfl rfl (by decide)
    (by decide) neighbours_blockLimits.index_lt neighboursImage_eq neighboursImage_small hf hnew
  refine ⟨t, _, hnew, offset, hmono, ?_⟩
  intro key
  obtain ⟨heq, hbrackets, hle, -⟩ := hoffset key
  exact ⟨heq, hbrackets, hle⟩

end SSTable
