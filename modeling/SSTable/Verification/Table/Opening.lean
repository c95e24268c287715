import SSTable.Verification.Filter.Block
import SSTable.Verification.Table.Separation
import SSTable.Verification.Table.Stored
import SSTable.Verification.Table.View

/-!
# Opening a table

A finished table can be opened from every source that agrees with the file outside the data
blocks.  The opened table shows the blocks of the plan, except for those the source fails to
deliver.

Main results:

- Definition {lit}`Sizes.view`: the view of a finished table with some defective blocks.
- Theorem {lit}`Delivers.open_spec`: opening succeeds whatever the filter block holds, and the
  opened table shows the view.
- Theorem {lit}`open_written`: a table that was written is opened.
-/

namespace SSTable

open Foundation Foundation.Exec Foundation.Bytes

/-- The entries of the blocks that are not defective. -/
def readable (bad : Nat → Bool) (cs : List Cut) : List Entry :=
  (cs.mapIdx fun i c => if bad i then [] else c.entries).flatten

theorem readable_none (cs : List Cut) : readable (fun _ => false) cs = entriesOf cs := by
  rw [readable, entriesOf]
  congr 1
  apply List.ext_getElem?
  intro i
  simp

theorem readable_take_succ (bad : Nat → Bool) {cs : List Cut} {i : Nat} {c : Cut}
    (h : cs[i]? = some c) :
    readable bad (cs.take (i + 1)) =
      readable bad (cs.take i) ++ (if bad i then [] else c.entries) := by
  have hi := (List.getElem?_eq_some_iff.mp h).1
  rw [List.take_add_one, h, Option.toList_some, readable, readable, List.mapIdx_append,
    List.flatten_append, List.length_take, Nat.min_eq_left hi.le]
  simp

/-- No metaindex key is empty. -/
theorem filterKey_ne_nil (name : String) : TableBuilder.filterKey name ≠ [] := by
  have hprefix : "filter.".toUTF8.data.toList ≠ [] := by decide
  exact fun h => hprefix (List.append_eq_nil_iff.mp h).1

/-- Where both sides use bloom filters, the reader takes the filters of the writer. -/
theorem bloom_filters_eq {opt ropt : Options} {p p' : BloomPolicy}
    (hpolicy : opt.filterPolicy = p.toFilterPolicy)
    (hrpolicy : ropt.filterPolicy = p'.toFilterPolicy) (reader : FilterBlockReader) :
    (if TableBuilder.filterKey ropt.filterPolicy.name ≤
      TableBuilder.filterKey opt.filterPolicy.name then some reader else none) = some reader := by
  rw [hrpolicy, hpolicy]
  exact if_pos le_rfl

variable [Crates]

/-! ## Layouts of written blocks -/

/-- The layout of the block that a builder writes for the entries. -/
noncomputable def layoutOf (opt : Options) (es : List Entry) : BlockLayout :=
  Classical.choose (BlockBuilder.exists_layout opt es)

@[simp] theorem layoutOf_entries (opt : Options) (es : List Entry) :
    (layoutOf opt es).entries = es :=
  (Classical.choose_spec (BlockBuilder.exists_layout opt es)).1

@[simp] theorem layoutOf_slots_length (opt : Options) (es : List Entry) :
    (layoutOf opt es).slots.length = es.length := by
  rw [← BlockLayout.entries_length, layoutOf_entries]

theorem layoutOf_slots_eq_nil_iff {opt : Options} {es : List Entry} :
    (layoutOf opt es).slots = [] ↔ es = [] := by
  rw [← List.length_eq_zero_iff, layoutOf_slots_length, List.length_eq_zero_iff]

theorem layoutOf_contents (opt : Options) (es : List Entry) :
    (layoutOf opt es).contents = (BlockBuilder.pushAll opt es).finish :=
  (Classical.choose_spec (BlockBuilder.exists_layout opt es)).2.symm

/-- The limits that the fixed-width words in a table and the memory it is read into impose. -/
structure Sizes (opt : Options) (cs : List Cut) (fb : Bytes) : Prop where
  data_lt : ∀ c ∈ cs, (c.contents opt).length < 2 ^ 32
  index_lt : (indexContents opt cs).length < 2 ^ 32
  meta_lt : (metaIndexContents opt cs fb).length < 2 ^ 32
  file_le : (fileBytes opt cs fb).length ≤ maxAllocation

/-! ## Places in the file -/

variable {opt ropt : Options} {cs : List Cut} {fb : Bytes}

theorem place_offset_ge {off : Nat} {p : Cut × BlockHandle} (h : p ∈ place opt off cs) :
    off ≤ p.2.offset := by
  induction cs generalizing off with
  | nil => simp [place] at h
  | cons c cs ih =>
      rw [place, List.mem_cons] at h
      rcases h with rfl | h
      · exact le_rfl
      · have := ih h
        omega

/-- Data blocks begin one behind the other. -/
theorem place_offsets_lt (off : Nat) :
    ((place opt off cs).map fun p => p.2.offset).Pairwise (· < ·) := by
  induction cs generalizing off with
  | nil => simp [place]
  | cons c cs ih =>
      rw [place, List.map_cons, List.pairwise_cons]
      refine ⟨?_, ih _⟩
      intro o ho
      obtain ⟨p, hp, rfl⟩ := List.mem_map.mp ho
      have := place_offset_ge hp
      simp only
      omega

/-- Data blocks begin at different offsets. -/
theorem place_offsets_nodup (off : Nat) :
    ((place opt off cs).map fun p => p.2.offset).Nodup :=
  (place_offsets_lt off).imp ne_of_lt

/-- Every data block lies in front of the other blocks. -/
theorem place_end_le {p : Cut × BlockHandle} (h : p ∈ place opt 0 cs) :
    p.2.offset + p.2.size + 5 ≤ (dataBytes opt cs).length := by
  obtain ⟨x, y, hsplit, hx, hsize⟩ := mem_place [] h
  have hlen := congrArg List.length hsplit
  rw [List.nil_append, List.length_append, List.length_append, envelope_length] at hlen
  omega

/-- The parts of a finished file. -/
theorem fileBytes_split (opt : Options) (cs : List Cut) (fb : Bytes) : fileBytes opt cs fb =
    dataBytes opt cs ++ (envelope .CompressionNone fb ++ (envelope opt.compressionType
      (stored opt.compressionType (metaIndexContents opt cs fb)) ++ (envelope opt.compressionType
        (stored opt.compressionType (indexContents opt cs)) ++ (fileFooter opt cs fb).bytes))) := by
  simp only [fileBytes, bodyBytes, frontBytes, List.append_assoc]

theorem dataBytes_le_file (opt : Options) (cs : List Cut) (fb : Bytes) :
    (dataBytes opt cs).length ≤ (fileBytes opt cs fb).length := by
  rw [fileBytes_split, List.length_append]
  omega

theorem place_fits (hsize : (fileBytes opt cs fb).length ≤ maxAllocation)
    {p : Cut × BlockHandle} (h : p ∈ place opt 0 cs) : p.2.Fits := by
  have hend := place_end_le h
  have hle := dataBytes_le_file opt cs fb
  have hlimit : maxAllocation < wordLimit := by decide
  exact ⟨by omega, by omega⟩

/-! ## The view of a finished table -/

/-- The blocks of a finished table; the defective ones cannot be read. -/
noncomputable def Sizes.view (hs : Sizes opt cs fb) (bad : Nat → Bool) : TableView where
  index := layoutOf opt (indexEntries opt cs)
  handles := (place opt 0 cs).map Prod.snd
  blocks := cs.mapIdx fun i c => if bad i then none else some (layoutOf opt c.entries)
  index_small := by
    rw [BlockLayout.Small, layoutOf_contents]
    exact hs.index_lt
  values_eq := by
    rw [layoutOf_entries, indexEntries, List.map_map, List.map_map]
    rfl
  length_eq := by simp
  fits := by
    intro hd hmem
    obtain ⟨p, hp, rfl⟩ := List.mem_map.mp hmem
    exact place_fits hs.file_le hp
  small := by
    intro L hmem
    obtain ⟨i, hi, heq⟩ := List.mem_mapIdx.mp hmem
    split at heq
    · cases heq
    · rw [Option.some.injEq] at heq
      rw [← heq, BlockLayout.Small, layoutOf_contents]
      exact hs.data_lt _ (List.getElem_mem hi)
  offsets_nodup := by
    rw [List.map_map]
    exact place_offsets_nodup 0

theorem Sizes.view_blocks (hs : Sizes opt cs fb) (bad : Nat → Bool) (i : Nat) :
    (hs.view bad).blocks[i]? =
      cs[i]?.map fun c => if bad i then none else some (layoutOf opt c.entries) := by
  simp only [view, List.getElem?_mapIdx]

theorem Sizes.view_handles (hs : Sizes opt cs fb) (bad : Nat → Bool) (i : Nat) :
    (hs.view bad).handles[i]? = (place opt 0 cs)[i]?.map Prod.snd := by
  simp only [view, List.getElem?_map]

/-- The keys of the index are the separators. -/
theorem Sizes.view_index_keys (hs : Sizes opt cs fb) (bad : Nat → Bool) :
    (hs.view bad).index.keys = cs.map Cut.sep := by
  rw [← BlockLayout.keysOf_entries, view, layoutOf_entries, keysOf_indexEntries]

/-- A place and the block it belongs to. -/
theorem place_getElem? {i : Nat} {p : Cut × BlockHandle} (h : (place opt 0 cs)[i]? = some p) :
    cs[i]? = some p.1 := by
  have hmap := congrArg (fun xs => xs[i]?) (place_map_fst opt 0 cs)
  rw [List.getElem?_map, h, Option.map_some] at hmap
  exact hmap.symm

/-! ## Sources with defective data blocks -/

/-- A source agrees with a file outside its data blocks, delivers the data blocks that are not
defective, and fails to deliver the others. -/
structure DefectiveData (opt ropt : Options) (cs : List Cut) (img : Bytes) (bad : Nat → Bool)
    (f : RandomAccess) : Prop where
  outside : ∀ off buf, (dataBytes opt cs).length ≤ off → f.readAt off buf = bufferReadAt img off buf
  intact : ∀ i p, (place opt 0 cs)[i]? = some p → bad i = false →
    readTableBlock ropt f p.2 = readTableBlock ropt (BufferBackedFile img) p.2
  defective : ∀ i p, (place opt 0 cs)[i]? = some p → bad i = true →
    ∃ e, readTableBlock ropt f p.2 = .ok (.error e)

/-- The file itself has no defective blocks. -/
theorem defectiveData_none (opt ropt : Options) (cs : List Cut) (img : Bytes) :
    DefectiveData opt ropt cs img (fun _ => false) (BufferBackedFile img) where
  outside _ _ _ := rfl
  intact _ _ _ _ := rfl
  defective _ _ _ h := by cases h

variable {bad : Nat → Bool} {f : RandomAccess} {img : Bytes}

/-- A file that cannot be read at some offsets. -/
def failingFile (img : Bytes) (fails : Nat → Bool) : RandomAccess where
  readAt off dst :=
    if fails off then .error (Status.new .IOError "read failed") else bufferReadAt img off dst
  readAt_length := by
    intro off dst n dst' h
    split at h
    · cases h
    · exact bufferReadAt_length h

/-- The data blocks at the offsets where a file cannot be read are its defective blocks. -/
theorem defectiveData_failing (opt ropt : Options) (cs : List Cut) (img : Bytes)
    {fails : Nat → Bool} (hblocks : ∀ i p, (place opt 0 cs)[i]? = some p → fails p.2.offset = bad i)
    (hothers : ∀ off, (dataBytes opt cs).length ≤ off → fails off = false)
    (hsize : (dataBytes opt cs).length ≤ maxAllocation) :
    DefectiveData opt ropt cs img bad (failingFile img fails) where
  outside off buf hoff := by simp [failingFile, hothers off hoff]
  intact i p hp hbad := by
    apply readTableBlock_congr
    intro buf
    simp [failingFile, hblocks i p hp, hbad, BufferBackedFile]
  defective i p hp hbad := by
    have hend := place_end_le (List.mem_of_getElem? hp)
    refine ⟨Status.new .IOError "read failed", readTableBlock_of_error ?_ (by omega)⟩
    intro buf
    simp [failingFile, hblocks i p hp, hbad]

/-- Behind the data blocks, the source holds what the file holds. -/
theorem DefectiveData.holds (h : DefectiveData opt ropt cs img bad f) {x d y : Bytes}
    (hsplit : img = x ++ (d ++ y)) (hoff : (dataBytes opt cs).length ≤ x.length) :
    f.Holds x.length d := by
  subst hsplit
  obtain ⟨n, hread⟩ := holds_middle x d y
  exact ⟨n, by rw [h.outside _ _ hoff]; exact hread⟩

/-- The data blocks are read back from every file that begins with them. -/
theorem Written.read_data (hw : Written opt cs fb)
    (hfile : (fileBytes opt cs fb).length ≤ maxAllocation) {i : Nat}
    {p : Cut × BlockHandle} (hp : (place opt 0 cs)[i]? = some p) (rest : Bytes) :
    readTableBlock ropt (BufferBackedFile (dataBytes opt cs ++ rest)) p.2 =
      .ok (.ok { block := (layoutOf opt p.1.entries).contents, opt := ropt }) := by
  have hmem := List.mem_of_getElem? hp
  obtain ⟨x, y, hsplit, hx, hsize⟩ := mem_place [] hmem
  have hcompress := (hw.admitted i p.1 (place_getElem? hp)).1.compress_eq
  rw [List.nil_append] at hsplit
  have hend := place_end_le hmem
  have hle := dataBytes_le_file opt cs fb
  rw [hsplit, List.append_assoc, List.append_assoc]
  have hloc : p.2 = { offset := x.length, size := (stored opt.compressionType
      (p.1.contents opt)).length } := by
    rw [hx, ← hsize]
  rw [hloc]
  exact readTableBlock_envelope (layoutOf_contents opt p.1.entries).symm hcompress
    (holds_middle _ _ _) (by omega)

/-- The data blocks that are not defective are read back. -/
theorem DefectiveData.read_intact (h : DefectiveData opt ropt cs (fileBytes opt cs fb) bad f)
    (hw : Written opt cs fb) (hsize : (fileBytes opt cs fb).length ≤ maxAllocation) {i : Nat}
    {p : Cut × BlockHandle} (hp : (place opt 0 cs)[i]? = some p) (hbad : bad i = false) :
    readTableBlock ropt f p.2 =
      .ok (.ok { block := (layoutOf opt p.1.entries).contents, opt := ropt }) := by
  rw [h.intact i p hp hbad, fileBytes_split]
  exact hw.read_data hsize hp _

/-! ## Opening -/

/-- A table is opened exactly if its footer, its two index blocks and its filter block are read. -/
theorem Table.new_eq_ok_iff {opt : Options} {file : RandomAccess} {size : Nat} {c c' : BlockCache}
    {t : Table} : Table.new opt file size c = .ok (.ok t, c') ↔
      t.file = file ∧ t.opt = opt ∧ readFooter file size = .ok (.ok t.footer) ∧
      readTableBlock opt file t.footer.index = .ok (.ok t.indexBlock) ∧
      ∃ metaix, readTableBlock opt file t.footer.metaIndex = .ok (.ok metaix) ∧
        Table.readFilterBlock metaix file opt = .ok (.ok t.filters) ∧
        c.newCacheId = .ok (t.cacheId, c') := by
  constructor
  · intro hnew
    unfold Table.new at hnew
    rcases hfooter : readFooter file size with e | e | footer
    · simp [hfooter] at hnew
    · simp [hfooter] at hnew
    · simp only [hfooter, ok_bind] at hnew
      rcases hindex : readTableBlock opt file footer.index with e | e | index
      · simp [hindex] at hnew
      · simp [hindex] at hnew
      · simp only [hindex, ok_bind] at hnew
        rcases hmeta : readTableBlock opt file footer.metaIndex with e | e | metaix
        · simp [hmeta] at hnew
        · simp [hmeta] at hnew
        · simp only [hmeta, ok_bind] at hnew
          rcases hfilters : readFilterBlock metaix file opt with e | e | filters
          · simp [hfilters] at hnew
          · simp [hfilters] at hnew
          · simp only [hfilters, ok_bind, bind_eq_ok_iff, pure_eq_ok, Except.ok.injEq,
              Prod.mk.injEq] at hnew
            obtain ⟨⟨id, c''⟩, hid, rfl, rfl⟩ := hnew
            exact ⟨rfl, rfl, rfl, hindex, metaix, hmeta, hfilters, hid⟩
  · rintro ⟨rfl, rfl, hfooter, hindex, metaix, hmeta, hfilters, hid⟩
    simp only [Table.new, hfooter, ok_bind, hindex, hmeta, hfilters, hid, pure_eq_ok]

variable {fb' : Bytes}

theorem body_length_add (opt : Options) (cs : List Cut) (fb : Bytes) :
    (bodyBytes opt cs fb).length = (frontBytes opt cs fb).length +
    (stored opt.compressionType (metaIndexContents opt cs fb)).length + 5 +
    (stored opt.compressionType (indexContents opt cs)).length + 5 := by
  simp [bodyBytes, Nat.add_assoc]

theorem Written.file_length (h : Written opt cs fb) :
    (fileBytes opt cs fb).length = (bodyBytes opt cs fb).length + fullFooterLength := by
  rw [fileBytes, List.length_append, Footer.bytes_length h.short]

/-- The handles in the footer are machine words. -/
theorem Written.footer_fits (h : Written opt cs fb)
    (hsize : (fileBytes opt cs fb).length ≤ maxAllocation) :
    (fileFooter opt cs fb).metaIndex.Fits ∧ (fileFooter opt cs fb).index.Fits := by
  have hbody := body_length_add opt cs fb
  have hfile := h.file_length
  have hlimit : maxAllocation < wordLimit := by decide
  simp only [fileFooter, BlockHandle.Fits]
  omega

/-- A source delivers a finished table: in the place of the filter block it may hold other bytes,
and it may fail to deliver some of the data blocks. -/
structure Delivers (opt ropt : Options) (cs : List Cut) (fb fb' : Bytes) (bad : Nat → Bool)
    (f : RandomAccess) : Prop where
  filter_length : fb'.length = fb.length
  filter_holds : f.Holds (dataBytes opt cs).length fb'
  meta_holds : f.Holds (fileFooter opt cs fb).metaIndex.offset
    (envelope opt.compressionType (stored opt.compressionType (metaIndexContents opt cs fb)))
  index_holds : f.Holds (fileFooter opt cs fb).index.offset
    (envelope opt.compressionType (stored opt.compressionType (indexContents opt cs)))
  footer_holds : f.Holds (bodyBytes opt cs fb).length (fileFooter opt cs fb).bytes
  intact : ∀ i p, (place opt 0 cs)[i]? = some p → bad i = false →
    readTableBlock ropt f p.2 =
      .ok (.ok { block := (layoutOf opt p.1.entries).contents, opt := ropt })
  defective : ∀ i p, (place opt 0 cs)[i]? = some p → bad i = true →
    ∃ e, readTableBlock ropt f p.2 = .ok (.error e)

/-- A source that holds the parts of the file behind the data blocks, with any bytes for the stored
filter block, delivers the table. -/
theorem Delivers.of_holds {d : Bytes} (hd : d.length = fb.length + 5)
    (hholds : ∀ x e y, dataBytes opt cs ++ (d ++ (envelope opt.compressionType
      (stored opt.compressionType (metaIndexContents opt cs fb)) ++ (envelope opt.compressionType
        (stored opt.compressionType (indexContents opt cs)) ++ (fileFooter opt cs fb).bytes))) =
          x ++ (e ++ y) → (dataBytes opt cs).length ≤ x.length → f.Holds x.length e)
    (hintact : ∀ i p, (place opt 0 cs)[i]? = some p → bad i = false →
      readTableBlock ropt f p.2 =
        .ok (.ok { block := (layoutOf opt p.1.entries).contents, opt := ropt }))
    (hdefective : ∀ i p, (place opt 0 cs)[i]? = some p → bad i = true →
      ∃ e, readTableBlock ropt f p.2 = .ok (.error e)) :
    Delivers opt ropt cs fb (d.take fb.length) bad f := by
  obtain ⟨m, hm⟩ : ∃ m, m = envelope opt.compressionType
    (stored opt.compressionType (metaIndexContents opt cs fb)) := ⟨_, rfl⟩
  obtain ⟨x, hx⟩ : ∃ x, x = envelope opt.compressionType
    (stored opt.compressionType (indexContents opt cs)) := ⟨_, rfl⟩
  obtain ⟨y, hy⟩ : ∃ y, y = (fileFooter opt cs fb).bytes := ⟨_, rfl⟩
  rw [← hm, ← hx, ← hy] at hholds
  have hfront : (frontBytes opt cs fb).length = (dataBytes opt cs ++ d).length := by
    rw [frontBytes, List.length_append, List.length_append, envelope_length, hd]
  have hindex : (fileFooter opt cs fb).index.offset = (dataBytes opt cs ++ d ++ m).length := by
    rw [List.length_append, ← hfront, hm, envelope_length, ← Nat.add_assoc]
    rfl
  have hbody : (bodyBytes opt cs fb).length = (dataBytes opt cs ++ d ++ m ++ x).length := by
    rw [bodyBytes, ← hm, ← hx, List.length_append, hfront]
    simp only [List.length_append, Nat.add_assoc]
  have hbehind : ∀ z : Bytes, (dataBytes opt cs).length ≤ (dataBytes opt cs ++ z).length := by
    intro z
    rw [List.length_append]
    omega
  constructor
  case filter_length =>
    rw [List.length_take]
    omega
  case filter_holds =>
    apply hholds _ _ (d.drop fb.length ++ (m ++ (x ++ y))) _ le_rfl
    rw [← List.append_assoc (d.take fb.length), List.take_append_drop]
  case meta_holds =>
    have hoff : (fileFooter opt cs fb).metaIndex.offset = (dataBytes opt cs ++ d).length := hfront
    rw [hoff, ← hm]
    exact hholds _ _ (x ++ y) (List.append_assoc _ _ _).symm (hbehind d)
  case index_holds =>
    rw [hindex, ← hx]
    apply hholds _ _ y
    · simp only [List.append_assoc]
    · rw [List.append_assoc]
      exact hbehind _
  case footer_holds =>
    rw [hbody, ← hy]
    apply hholds _ _ []
    · simp only [List.append_assoc, List.append_nil]
    · rw [List.append_assoc, List.append_assoc]
      exact hbehind _
  case intact => exact hintact
  case defective => exact hdefective

/-- A source that agrees with the file outside its data blocks delivers the table. -/
theorem DefectiveData.delivers (hf : DefectiveData opt ropt cs (fileBytes opt cs fb) bad f)
    (h : Written opt cs fb) (hsize : (fileBytes opt cs fb).length ≤ maxAllocation) :
    Delivers opt ropt cs fb fb bad f := by
  have hfilter : (envelope .CompressionNone fb).take fb.length = fb := List.take_left
  rw [← congrArg (Delivers opt ropt cs fb · bad f) hfilter]
  apply Delivers.of_holds (envelope_length _ _)
  · intro x e y hsplit hoff
    exact hf.holds ((fileBytes_split opt cs fb).trans hsplit) hoff
  · exact fun _ _ => hf.read_intact h hsize
  · exact hf.defective

/-- The footer is read from the end of the file. -/
theorem Delivers.readFooter_eq (hf : Delivers opt ropt cs fb fb' bad f) (h : Written opt cs fb)
    (hsize : (fileBytes opt cs fb).length ≤ maxAllocation) :
    readFooter f (fileBytes opt cs fb).length = .ok (.ok (fileFooter opt cs fb)) := by
  obtain ⟨n, hread⟩ := hf.footer_holds
  rw [Footer.bytes_length h.short] at hread
  have hfits := h.footer_fits hsize
  rw [readFooter, h.file_length, wordSub_of_le (Nat.le_add_left _ _), ok_bind, Nat.add_sub_cancel]
  simp only [hread, Footer.decode_bytes h.short hfits.1 hfits.2, ok_bind, pure_eq_ok]

/-- The index block is read back. -/
theorem Delivers.read_index (hf : Delivers opt ropt cs fb fb' bad f) (h : Written opt cs fb)
    (hsize : (fileBytes opt cs fb).length ≤ maxAllocation) :
    readTableBlock ropt f (fileFooter opt cs fb).index =
      .ok (.ok { block := (layoutOf opt (indexEntries opt cs)).contents, opt := ropt }) := by
  have hbody := body_length_add opt cs fb
  have hfile := h.file_length
  exact readTableBlock_envelope (layoutOf_contents opt (indexEntries opt cs)).symm h.compress_index
    hf.index_holds (by omega)

/-- The metaindex block is read back. -/
theorem Delivers.read_metaIndex (hf : Delivers opt ropt cs fb fb' bad f) (h : Written opt cs fb)
    (hsize : (fileBytes opt cs fb).length ≤ maxAllocation) :
    readTableBlock ropt f (fileFooter opt cs fb).metaIndex =
      .ok (.ok { block := (layoutOf opt (metaIndexEntries opt cs fb)).contents, opt := ropt }) := by
  have hbody := body_length_add opt cs fb
  have hfile := h.file_length
  exact readTableBlock_envelope (layoutOf_contents opt (metaIndexEntries opt cs fb)).symm
    h.compress_meta hf.meta_holds (by omega)

/-- The filter block is found in the metaindex exactly if the name of the reader's policy does not
lie behind the one it was written under. -/
theorem Delivers.readFilterBlock_eq (hf : Delivers opt ropt cs fb fb' bad f) (h : Written opt cs fb)
    (hs : Sizes opt cs fb) (hcmp : ropt.cmp = DefaultCmp) :
    ∃ reader, Table.readFilterBlock
        { block := (layoutOf opt (metaIndexEntries opt cs fb)).contents, opt := ropt } f ropt =
          .ok (.ok (if TableBuilder.filterKey ropt.filterPolicy.name ≤
            TableBuilder.filterKey opt.filterPolicy.name then some reader else none)) ∧
      FilterBlockReader.new ropt.filterPolicy fb' = .ok reader := by
  obtain ⟨L, hL⟩ : ∃ L, L = layoutOf opt (metaIndexEntries opt cs fb) := ⟨_, rfl⟩
  have hentries : L.entries = metaIndexEntries opt cs fb := by rw [hL, layoutOf_entries]
  have hkeys : L.keys = [TableBuilder.filterKey opt.filterPolicy.name] := by
    rw [← BlockLayout.keysOf_entries, hentries]
    rfl
  have hord : L.Ordered := by
    apply BlockLayout.ordered_of_entries
    · rw [hentries]
      simp [metaIndexEntries, Increasing]
    · rw [hentries]
      intro e he
      rw [metaIndexEntries, List.mem_singleton] at he
      rw [he]
      exact filterKey_ne_nil _
  have hsmall : L.Small := by
    rw [BlockLayout.Small, hL, layoutOf_contents]
    exact hs.meta_lt
  have hlen : 5 ≤ fb'.length := by
    obtain ⟨b, -, hfinish⟩ := bind_eq_ok_iff.mp h.filter_eq
    exact (FilterBlockBuilder.finish_length hfinish).trans_eq hf.filter_length.symm
  obtain ⟨reader, hreader⟩ := FilterBlockReader.new_total ropt.filterPolicy hlen
  rw [← hL]
  obtain ⟨it, hiter, hun⟩ := Block.iter_spec (b := { block := L.contents, opt := ropt }) hsmall hcmp
    rfl
  obtain ⟨it', hseek, hplaced⟩ := BlockIter.seek_spec hun.toOver hord
    (TableBuilder.filterKey ropt.filterPolicy.name)
  have hbody := body_length_add opt cs fb
  have hfile := h.file_length
  have hle := hs.file_le
  have hlimit : maxAllocation < wordLimit := by decide
  have hfront : (frontBytes opt cs fb).length = (dataBytes opt cs).length + fb.length + 5 := by
    simp [frontBytes, Nat.add_assoc]
  have hfits : (filterHandle opt cs fb).Fits := by
    simp only [filterHandle, BlockHandle.Fits]
    omega
  by_cases hreach : TableBuilder.filterKey ropt.filterPolicy.name ≤
      TableBuilder.filterKey opt.filterPolicy.name
  · have hsome : Cursor.lowerBound L.keys (TableBuilder.filterKey ropt.filterPolicy.name) =
        some 0 := by
      simp [hkeys, Cursor.lowerBound, hreach]
    rw [hsome] at hplaced
    obtain ⟨s, hat⟩ := hplaced
    have hslot : s.entry = (TableBuilder.filterKey opt.filterPolicy.name,
        (filterHandle opt cs fb).encode) := by
      have hget := L.entries_getElem? 0
      rw [hat.slot_eq, hentries] at hget
      exact (Option.some.inj hget).symm
    have hcurrent := hat.current (hord.key_ne_nil s (List.mem_of_getElem? hat.slot_eq))
    have hdecode := BlockHandle.decode_encode hfits []
    rw [List.append_nil] at hdecode
    have hread : readBytes f (filterHandle opt cs fb) = .ok (.ok fb') := by
      have hholds := readBytes_holds hf.filter_holds (by rw [hf.filter_length]; omega)
      rwa [hf.filter_length] at hholds
    have hpos : (filterHandle opt cs fb).size > 0 := by
      have hlen_eq := hf.filter_length
      simp only [filterHandle]
      omega
    refine ⟨reader, ?_, hreader⟩
    simp only [Table.readFilterBlock, hiter, hseek, hcurrent, hslot, hdecode, ok_bind,
      if_pos hpos, SSTable.readFilterBlock, if_neg hpos.ne', hread, hreader, pure_eq_ok,
      if_pos hreach]
  · have hnone : Cursor.lowerBound L.keys (TableBuilder.filterKey ropt.filterPolicy.name) =
        none := by
      simp [hkeys, Cursor.lowerBound, hreach]
    rw [hnone] at hplaced
    refine ⟨reader, ?_, hreader⟩
    simp only [Table.readFilterBlock, hiter, hseek, ok_bind,
      BlockIter.Unplaced.current hplaced, pure_eq_ok, if_neg hreach]

/-- Opening a finished table succeeds with every source that delivers it, and the opened table
shows the blocks that are not defective. -/
theorem Delivers.open_spec (hf : Delivers opt ropt cs fb fb' bad f) (h : Written opt cs fb)
    (hs : Sizes opt cs fb) (hcmp : ropt.cmp = DefaultCmp)
    {c : BlockCache} (hc : c.Reachable) (hid : c.id + 1 < wordLimit) :
    ∃ t reader, Table.new ropt f (fileBytes opt cs fb).length c =
        .ok (.ok t, { c with id := c.id + 1 }) ∧
      t.opt = ropt ∧ t.Shows (hs.view bad) ∧
      CacheServes t (hs.view bad) { c with id := c.id + 1 } ∧
      FilterBlockReader.new ropt.filterPolicy fb' = .ok reader ∧
      t.filters = if TableBuilder.filterKey ropt.filterPolicy.name ≤
        TableBuilder.filterKey opt.filterPolicy.name then some reader else none := by
  obtain ⟨reader, hfilter, hreader⟩ := hf.readFilterBlock_eq h hs hcmp
  have hnew : c.newCacheId = .ok (c.id + 1, { c with id := c.id + 1 }) :=
    Cache.newCacheId_eq_ok_iff.mpr ⟨hid, rfl⟩
  obtain ⟨t, ht⟩ : ∃ t : Table, t =
    { file := f
      cacheId := c.id + 1
      opt := ropt
      footer := fileFooter opt cs fb
      indexBlock := { block := (layoutOf opt (indexEntries opt cs)).contents, opt := ropt }
      filters := if TableBuilder.filterKey ropt.filterPolicy.name ≤
        TableBuilder.filterKey opt.filterPolicy.name then some reader else none } := ⟨_, rfl⟩
  refine ⟨t, reader, ?_, by rw [ht], ?_, ?_, hreader, by rw [ht]⟩ <;> subst ht
  · simp only [Table.new, hf.readFooter_eq h hs.file_le, hf.read_index h hs.file_le,
      hf.read_metaIndex h hs.file_le, hfilter,
      hnew, ok_bind, pure_eq_ok]
  · refine ⟨hcmp, rfl, ?_⟩
    intro i hd b hhd hb
    rw [hs.view_handles, Option.map_eq_some_iff] at hhd
    obtain ⟨p, hp, rfl⟩ := hhd
    rw [hs.view_blocks, place_getElem? hp, Option.map_some, Option.some.injEq] at hb
    subst hb
    cases hbad : bad i with
    | true => exact hf.defective i p hp hbad
    | false => exact hf.intact i p hp hbad
  · refine ⟨hc.newCacheId hnew, le_rfl, ?_⟩
    -- Nothing is stored under the keys of an id that was just given out.
    intro i hd block hhd hblock
    have hfound : c.find (Cache.keyOf (c.id + 1) hd.offset) = some block := hblock
    obtain ⟨id, off, hle, heq⟩ := hc.issued.2 (Cache.keyOf (c.id + 1) hd.offset) (by simp [hfound])
    have hsame := Cache.keyOf_id_injective hid (lt_of_le_of_lt hle hc.issued.1) heq
    rw [← hsame] at hle
    exact absurd hle (Nat.not_succ_le_self c.id)

/-- Opening a finished table succeeds with every source that agrees with the file outside its
data blocks, and the opened table shows the blocks that are not defective. -/
theorem Written.open_spec (h : Written opt cs fb) (hs : Sizes opt cs fb)
    (hf : DefectiveData opt ropt cs (fileBytes opt cs fb) bad f) (hcmp : ropt.cmp = DefaultCmp)
    {c : BlockCache} (hc : c.Reachable) (hid : c.id + 1 < wordLimit) :
    ∃ t reader, Table.new ropt f (fileBytes opt cs fb).length c =
        .ok (.ok t, { c with id := c.id + 1 }) ∧
      t.opt = ropt ∧ t.Shows (hs.view bad) ∧
      CacheServes t (hs.view bad) { c with id := c.id + 1 } ∧
      FilterBlockReader.new ropt.filterPolicy fb = .ok reader ∧
      t.filters = if TableBuilder.filterKey ropt.filterPolicy.name ≤
        TableBuilder.filterKey opt.filterPolicy.name then some reader else none :=
  (hf.delivers h hs.file_le).open_spec h hs hcmp hc hid

/-! ## Tables that were written -/

/-- The handles of the data blocks of a table. -/
def dataHandles (opt : Options) (es : List Entry) : List BlockHandle :=
  (place opt 0 (cuts opt es)).map Prod.snd

/-- The blocks of a table are below the size their 32-bit restart offsets can address. -/
structure BlockLimits (opt : Options) (es : List Entry) : Prop where
  data_lt : ∀ c ∈ cuts opt es, (c.contents opt).length < 2 ^ 32
  index_lt : (indexContents opt (cuts opt es)).length < 2 ^ 32
  meta_lt : ∀ fb, filterBytes opt (cuts opt es) = .ok fb →
    (metaIndexContents opt (cuts opt es) fb).length < 2 ^ 32

theorem Sizes.view_entries (hs : Sizes opt cs fb) (bad : Nat → Bool) :
    (hs.view bad).entries = readable bad cs := by
  rw [TableView.entries, readable]
  congr 1
  apply List.ext_getElem?
  intro i
  rw [List.getElem?_map, hs.view_blocks, List.getElem?_mapIdx, Option.map_map]
  congr 1
  funext c
  cases bad i <;> simp [blockEntries]

theorem Sizes.view_readable {opt : Options} {cs : List Cut} {fb : Bytes} (hs : Sizes opt cs fb) :
    ∀ b ∈ (hs.view fun _ => false).blocks, ∃ L, b = some L := by
  intro b hb
  obtain ⟨i, -, rfl⟩ := List.mem_mapIdx.mp hb
  exact ⟨_, rfl⟩

/-- The blocks of a sorted table are ordered. -/
theorem Sizes.view_ordered {es : List Entry} (hs : Sizes opt (cuts opt es) fb) (bad : Nat → Bool)
    (hinc : Increasing es) (hkeys : NonEmptyKeys es) : (hs.view bad).Ordered where
  index := by
    obtain ⟨hindex, hne⟩ := indexEntries_increasing opt hinc hkeys
    apply BlockLayout.ordered_of_entries
    · rwa [view, layoutOf_entries]
    · rwa [view, layoutOf_entries]
  block := by
    intro L hL
    obtain ⟨i, hi, heq⟩ := List.mem_mapIdx.mp hL
    split at heq
    · cases heq
    · rw [Option.some.injEq] at heq
      have hmem := List.getElem_mem hi
      apply BlockLayout.ordered_of_entries
      · rw [← heq, layoutOf_entries]
        exact cut_increasing hinc hmem
      · rw [← heq, layoutOf_entries]
        exact cut_nonEmptyKeys hkeys hmem

/-- A table that was written is opened. -/
theorem open_written {es : List Entry} {n : Nat} (hcmp : opt.cmp = DefaultCmp)
    (hrcmp : ropt.cmp = DefaultCmp) (hlimits : BlockLimits opt es)
    (hwrite : TableBuilder.writeTable opt [] es = .ok (.ok n, img))
    (hsize : img.length ≤ maxAllocation) (hf : DefectiveData opt ropt (cuts opt es) img bad f)
    {c : BlockCache} (hc : c.Reachable) (hid : c.id + 1 < wordLimit) :
    ∃ (fb : Bytes) (hs : Sizes opt (cuts opt es) fb) (t : Table) (reader : FilterBlockReader),
      Written opt (cuts opt es) fb ∧
      Table.new ropt f n c = .ok (.ok t, { c with id := c.id + 1 }) ∧
      t.opt = ropt ∧ t.Shows (hs.view bad) ∧
      CacheServes t (hs.view bad) { c with id := c.id + 1 } ∧
      FilterBlockReader.new ropt.filterPolicy fb = .ok reader ∧
      t.filters = if TableBuilder.filterKey ropt.filterPolicy.name ≤
        TableBuilder.filterKey opt.filterPolicy.name then some reader else none := by
  have hlimit : maxAllocation < wordLimit := by decide
  obtain ⟨fb, hw, rfl, rfl⟩ := TableBuilder.writeTable_written hcmp hwrite (by omega)
  have hs : Sizes opt (cuts opt es) fb :=
    ⟨hlimits.data_lt, hlimits.index_lt, hlimits.meta_lt fb hw.filter_eq, hsize⟩
  obtain ⟨t, reader, hnew, hspec⟩ := hw.open_spec hs hf hrcmp hc hid
  exact ⟨fb, hs, t, reader, hw, hnew, hspec⟩

end SSTable
