import SSTable.Verification.Block.Uniqueness
import SSTable.Verification.Table.Places

/-!
# The layout of a finished table

The bytes of a table determine its data blocks, their separators and their handles.  Behind the data
blocks follow the filter block, the metaindex block and the index block without gaps, and the footer
ends the file.  The data blocks are runs of entries, none of them empty unless the block size is
below that of an empty block.

Main results:

- Theorem {lit}`LaidOut.unique`: the bytes of a table have one layout.
- Theorem {lit}`writeTable_laidOut`: a finished table has the layout of its plan.
- Theorem {lit}`runs_iff`: when the data blocks are non-empty runs with a separator behind each.
-/

namespace SSTable

open Foundation Foundation.Exec Foundation.Bytes

/-- The handles lie one behind the other, each block with its type and its checksum. -/
def Contiguous : Nat → List BlockHandle → Nat → Prop
  | start, [], stop => start = stop
  | start, h :: hs, stop => h.offset = start ∧ Contiguous (start + h.size + 5) hs stop

theorem contiguous_append {start mid stop : Nat} {hs ks : List BlockHandle}
    (hfirst : Contiguous start hs mid) (hsecond : Contiguous mid ks stop) :
    Contiguous start (hs ++ ks) stop := by
  induction hs generalizing start with
  | nil =>
      rw [Contiguous] at hfirst
      rwa [hfirst]
  | cons h hs ih => exact ⟨hfirst.1, ih hfirst.2⟩

/-- The data blocks are runs of entries, and the index separates each from the next. -/
structure Runs (blocks : List Laid) : Prop where
  nonempty : ∀ w ∈ blocks, w.entries ≠ []
  increasing : (blocks.map Laid.sep).Pairwise (· < ·)
  last_lt : ∀ w ∈ blocks, lastKeyOf w.entries < w.sep
  le_first : ∀ {i : Nat} {w v : Laid} {e : Entry}, blocks[i]? = some w → blocks[i + 1]? = some v →
    v.entries.head? = some e → w.sep ≤ e.1

section

variable [Crates] {opt : Options} {es : List Entry} {n : Nat} {img : Bytes}

/-- The layout of a table that holds the entries and was reported to have the length. -/
structure LaidOut (opt : Options) (es : List Entry) (n : Nat) (img : Bytes) (blocks : List Laid)
    (filters : Bytes) (filterHandle : BlockHandle) (footer : Footer) : Prop where
  entries : entriesLaid blocks = es
  data : ∀ w ∈ blocks,
    LiesAt img opt.compressionType (BlockBuilder.pushAll opt w.entries).finish w.handle
  filter : LiesAt img .CompressionNone filters filterHandle
  metaIndex : LiesAt img opt.compressionType (BlockBuilder.pushAll opt
    [(TableBuilder.filterKey opt.filterPolicy.name, filterHandle.encode)]).finish footer.metaIndex
  index : LiesAt img opt.compressionType (BlockBuilder.pushAll opt (blocks.map Laid.entry)).finish
    footer.index
  contiguous : Contiguous 0
    (blocks.map Laid.handle ++ [filterHandle, footer.metaIndex, footer.index]) (n - fullFooterLength)
  ends : ∃ front footerBytes, img = front ++ footerBytes ∧
    footer.encode (List.replicate fullFooterLength 0) = .ok footerBytes ∧
    front.length + fullFooterLength = n ∧ img.length = n

/-! ## One layout -/

theorem compressBlock_injective {ctype : CompressionType} {a b data : Bytes}
    (ha : compressBlock ctype a = .ok data) (hb : compressBlock ctype b = .ok data) : a = b := by
  cases ctype with
  | CompressionNone =>
      rw [compressBlock_none, Except.ok.injEq] at ha hb
      rw [ha, hb]
  | CompressionSnappy =>
      have hda : decompressVec data = .ok a := Crates.decompressVec_compressVec _ _ ha
      have hdb : decompressVec data = .ok b := Crates.decompressVec_compressVec _ _ hb
      exact Except.ok.inj (hda.symm.trans hdb)

/-- One block lies at a handle. -/
theorem LiesAt.unique {ctype : CompressionType} {a b : Bytes} {h : BlockHandle}
    (ha : LiesAt img ctype a h) (hb : LiesAt img ctype b h) : a = b := by
  obtain ⟨data, x, y, hdata, rfl, rfl⟩ := ha
  obtain ⟨other, x', y', hother, himg, hh⟩ := hb
  rw [BlockHandle.mk.injEq] at hh
  obtain ⟨-, hstored⟩ := List.append_inj himg hh.1
  have hlen : (envelope ctype data).length = (envelope ctype other).length := by
    rw [envelope_length, envelope_length, hh.2]
  obtain ⟨henvelope, -⟩ := List.append_inj hstored hlen
  obtain ⟨rfl, -⟩ := List.append_inj henvelope hh.2
  exact compressBlock_injective hdata hother

/-- A block lies within the file. -/
theorem LiesAt.fits {ctype : CompressionType} {a : Bytes} {h : BlockHandle}
    (ha : LiesAt img ctype a h) (hsize : img.length < wordLimit) : h.Fits := by
  obtain ⟨data, x, y, -, rfl, rfl⟩ := ha
  simp only [List.length_append, envelope_length] at hsize
  exact ⟨by simp only; omega, by simp only; omega⟩

/-- The footer is determined by the file. -/
theorem LaidOut.footer_unique {blocks blocks' : List Laid} {filters filters' : Bytes}
    {filterHandle filterHandle' : BlockHandle} {footer footer' : Footer} {es' : List Entry}
    {n' : Nat} (h : LaidOut opt es n img blocks filters filterHandle footer)
    (h' : LaidOut opt es' n' img blocks' filters' filterHandle' footer')
    (hsize : img.length < wordLimit) : footer = footer' := by
  obtain ⟨front, bytes, hsplit, hencode, hn, hlen⟩ := h.ends
  obtain ⟨front', bytes', hsplit', hencode', hn', hlen'⟩ := h'.ends
  have hmeta := h.metaIndex.fits hsize
  have hindex := h.index.fits hsize
  have hmeta' := h'.metaIndex.fits hsize
  have hindex' := h'.index.fits hsize
  rw [Footer.encode_eq (Footer.short_of_fits hmeta hindex), Except.ok.injEq] at hencode
  rw [Footer.encode_eq (Footer.short_of_fits hmeta' hindex'), Except.ok.injEq] at hencode'
  rw [hsplit] at hsplit'
  obtain ⟨-, rfl⟩ := List.append_inj hsplit' (by omega)
  have hdecode := Footer.decode_bytes (Footer.short_of_fits hmeta hindex) hmeta hindex
  rw [hencode, ← hencode', Footer.decode_bytes (Footer.short_of_fits hmeta' hindex') hmeta' hindex',
    Except.ok.injEq] at hdecode
  exact hdecode.symm

/-- The bytes of a table have one layout. -/
theorem LaidOut.unique {blocks blocks' : List Laid} {filters filters' : Bytes}
    {filterHandle filterHandle' : BlockHandle} {footer footer' : Footer} {es' : List Entry}
    {n' : Nat} (h : LaidOut opt es n img blocks filters filterHandle footer)
    (h' : LaidOut opt es' n' img blocks' filters' filterHandle' footer')
    (hsize : img.length < wordLimit)
    (hindex : (BlockBuilder.pushAll opt (blocks.map Laid.entry)).finish.length < 2 ^ 32)
    (hdata : ∀ w ∈ blocks, (BlockBuilder.pushAll opt w.entries).finish.length < 2 ^ 32) :
    blocks = blocks' := by
  obtain rfl := h.footer_unique h' hsize
  have hentries := BlockBuilder.finish_injective hindex (h.index.unique h'.index)
  have hlength : blocks.length = blocks'.length := by
    simpa using congrArg List.length hentries
  apply List.ext_getElem hlength
  intro i hi hi'
  have hw := h.data _ (List.getElem_mem hi)
  have hw' := h'.data _ (List.getElem_mem hi')
  have hentry : blocks[i].entry = blocks'[i].entry := by
    have hget := congrArg (·[i]?) hentries
    simpa [hi, hi'] using hget
  obtain ⟨hsep, hencode⟩ := Prod.mk.inj hentry
  have hhandle := BlockHandle.encode_injective (hw.fits hsize) (hw'.fits hsize) hencode
  rw [← hhandle] at hw'
  have hrun := BlockBuilder.finish_injective (hdata _ (List.getElem_mem hi)) (hw.unique hw')
  rcases hb : blocks[i] with ⟨_, _, _⟩
  rcases hb' : blocks'[i] with ⟨_, _, _⟩
  rw [hb, hb'] at hsep hhandle hrun
  simp only at hsep hhandle hrun
  rw [hsep, hhandle, hrun]

/-! ## The layout of a plan -/

/-- The data blocks of a plan. -/
def laid (opt : Options) (cs : List Cut) : List Laid :=
  (place opt 0 cs).map fun p => { entries := p.1.entries, sep := p.1.sep, handle := p.2 }

theorem laid_map_entry (opt : Options) (cs : List Cut) :
    (laid opt cs).map Laid.entry = indexEntries opt cs := by
  rw [laid, List.map_map]
  rfl

theorem laid_map_entries (opt : Options) (cs : List Cut) :
    (laid opt cs).map Laid.entries = cs.map Cut.entries := by
  have hmap := congrArg (List.map Cut.entries) (place_map_fst opt 0 cs)
  rw [List.map_map] at hmap
  rw [laid, List.map_map, ← hmap]
  rfl

theorem laid_map_sep (opt : Options) (cs : List Cut) :
    (laid opt cs).map Laid.sep = cs.map Cut.sep := by
  have hmap := congrArg (List.map Cut.sep) (place_map_fst opt 0 cs)
  rw [List.map_map] at hmap
  rw [laid, List.map_map, ← hmap]
  rfl

theorem laid_getElem? {cs : List Cut} {i : Nat} {w : Laid} (h : (laid opt cs)[i]? = some w) :
    ∃ c, cs[i]? = some c ∧ w.entries = c.entries ∧ w.sep = c.sep := by
  rw [laid, List.getElem?_map, Option.map_eq_some_iff] at h
  obtain ⟨p, hp, rfl⟩ := h
  exact ⟨p.1, place_getElem? hp, rfl, rfl⟩

theorem mem_laid {cs : List Cut} {w : Laid} (h : w ∈ laid opt cs) :
    ∃ c ∈ cs, w.entries = c.entries ∧ w.sep = c.sep := by
  obtain ⟨i, hi⟩ := List.mem_iff_getElem?.mp h
  obtain ⟨c, hc, heq⟩ := laid_getElem? hi
  exact ⟨c, List.mem_of_getElem? hc, heq⟩

/-- The data blocks of a plan lie one behind the other. -/
theorem place_contiguous (opt : Options) (off : Nat) (cs : List Cut) :
    Contiguous off ((place opt off cs).map Prod.snd) (off + (dataBytes opt cs).length) := by
  induction cs generalizing off with
  | nil => rfl
  | cons c cs ih =>
      have hstop : off + (dataBytes opt (c :: cs)).length =
          off + (stored opt.compressionType (c.contents opt)).length + 5 +
            (dataBytes opt cs).length := by
        rw [dataBytes_cons, List.length_append, envelope_length]
        omega
      rw [hstop]
      exact ⟨rfl, ih _⟩

/-- A stored block lies at its handle. -/
theorem liesAt_of_split {ctype : CompressionType} {block x y : Bytes} {h : BlockHandle}
    (hcompress : compressBlock ctype block = .ok (stored ctype block))
    (hsplit : img = x ++ (envelope ctype (stored ctype block) ++ y)) (hoff : h.offset = x.length)
    (hsize : h.size = (stored ctype block).length) : LiesAt img ctype block h := by
  refine ⟨_, x, y, hcompress, hsplit, ?_⟩
  rw [← hoff, ← hsize]

/-- A finished table has the layout of its plan. -/
theorem Written.laidOut {cs : List Cut} {fb : Bytes} (hw : Written opt cs fb) :
    LaidOut opt (entriesOf cs) (fileBytes opt cs fb).length (fileBytes opt cs fb) (laid opt cs) fb
      (filterHandle opt cs fb) (fileFooter opt cs fb) where
  entries := by rw [entriesLaid, laid_map_entries, entriesOf]
  data := by
    intro w hmem
    obtain ⟨i, hi, rfl⟩ := List.getElem_of_mem hmem
    rw [laid, List.length_map] at hi
    have hp := List.getElem?_eq_getElem hi
    obtain ⟨x, y, hsplit, hx, hsize⟩ := mem_place [] (List.getElem_mem hi)
    rw [List.nil_append] at hsplit
    have hcompress := (hw.admitted i _ (place_getElem? hp)).1.compress_eq
    simp only [laid, List.getElem_map]
    apply LiesAt.append
    rw [bodyBytes, frontBytes, hsplit]
    exact ((liesAt_of_split hcompress rfl hx.symm hsize).append _).append _
  filter := liesAt_of_split rfl (fileBytes_split opt cs fb) rfl rfl
  metaIndex := by
    refine liesAt_of_split (x := frontBytes opt cs fb) (y := ?_) hw.compress_meta ?_ rfl rfl
    · exact envelope opt.compressionType (stored opt.compressionType (indexContents opt cs)) ++
        (fileFooter opt cs fb).bytes
    · simp only [fileBytes, bodyBytes, List.append_assoc]
      rfl
  index := by
    rw [laid_map_entry]
    refine liesAt_of_split (x := frontBytes opt cs fb ++ envelope opt.compressionType
      (stored opt.compressionType (metaIndexContents opt cs fb)))
      (y := (fileFooter opt cs fb).bytes) hw.compress_index ?_ ?_ rfl
    · simp only [fileBytes, bodyBytes, List.append_assoc]
      rfl
    · simp only [fileFooter, List.length_append, envelope_length]
      omega
  contiguous := by
    have hdata := place_contiguous opt 0 cs
    rw [Nat.zero_add] at hdata
    have hhandles : (laid opt cs).map Laid.handle = (place opt 0 cs).map Prod.snd := by
      rw [laid, List.map_map]
      rfl
    have hfront : (frontBytes opt cs fb).length = (dataBytes opt cs).length + fb.length + 5 := by
      rw [frontBytes, List.length_append, envelope_length]
      rfl
    rw [hhandles, hw.file_length, Nat.add_sub_cancel, body_length_add]
    apply contiguous_append hdata
    refine ⟨rfl, hfront, ?_, ?_⟩
    · simp only [fileFooter, filterHandle, hfront]
    · simp only [Contiguous, fileFooter, filterHandle, hfront]
  ends := by
    refine ⟨bodyBytes opt cs fb, _, rfl, Footer.encode_eq hw.short, hw.file_length.symm, rfl⟩

/-! ## Runs of entries -/

/-- Without room for an entry in a block, the first block is empty. -/
theorem draft_first_nil (hsize : opt.blockSize < 8) (hne : es ≠ []) :
    ∃ c cs, (draft opt es).done = c :: cs ∧ c.entries = [] := by
  induction es using List.reverseRecOn with
  | nil => exact absurd rfl hne
  | append_singleton es e ih =>
      rw [draft_concat, Draft.add]
      by_cases hnil : es = []
      · -- The first entry finds the empty block full.
        have hempty : (BlockBuilder.new opt).sizeEstimate = 8 := rfl
        have hfull : Draft.full opt (draft opt es).current = true := by
          rw [hnil, draft_nil, Draft.full, Draft.empty, BlockBuilder.pushAll_nil, hempty,
            decide_eq_true_eq]
          exact hsize
        rw [if_pos hfull, hnil]
        exact ⟨_, [], rfl, rfl⟩
      · obtain ⟨c, cs, hdone, hc⟩ := ih hnil
        split
        · exact ⟨c, _, by rw [hdone, List.cons_append], hc⟩
        · exact ⟨c, cs, hdone, hc⟩

/-- The data blocks of a plan are runs of entries exactly if an entry fits in a block. -/
theorem runs_laid_iff (hinc : Increasing es) :
    Runs (laid opt (cuts opt es)) ↔ es = [] ∨ 8 ≤ opt.blockSize := by
  constructor
  · intro hruns
    by_contra hnot
    rw [not_or, not_le] at hnot
    obtain ⟨c, cs, hdone, hc⟩ := draft_first_nil hnot.2 hnot.1
    have hmem : c ∈ cuts opt es := by
      rw [cuts, Draft.close]
      split <;> simp [hdone]
    have hentries : c.entries ∈ (laid opt (cuts opt es)).map Laid.entries := by
      rw [laid_map_entries]
      exact List.mem_map_of_mem hmem
    obtain ⟨w, hw, heq⟩ := List.mem_map.mp hentries
    exact hruns.nonempty w hw (heq.trans hc)
  · intro h
    have hne : ∀ c ∈ cuts opt es, c.entries ≠ [] := by
      intro c hc
      rcases h with rfl | hsize
      · simp [cuts, Draft.close, Draft.empty] at hc
      · exact cut_ne_nil hsize hc
    have hlast : ∀ c ∈ cuts opt es, lastKeyOf c.entries < c.nextKey := by
      intro c hc
      exact (increasing_iff_boundaries fun d hd => cut_increasing hinc hd).mp hinc c hc (hne c hc)
    constructor
    · intro w hw
      obtain ⟨c, hc, hentries, -⟩ := mem_laid hw
      rw [hentries]
      exact hne c hc
    · rw [laid_map_sep]
      exact seps_pairwise_of_lt hinc hlast
    · intro w hw
      obtain ⟨c, hc, hentries, hsep⟩ := mem_laid hw
      rw [hentries, hsep]
      exact (Cut.sep_spec (hlast c hc)).2.1
    · intro i w v e hw hv he
      obtain ⟨c, hc, -, hsep⟩ := laid_getElem? hw
      obtain ⟨d, hd, hentries, -⟩ := laid_getElem? hv
      have hnext := cuts_chained opt es i c d hc hd
      rw [← hentries, he, Option.map_some, Option.some.injEq] at hnext
      rw [hsep, hnext]
      rcases (Cut.sep_spec (hlast c (List.mem_of_getElem? hc))).2.2 with hbelow | ⟨heq, -⟩
      · exact hbelow.le
      · exact heq.le

/-- The layout of a finished table is that of its plan. -/
theorem exists_layout_iff (hcmp : opt.cmp = DefaultCmp)
    (hdata : ∀ c ∈ cuts opt es, (c.contents opt).length < 2 ^ 32)
    (hindex : (indexContents opt (cuts opt es)).length < 2 ^ 32)
    (hwrite : TableBuilder.writeTable opt [] es = .ok (.ok n, img)) (hsize : img.length < wordLimit)
    {P : List Laid → Prop} :
    (∃ blocks filters filterHandle footer,
      LaidOut opt es n img blocks filters filterHandle footer ∧ P blocks) ↔
      P (laid opt (cuts opt es)) := by
  obtain ⟨fb, hw, rfl, rfl⟩ := TableBuilder.writeTable_written hcmp hwrite hsize
  have hlaid := hw.laidOut
  rw [flatten_cuts] at hlaid
  constructor
  · rintro ⟨blocks, filters, filterHandle, footer, hother, hP⟩
    have heq : laid opt (cuts opt es) = blocks := by
      apply hlaid.unique hother hsize
      · rw [laid_map_entry]
        exact hindex
      · intro w hw
        obtain ⟨c, hc, hentries, -⟩ := mem_laid hw
        rw [hentries]
        exact hdata c hc
    rwa [heq]
  · intro hP
    exact ⟨_, _, _, _, hlaid, hP⟩

end

/-- A finished table holds the entries in blocks that lie one behind the other, followed by the
filter block, the metaindex block, the index block and the footer; the data blocks are non-empty
runs of the entries, with a separator behind each, exactly if an entry fits in a block or there is
none. -/
theorem runs_iff [Crates] (opt : Options) (es : List Entry) (n : Nat) (img : Bytes)
    (hcmp : opt.cmp = DefaultCmp) (hinc : Increasing es) (hlimits : BlockLimits opt es)
    (hwrite : TableBuilder.writeTable opt [] es = .ok (.ok n, img)) (hsize : img.length < 2 ^ 40) :
    (∃ blocks filters filterHandle footer,
      LaidOut opt es n img blocks filters filterHandle footer ∧ Runs blocks) ↔
      es = [] ∨ 8 ≤ opt.blockSize := by
  have hlimit : 2 ^ 40 < wordLimit := by decide
  rw [exists_layout_iff hcmp hlimits.data_lt hlimits.index_lt hwrite (by omega)]
  exact runs_laid_iff hinc

/-- The table of three keys. -/
theorem runs_iff_neighbours : letI := referenceCrates
    (∃ blocks filters filterHandle footer,
      LaidOut tinyBlocks neighbours 211 neighboursImage blocks filters filterHandle footer ∧
        Runs blocks) ↔ neighbours = [] ∨ 8 ≤ tinyBlocks.blockSize :=
  letI := referenceCrates
  runs_iff tinyBlocks neighbours 211 neighboursImage rfl (by decide) neighbours_blockLimits
    neighboursImage_eq (neighboursImage_length.trans_lt (by decide))

/-- Options that let no entry into a block. -/
def noRoom : Options := { Options.default with blockSize := 0 }

/-- The file that holds one entry behind an empty block. -/
def noRoomImage : Bytes :=
  letI := referenceCrates
  match TableBuilder.writeTable noRoom ([] : Bytes) [([97], [1])] with
  | .ok (_, img) => img
  | .error _ => []

set_option maxRecDepth 10000 in
/-- What there is to compute about the file. -/
theorem noRoom_facts : letI := referenceCrates
    TableBuilder.writeTable noRoom ([] : Bytes) [([97], [1])] =
        .ok (.ok noRoomImage.length, noRoomImage) ∧
      noRoomImage.length < wordLimit ∧
      (∀ c ∈ cuts noRoom [([97], [1])], (c.contents noRoom).length < 2 ^ 32) ∧
      (indexContents noRoom (cuts noRoom [([97], [1])])).length < 2 ^ 32 := by
  decide +kernel

/-- With a block size below that of an empty block, the first data block is empty. -/
theorem empty_run : letI := referenceCrates
    TableBuilder.writeTable noRoom ([] : Bytes) [([97], [1])] =
        .ok (.ok noRoomImage.length, noRoomImage) ∧
      ¬ ∃ blocks filters filterHandle footer,
        LaidOut noRoom [([97], [1])] noRoomImage.length noRoomImage blocks filters filterHandle
          footer ∧ Runs blocks := by
  let := referenceCrates
  obtain ⟨hwrite, hsize, hdata, hindex⟩ := noRoom_facts
  refine ⟨hwrite, ?_⟩
  rw [exists_layout_iff rfl hdata hindex hwrite hsize, runs_laid_iff (by decide)]
  decide

end SSTable
