import SSTable.Verification.Table.Building

/-!
# Finishing a table

A builder that represents a draft writes the rest of the image when it is finished: the pending
data block, the filter block, the metaindex block, the index block and the footer.

Main results:

- Theorem {lit}`finish_iff`: when a table is finished, and the bytes it has then.
- Theorem {lit}`writeTable_iff`: the same for a whole table.
- Theorem {lit}`writeTable_image`: a finished table of the format's size is the image of its plan.
-/

namespace SSTable

open Foundation Foundation.Exec Foundation.Bytes

/-! ## The policy of a filter block -/

namespace FilterBlockBuilder

theorem generateFilter_policy {b b' : FilterBlockBuilder} (h : b.generateFilter = .ok b') :
    b'.policy = b.policy := by
  simp only [generateFilter] at h
  split at h
  · rw [pure_eq_ok, Except.ok.injEq] at h
    rw [← h]
  · simp only [bind_eq_ok_iff, pure_eq_ok, Except.ok.injEq] at h
    obtain ⟨f, -, rfl⟩ := h
    rfl

theorem startBlock_policy {b b' : FilterBlockBuilder} {offset : Nat}
    (h : b.startBlock offset = .ok b') : b'.policy = b.policy := by
  simp only [startBlock, bind_eq_ok_iff] at h
  obtain ⟨ix, -, -, -, hloop⟩ := h
  refine (whileLoop_invariant (fun s => s.policy = b.policy) ?_ rfl hloop).1
  intro s s' hs _ hgenerate
  rw [generateFilter_policy hgenerate, hs]

theorem addKeys_policy (b : FilterBlockBuilder) (keys : List Bytes) :
    (b.addKeys keys).policy = b.policy := by
  induction keys using List.reverseRecOn with
  | nil => rfl
  | append_singleton keys key ih =>
      rw [addKeys_concat]
      exact ih

/-- Feeding blocks keeps the policy. -/
theorem feed_policy {b b' : FilterBlockBuilder} {blocks : List (List Bytes × Nat)}
    (h : b.feed blocks = .ok b') : b'.policy = b.policy := by
  induction blocks generalizing b with
  | nil =>
      rw [feed, pure_eq_ok, Except.ok.injEq] at h
      rw [h]
  | cons block rest ih =>
      obtain ⟨keys, offset⟩ := block
      simp only [feed, bind_eq_ok_iff] at h
      obtain ⟨b₁, hstart, hrest⟩ := h
      rw [ih hrest, startBlock_policy hstart, addKeys_policy]

end FilterBlockBuilder

/-- The draft whose pending block is complete. -/
def Draft.closed (d : Draft) : Draft :=
  if d.current = [] then d else d.flush (DefaultCmp.findShortSucc (lastKeyOf d.current))

@[simp] theorem Draft.closed_done (d : Draft) : d.closed.done = d.close := by
  unfold closed close
  split <;> rfl

@[simp] theorem Draft.closed_current (d : Draft) : d.closed.current = [] := by
  unfold closed
  split
  · assumption
  · rfl

variable [Crates]

namespace TableBuilder

variable {opt : Options} {d : Draft} {b b' : TableBuilder Bytes} {n : Nat} {img : Bytes}

/-- What has to hold for the pending block to be written. -/
def FlushesPending (opt : Options) (d : Draft) : Prop :=
  d.current ≠ [] → Flushes opt d.done
    { entries := d.current, nextKey := DefaultCmp.findShortSucc (lastKeyOf d.current) }

/-- The pending block is written exactly if it can be. -/
theorem flushPending_iff (hcmp : opt.cmp = DefaultCmp) (h : Represents opt d b) :
    b.flushPending = .ok (.ok (), b') ↔ FlushesPending opt d ∧ Represents opt d.closed b' := by
  obtain ⟨fb, hfb, rfl⟩ := h
  have hrep : Represents opt d (ofDraft opt d fb) := ⟨fb, hfb, rfl⟩
  have hdata : (ofDraft opt d fb).dataBlock = some (BlockBuilder.pushAll opt d.current) := rfl
  have hopt : (ofDraft opt d fb).opt = opt := rfl
  simp only [flushPending, hdata, unwrap_some, ok_bind, BlockBuilder.pushAll_entries, hopt, hcmp,
    defaultCmp_findShortSucc, BlockBuilder.pushAll_lastKey]
  by_cases hnil : d.current = []
  · have hclosed : d.closed = d := if_pos hnil
    rw [if_neg (by simp [hnil]), hclosed, pure_eq_ok, Except.ok.injEq, Prod.mk.injEq]
    constructor
    · rintro ⟨-, rfl⟩
      exact ⟨fun hne => absurd hnil hne, hrep⟩
    · rintro ⟨-, fb', hfb', rfl⟩
      rw [hfb, Except.ok.injEq] at hfb'
      rw [hfb']
      exact ⟨rfl, rfl⟩
  · have hclosed : d.closed = d.flush (DefaultCmp.findShortSucc (lastKeyOf d.current)) :=
      if_neg hnil
    rw [if_pos (List.length_pos_iff.mpr hnil), hclosed, writeDataBlock_iff hcmp hrep]
    simp only [FlushesPending, ne_eq, hnil, not_false_eq_true, true_implies]

/-- What has to hold for the rest of a table to be written behind its data blocks. -/
structure Finishes (opt : Options) (cs : List Cut) (fb : Bytes) : Prop where
  filter_eq : filterBytes opt cs = .ok fb
  handle_le : (filterHandle opt cs fb).encode.length ≤ 16
  compress_meta : compressBlock opt.compressionType (metaIndexContents opt cs fb) =
    .ok (stored opt.compressionType (metaIndexContents opt cs fb))
  compress_index : compressBlock opt.compressionType (indexContents opt cs) =
    .ok (stored opt.compressionType (indexContents opt cs))

/-- The filter block and its metaindex entry. -/
theorem metaIndex_add (hcmp : opt.cmp = DefaultCmp) (cs : List Cut) (fb : Bytes)
    {ib : BlockBuilder} :
    (BlockBuilder.new opt).add (filterKey opt.filterPolicy.name)
        (filterHandle opt cs fb).encode = .ok ib ↔
      ib = BlockBuilder.pushAll opt (metaIndexEntries opt cs fb) := by
  rw [← BlockBuilder.pushAll_nil, BlockBuilder.add_pushAll_iff hcmp]
  constructor
  · exact fun h => h.2.2
  · exact fun h => ⟨Nat.zero_le _, Or.inl rfl, h⟩

/-- The builder that has written the filter block behind the data blocks. -/
def ofFront (opt : Options) (cs : List Cut) (fs : FilterBlockBuilder) (fb : Bytes) :
    TableBuilder Bytes :=
  { ofDraft opt { done := cs, current := [] } fs with
    dst := frontBytes opt cs fb
    offset := (frontBytes opt cs fb).length
    filterBlock := none }

/-- The filter block is written exactly if it can be. -/
theorem writeFilterBlock_iff (hcmp : opt.cmp = DefaultCmp) {cs : List Cut}
    {fs : FilterBlockBuilder} (hfs : filtersOf opt cs = .ok fs) {ib : BlockBuilder} :
    (ofDraft opt { done := cs, current := [] } fs).writeFilterBlock (BlockBuilder.new opt) =
        .ok (.ok ib, b') ↔
      ∃ fb, filterBytes opt cs = .ok fb ∧ (filterHandle opt cs fb).encode.length ≤ 16 ∧
        ib = BlockBuilder.pushAll opt (metaIndexEntries opt cs fb) ∧
        b' = ofFront opt cs fs fb := by
  have hpolicy : fs.filterName = opt.filterPolicy.name := by
    rw [FilterBlockBuilder.filterName, FilterBlockBuilder.feed_policy hfs]
    rfl
  have hbytes : filterBytes opt cs = fs.finish := by
    rw [filterBytes, ← filtersOf, hfs, ok_bind]
  have hfront : ∀ fb, { ofDraft opt { done := cs, current := [] } fs with
      dst := dataBytes opt cs ++ envelope .CompressionNone fb
      offset := (dataBytes opt cs).length + fb.length + 5
      filterBlock := none } = ofFront opt cs fs fb := by
    intro fb
    simp [ofFront, frontBytes, Nat.add_assoc]
  rw [hbytes]
  constructor
  · intro hrun
    simp only [writeFilterBlock, ofDraft, keysOf_nil, FilterBlockBuilder.addKeys_nil,
      bind_eq_ok_iff, writeBlock_eq, compressBlock_none, appended, hpolicy,
      BlockHandle.encodeTo_eq_ok_iff, List.length_replicate, pure_eq_ok, Except.ok.injEq,
      Prod.mk.injEq, Prod.exists] at hrun
    obtain ⟨fb, hfb, _, _, ⟨hle, rfl, rfl⟩, ib', hib, rfl, rfl⟩ := hrun
    rw [List.take_left] at hib
    exact ⟨fb, hfb, hle, (metaIndex_add hcmp cs fb).mp hib, hfront fb⟩
  · rintro ⟨fb, hfb, hle, rfl, rfl⟩
    obtain ⟨buf, hencode, hbuf⟩ := encodeTo_take hle
    have hadd := (metaIndex_add hcmp cs fb).mpr rfl
    rw [filterHandle] at hencode hbuf hadd
    simp only [writeFilterBlock, ofDraft, keysOf_nil, FilterBlockBuilder.addKeys_nil, hfb, ok_bind,
      writeBlock_eq, compressBlock_none, appended, hpolicy, hencode, hbuf, hadd, pure_eq_ok,
      ← hfront]

/-- The footer is written exactly if it can be encoded. -/
theorem writeFooter_iff {footer : Footer} :
    b.writeFooter footer = .ok (.ok n, img) ↔
      ∃ buf, footer.encode (List.replicate fullFooterLength 0) = .ok buf ∧
        img = b.dst ++ buf ∧ n = b.offset + buf.length := by
  simp only [writeFooter, write_bytes, flush_bytes, bind_eq_ok_iff, pure_eq_ok, Except.ok.injEq,
    Prod.mk.injEq]
  constructor
  · rintro ⟨buf, hbuf, rfl, rfl⟩
    exact ⟨buf, hbuf, rfl, rfl⟩
  · rintro ⟨buf, hbuf, rfl, rfl⟩
    exact ⟨buf, hbuf, rfl, rfl⟩

/-- A table is finished exactly if its pending block and its other blocks can be written, and
the footer is behind them then. -/
theorem finish_iff (hcmp : opt.cmp = DefaultCmp) (h : Represents opt d b) :
    b.finish = .ok (.ok n, img) ↔ FlushesPending opt d ∧ ∃ fb, Finishes opt d.close fb ∧
      ∃ buf, (fileFooter opt d.close fb).encode (List.replicate fullFooterLength 0) = .ok buf ∧
        img = bodyBytes opt d.close fb ++ buf ∧
        n = (bodyBytes opt d.close fb).length + buf.length := by
  have hsome : b.dataBlock.isSome = true := by
    obtain ⟨fb, -, rfl⟩ := h
    rfl
  have hopt : b.opt = opt := by
    obtain ⟨fb, -, rfl⟩ := h
    rfl
  have hclosed : d.closed = { done := d.close, current := [] } := by
    rw [← Draft.closed_done, ← Draft.closed_current d]
  have hbody : ∀ fb, (bodyBytes opt d.close fb).length = (frontBytes opt d.close fb).length +
      (stored opt.compressionType (metaIndexContents opt d.close fb)).length + 5 +
      (stored opt.compressionType (indexContents opt d.close)).length + 5 := by
    intro fb
    simp [bodyBytes, Nat.add_assoc]
  have hmetaFinish : ∀ fb, (BlockBuilder.pushAll opt (metaIndexEntries opt d.close fb)).finish =
      metaIndexContents opt d.close fb := fun _ => rfl
  have hindexFinish : (BlockBuilder.pushAll opt (indexEntries opt d.close)).finish =
      indexContents opt d.close := rfl
  simp only [finish, hsome, ensure_of_true, ok_bind, hopt]
  constructor
  · intro hrun
    rw [bind_eq_ok_iff] at hrun
    obtain ⟨⟨flushed, b₁⟩, hflush, hrest⟩ := hrun
    cases flushed with
    | error e => simp at hrest
    | ok u =>
        obtain ⟨hpending, hrep⟩ := (flushPending_iff hcmp h).mp hflush
        rw [hclosed] at hrep
        obtain ⟨fs, hfs, rfl⟩ := hrep
        rw [bind_eq_ok_iff] at hrest
        obtain ⟨⟨filtered, b₂⟩, hfilter, hrest⟩ := hrest
        cases filtered with
        | error e => simp at hrest
        | ok ib =>
            obtain ⟨fb, hfb, hle, rfl, rfl⟩ := (writeFilterBlock_iff hcmp hfs).mp hfilter
            refine ⟨hpending, fb, ?_⟩
            simp only [writeBlock_eq, hmetaFinish] at hrest
            cases hmeta : compressBlock opt.compressionType (metaIndexContents opt d.close fb) with
            | error e => simp [hmeta] at hrest
            | ok metaData =>
                have hmeta' := stored_of_ok hmeta
                simp only [hmeta, appended, ofFront, ofDraft, unwrap_some, ok_bind,
                  hindexFinish] at hrest
                cases hindex : compressBlock opt.compressionType (indexContents opt d.close) with
                | error e => simp [hindex] at hrest
                | ok indexData =>
                    have hindex' := stored_of_ok hindex
                    simp only [hindex, writeFooter_iff] at hrest
                    obtain ⟨buf, hbuf, rfl, rfl⟩ := hrest
                    rw [← hmeta', ← hindex'] at hbuf
                    refine ⟨⟨hfb, hle, by rw [hmeta, hmeta'], by rw [hindex, hindex']⟩, buf, hbuf, ?_, ?_⟩
                    · simp only [bodyBytes, hmeta', hindex', List.append_assoc]
                    · rw [hbody, hmeta', hindex']
  · rintro ⟨hpending, fb, hfinishes, buf, hbuf, rfl, rfl⟩
    obtain ⟨fs, hfs, -⟩ := bind_eq_ok_iff.mp hfinishes.filter_eq
    have hrep : Represents opt d.closed (ofDraft opt { done := d.close, current := [] } fs) := by
      rw [hclosed]
      exact ⟨fs, hfs, rfl⟩
    have hflush := (flushPending_iff hcmp h).mpr ⟨hpending, hrep⟩
    have hfilter := (writeFilterBlock_iff hcmp hfs).mpr
      ⟨fb, hfinishes.filter_eq, hfinishes.handle_le, rfl, rfl⟩
    have hnew : (ofDraft opt { done := d.close, current := [] } fs).opt = opt := rfl
    rw [hflush, ok_bind]
    simp only [hnew, hfilter, ok_bind, writeBlock_eq, hmetaFinish]
    simp only [ofFront, ofDraft, hfinishes.compress_meta, appended, unwrap_some, ok_bind, hindexFinish,
      hfinishes.compress_index]
    refine writeFooter_iff.mpr ⟨buf, hbuf, ?_, ?_⟩
    · simp only [bodyBytes, List.append_assoc]
    · rw [hbody]

/-! ## Whole tables -/

/-- A sequence of entries is written as a table exactly if every entry is accepted and the table
can be finished. -/
theorem writeTable_iff (hcmp : opt.cmp = DefaultCmp) {es : List Entry} :
    writeTable opt [] es = .ok (.ok n, img) ↔
      AcceptsAll opt .empty es ∧ FlushesPending opt (draft opt es) ∧
        ∃ fb, Finishes opt (cuts opt es) fb ∧
          ∃ buf, (fileFooter opt (cuts opt es) fb).encode (List.replicate fullFooterLength 0) =
              .ok buf ∧
            img = bodyBytes opt (cuts opt es) fb ++ buf ∧
            n = (bodyBytes opt (cuts opt es) fb).length + buf.length := by
  have hnew := represents_new opt
  simp only [writeTable, bind_eq_ok_iff, Prod.exists]
  constructor
  · rintro ⟨added, b, hadd, hfinish⟩
    cases added with
    | error e => simp at hfinish
    | ok u =>
        obtain ⟨hall, hrep⟩ := (addAll_iff hcmp hnew).mp hadd
        exact ⟨hall, (finish_iff hcmp hrep).mp hfinish⟩
  · rintro ⟨hall, hrest⟩
    obtain ⟨fs, hfs⟩ := hall.filters_ok hnew
    have hrep : Represents opt (draft opt es) (ofDraft opt (draft opt es) fs) := ⟨fs, hfs, rfl⟩
    exact ⟨.ok (), _, (addAll_iff hcmp hnew).mpr ⟨hall, hrep⟩, (finish_iff hcmp hrep).mpr hrest⟩

end TableBuilder

end SSTable
