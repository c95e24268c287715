import SSTable.Verification.Table.Image

/-!
# The table builder follows its plan

After any accepted sequence of entries the builder's state is a function of the draft of the
table, and finishing it writes the image of the plan.  What has to hold for an entry to be
accepted is spelled out, once for the entries and once for the blocks.

Main results:

- Theorem {lit}`writeDataBlock_iff`: when a data block is written, and the state it leaves.
- Theorem {lit}`add_iff`: when an entry is accepted, and the state it leaves.
- Theorem {lit}`addAll_iff`: when a sequence is accepted.
-/

namespace SSTable

open Foundation Foundation.Exec Foundation.Bytes

namespace FilterBlockBuilder

@[simp] theorem addKeys_nil (b : FilterBlockBuilder) : b.addKeys [] = b := rfl

@[simp] theorem addKeys_concat (b : FilterBlockBuilder) (keys : List Bytes) (key : Bytes) :
    b.addKeys (keys ++ [key]) = (b.addKeys keys).addKey key := by
  simp [addKeys]

theorem feed_append (b : FilterBlockBuilder) (xs ys : List (List Bytes × Nat)) :
    b.feed (xs ++ ys) = (do
      let b ← b.feed xs
      b.feed ys) := by
  induction xs generalizing b with
  | nil => rfl
  | cons x xs ih =>
      obtain ⟨keys, off⟩ := x
      simp only [List.cons_append, feed, ih, bind_assoc]

end FilterBlockBuilder

variable [Crates]

/-- The last key of the last complete block. -/
def Draft.prevKey (d : Draft) : Bytes := lastKeyOf ((d.done.getLast?.map Cut.entries).getD [])

/-- The draft with its current block completed. -/
def Draft.flush (d : Draft) (nextKey : Bytes) : Draft where
  done := d.done ++ [{ entries := d.current, nextKey := nextKey }]
  current := []

/-- The handle of a block written behind complete blocks. -/
def Cut.handle (opt : Options) (done : List Cut) (c : Cut) : BlockHandle where
  offset := (dataBytes opt done).length
  size := (stored opt.compressionType (c.contents opt)).length

namespace TableBuilder

/-- The builder that has written the complete blocks of a draft and holds its current block,
with the given filters for the complete blocks. -/
def ofDraft (opt : Options) (d : Draft) (fb : FilterBlockBuilder) : TableBuilder Bytes where
  opt := opt
  dst := dataBytes opt d.done
  offset := (dataBytes opt d.done).length
  numEntries := (entriesOf d.done ++ d.current).length
  prevBlockLastKey := d.prevKey
  dataBlock := some (.pushAll opt d.current)
  indexBlock := some (.pushAll opt (indexEntries opt d.done))
  filterBlock := some (fb.addKeys (keysOf d.current))

/-- The filters after complete blocks. -/
def filtersOf (opt : Options) (done : List Cut) : Exec FilterBlockBuilder :=
  (FilterBlockBuilder.new opt.filterPolicy).feed (filterFeed opt done)

/-- The builder's state is that of a draft. -/
def Represents (opt : Options) (d : Draft) (b : TableBuilder Bytes) : Prop :=
  ∃ fb, filtersOf opt d.done = .ok fb ∧ b = ofDraft opt d fb

theorem represents_new (opt : Options) : Represents opt .empty (new opt []) :=
  ⟨_, rfl, rfl⟩

/-- The filters after one more block. -/
theorem filtersOf_append {opt : Options} {done : List Cut} {fb : FilterBlockBuilder}
    (h : filtersOf opt done = .ok fb) (c : Cut) :
    filtersOf opt (done ++ [c]) =
      (fb.addKeys (keysOf c.entries)).startBlock (dataBytes opt (done ++ [c])).length := by
  rw [filtersOf] at h
  rw [filtersOf, filterFeed_append, FilterBlockBuilder.feed_append, h, ok_bind]
  simp only [FilterBlockBuilder.feed, pure_eq_ok]
  cases (fb.addKeys (keysOf c.entries)).startBlock (dataBytes opt (done ++ [c])).length <;> rfl

/-- What has to hold for a data block to be written behind complete blocks. -/
structure Flushes (opt : Options) (done : List Cut) (c : Cut) : Prop where
  sep_eq : DefaultCmp.findShortestSep (lastKeyOf c.entries) c.nextKey = .ok c.sep
  compress_eq : compressBlock opt.compressionType (c.contents opt) =
    .ok (stored opt.compressionType (c.contents opt))
  handle_le : (c.handle opt done).encode.length ≤ 16
  counter_le : (BlockBuilder.pushAll opt (indexEntries opt done)).restartCounter ≤
    opt.blockRestartInterval
  order : done = [] ∨ lastKeyOf (indexEntries opt done) < c.sep
  filter_ok : ∃ fb, filtersOf opt (done ++ [c]) = .ok fb

variable {opt : Options} {d : Draft} {b b' : TableBuilder Bytes} {key val nextKey : Bytes}

theorem indexEntries_eq_nil_iff {done : List Cut} : indexEntries opt done = [] ↔ done = [] := by
  rw [← List.length_eq_zero_iff, ← keysOf_length, keysOf_indexEntries, List.length_map,
    List.length_eq_zero_iff]

/-- A handle is cut out of the buffer it was encoded in. -/
theorem encodeTo_take {h : BlockHandle} (hle : h.encode.length ≤ 16) :
    ∃ buf, h.encodeTo (List.replicate 16 0) = .ok (h.encode.length, buf) ∧
      buf.take h.encode.length = h.encode := by
  refine ⟨_, BlockHandle.encodeTo_eq (by simpa using hle), List.take_left⟩

/-- The builder of a draft whose current block has been completed. -/
theorem ofDraft_flush {c : Cut} (hentries : c.entries = d.current) (hnext : c.nextKey = nextKey)
    (fb : FilterBlockBuilder) :
    ofDraft opt (d.flush nextKey) fb =
      { opt := opt
        dst := dataBytes opt d.done ++
          envelope opt.compressionType (stored opt.compressionType (c.contents opt))
        offset :=
          (dataBytes opt d.done).length + (stored opt.compressionType (c.contents opt)).length + 5
        numEntries := (entriesOf d.done ++ d.current).length
        prevBlockLastKey := lastKeyOf d.current
        dataBlock := some (BlockBuilder.new opt)
        indexBlock := some (.pushAll opt (indexEntries opt d.done ++
          [(c.sep, (c.handle opt d.done).encode)]))
        filterBlock := some fb } := by
  obtain ⟨entries, nextKey⟩ := c
  subst hentries hnext
  simp [ofDraft, Draft.flush, Draft.prevKey, indexEntries_append, Cut.handle, Nat.add_assoc]

/-- The filters after the current block has been completed. -/
theorem filtersOf_flush {fb : FilterBlockBuilder} (h : filtersOf opt d.done = .ok fb) {c : Cut}
    (hentries : c.entries = d.current) (hnext : c.nextKey = nextKey) :
    filtersOf opt (d.flush nextKey).done = (fb.addKeys (keysOf d.current)).startBlock
      ((dataBytes opt d.done).length + (stored opt.compressionType (c.contents opt)).length + 5) := by
  obtain ⟨entries, nextKey⟩ := c
  subst hentries hnext
  rw [Draft.flush, filtersOf_append h]
  simp [Nat.add_assoc]

/-- A data block is written exactly if it can be, and then the draft's block is complete. -/
theorem writeDataBlock_iff (hcmp : opt.cmp = DefaultCmp) (h : Represents opt d b) :
    b.writeDataBlock nextKey = .ok (.ok (), b') ↔
      Flushes opt d.done { entries := d.current, nextKey := nextKey } ∧
        Represents opt (d.flush nextKey) b' := by
  obtain ⟨fb, hfb, rfl⟩ := h
  obtain ⟨c, hc⟩ : ∃ c : Cut, c = { entries := d.current, nextKey := nextKey } := ⟨_, rfl⟩
  have hentries : c.entries = d.current := by rw [hc]
  have hnext : c.nextKey = nextKey := by rw [hc]
  have hfilters := filtersOf_flush hfb hentries hnext
  have hflush : (d.flush nextKey).done = d.done ++ [c] := by rw [hc]; rfl
  have hcontents : (BlockBuilder.pushAll opt d.current).finish = c.contents opt := by
    rw [Cut.contents, hentries]
  rw [← hc]
  constructor
  · intro hwrite
    simp only [writeDataBlock, ofDraft, Option.isSome_some, ensure_of_true, unwrap_some, ok_bind,
      hcmp, defaultCmp_findShortestSep, BlockBuilder.pushAll_lastKey, writeBlock_eq,
      hcontents] at hwrite
    rw [bind_eq_ok_iff] at hwrite
    obtain ⟨sep, hsep, hrest⟩ := hwrite
    rw [← hentries, ← hnext] at hsep
    have hsep' := Cut.sep_of_ok hsep
    cases hcompress : compressBlock opt.compressionType (c.contents opt) with
    | error e => simp [hcompress] at hrest
    | ok data =>
        have hstored : stored opt.compressionType (c.contents opt) = data := stored_of_ok hcompress
        simp only [hcompress, appended, unwrap_some, bind_eq_ok_iff, BlockHandle.encodeTo_eq_ok_iff,
          ok_bind, pure_eq_ok, Except.ok.injEq, Prod.mk.injEq, true_and, Prod.exists] at hrest
        obtain ⟨_, _, ⟨hle, rfl, rfl⟩, ib, hib, fb', hstart, rfl⟩ := hrest
        rw [List.length_replicate] at hle
        rw [List.take_left, BlockBuilder.add_pushAll_iff hcmp, ← hstored, ← hsep'] at hib
        rw [← hstored, ← hfilters] at hstart
        obtain ⟨hcounter, horder, rfl⟩ := hib
        refine ⟨?_, fb', hstart, ?_⟩
        · exact {
            sep_eq := hsep' ▸ hsep
            compress_eq := by rw [hcompress, hstored]
            handle_le := by rw [Cut.handle, hstored]; exact hle
            counter_le := hcounter
            order := horder.imp_left indexEntries_eq_nil_iff.mp
            filter_ok := ⟨fb', hflush ▸ hstart⟩ }
        · rw [ofDraft_flush hentries hnext, Cut.handle, hstored]
  · rintro ⟨hflushes, fb', hfb', rfl⟩
    rw [hfb'] at hfilters
    have hsep := hflushes.sep_eq
    rw [hentries, hnext] at hsep
    obtain ⟨buf, hencode, hbuf⟩ := encodeTo_take hflushes.handle_le
    have hadd : (BlockBuilder.pushAll opt (indexEntries opt d.done)).add c.sep
        (c.handle opt d.done).encode = .ok (.pushAll opt (indexEntries opt d.done ++
          [(c.sep, (c.handle opt d.done).encode)])) := (BlockBuilder.add_pushAll_iff hcmp).mpr
      ⟨hflushes.counter_le, hflushes.order.imp_left indexEntries_eq_nil_iff.mpr, rfl⟩
    rw [ofDraft_flush hentries hnext]
    rw [Cut.handle] at hencode hbuf hadd ⊢
    simp only [writeDataBlock, ofDraft, Option.isSome_some, ensure_of_true, unwrap_some, ok_bind,
      hcmp, defaultCmp_findShortestSep, BlockBuilder.pushAll_lastKey, writeBlock_eq, hcontents, hsep,
      hflushes.compress_eq, appended, hencode, hbuf, hadd, ← hfilters, pure_eq_ok]

/-! ## Adding entries -/

/-- What has to hold for an entry to be appended to the current block. -/
structure Appends (opt : Options) (current : List Entry) (key : Bytes) : Prop where
  counter_le : (BlockBuilder.pushAll opt current).restartCounter ≤ opt.blockRestartInterval
  order : current = [] ∨ lastKeyOf current < key

/-- What has to hold for an entry to be accepted. -/
structure Accepts (opt : Options) (d : Draft) (key : Bytes) : Prop where
  prev_lt : d.prevKey = [] ∨ d.prevKey < key
  flushes : Draft.full opt d.current = true →
    Flushes opt d.done { entries := d.current, nextKey := key }
  appends : Draft.full opt d.current = false → Appends opt d.current key

/-- An entry is appended exactly if it can be. -/
theorem append_iff (hcmp : opt.cmp = DefaultCmp) (h : Represents opt d b) :
    b.append key val = .ok (.ok (), b') ↔ Appends opt d.current key ∧
      Represents opt { d with current := d.current ++ [(key, val)] } b' := by
  obtain ⟨fb, hfb, rfl⟩ := h
  simp only [append, ofDraft, unwrap_some, ok_bind, bind_eq_ok_iff, BlockBuilder.add_pushAll_iff hcmp,
    pure_eq_ok, Except.ok.injEq, Prod.mk.injEq, true_and, Represents]
  constructor
  · rintro ⟨_, ⟨hcounter, horder, rfl⟩, rfl⟩
    refine ⟨⟨hcounter, horder⟩, fb, hfb, ?_⟩
    simp [Draft.prevKey, Nat.add_assoc]
  · rintro ⟨happends, fb', hfb', rfl⟩
    rw [hfb, Except.ok.injEq] at hfb'
    subst hfb'
    refine ⟨_, ⟨happends.counter_le, happends.order, rfl⟩, ?_⟩
    simp [Draft.prevKey, Nat.add_assoc]

theorem appends_nil (opt : Options) (key : Bytes) : Appends opt [] key :=
  ⟨Nat.zero_le _, Or.inl rfl⟩

/-- Accepting an entry, the filters of the complete blocks can be built. -/
theorem Accepts.filters_ok (haccepts : Accepts opt d key) (h : Represents opt d b) :
    ∃ fb, filtersOf opt (d.add opt (key, val)).done = .ok fb := by
  rw [Draft.add]
  split
  · exact (haccepts.flushes ‹_›).filter_ok
  · obtain ⟨fb, hfb, -⟩ := h
    exact ⟨fb, hfb⟩

/-- An entry is accepted exactly if it can be, and then the draft grows by it. -/
theorem add_iff (hcmp : opt.cmp = DefaultCmp) (h : Represents opt d b) :
    b.add key val = .ok (.ok (), b') ↔
      Accepts opt d key ∧ Represents opt (d.add opt (key, val)) b' := by
  obtain ⟨fb, hfb, rfl⟩ := h
  have hrep : Represents opt d (ofDraft opt d fb) := ⟨fb, hfb, rfl⟩
  have hdata : (ofDraft opt d fb).dataBlock = some (BlockBuilder.pushAll opt d.current) := rfl
  have hprev : (ofDraft opt d fb).prevBlockLastKey = d.prevKey := rfl
  have hopt : (ofDraft opt d fb).opt = opt := rfl
  simp only [add, hdata, hprev, Option.isSome_some, hopt, hcmp, ensure_of_true, ok_bind, unwrap_some,
    defaultCmp_cmp, DefaultCmp.cmp_eq_lt_iff]
  rw [bind_eq_ok_iff]
  simp only [ensure_eq_ok_iff, exists_const]
  by_cases hfull : (BlockBuilder.pushAll opt d.current).sizeEstimate > opt.blockSize
  · have hdraft : Draft.full opt d.current = true := by simp [Draft.full, hfull]
    have hadd : d.add opt (key, val) =
        { d.flush key with current := (d.flush key).current ++ [(key, val)] } := by
      simp [Draft.add, hdraft, Draft.flush]
    rw [if_pos hfull, hadd]
    constructor
    · rintro ⟨hlt, hrun⟩
      simp only [bind_eq_ok_iff, Prod.exists] at hrun
      obtain ⟨flushed, b₁, hwrite, hrest⟩ := hrun
      cases flushed with
      | error e => simp at hrest
      | ok u =>
          obtain ⟨hflush, hrep₁⟩ := (writeDataBlock_iff hcmp hrep).mp hwrite
          obtain ⟨-, hrep'⟩ := (append_iff hcmp hrep₁).mp hrest
          exact ⟨⟨hlt, fun _ => hflush, by simp [hdraft]⟩, hrep'⟩
    · rintro ⟨haccepts, hrep'⟩
      refine ⟨haccepts.prev_lt, ?_⟩
      have hflush := haccepts.flushes hdraft
      obtain ⟨fb₁, hfb₁⟩ := hflush.filter_ok
      have hrep₁ : Represents opt (d.flush key) (ofDraft opt (d.flush key) fb₁) := ⟨fb₁, hfb₁, rfl⟩
      rw [(writeDataBlock_iff hcmp hrep).mpr ⟨hflush, hrep₁⟩, ok_bind]
      exact (append_iff hcmp hrep₁).mpr ⟨appends_nil opt key, hrep'⟩
  · have hdraft : Draft.full opt d.current = false := by simp [Draft.full, hfull]
    have hadd : d.add opt (key, val) = { d with current := d.current ++ [(key, val)] } := by
      simp [Draft.add, hdraft]
    rw [if_neg hfull, hadd, pure_eq_ok, ok_bind]
    constructor
    · rintro ⟨hlt, hrun⟩
      obtain ⟨happends, hrep'⟩ := (append_iff hcmp hrep).mp hrun
      exact ⟨⟨hlt, by simp [hdraft], fun _ => happends⟩, hrep'⟩
    · rintro ⟨haccepts, hrep'⟩
      exact ⟨haccepts.prev_lt, (append_iff hcmp hrep).mpr ⟨haccepts.appends hdraft, hrep'⟩⟩

/-- Every entry of a sequence is accepted when its turn comes. -/
def AcceptsAll (opt : Options) (d : Draft) : List Entry → Prop
  | [] => True
  | e :: es => Accepts opt d e.1 ∧ AcceptsAll opt (d.add opt e) es

/-- Accepting a sequence, the filters of the complete blocks can be built. -/
theorem AcceptsAll.filters_ok {es : List Entry} (hall : AcceptsAll opt d es)
    (h : Represents opt d b) :
    ∃ fb, filtersOf opt (es.foldl (Draft.add opt) d).done = .ok fb := by
  induction es generalizing d b with
  | nil =>
      obtain ⟨fb, hfb, -⟩ := h
      exact ⟨fb, hfb⟩
  | cons e es ih =>
      obtain ⟨fb, hfb⟩ := hall.1.filters_ok h
      exact ih hall.2 ⟨fb, hfb, rfl⟩

/-- A sequence is accepted exactly if every entry is, and then the draft is that of the sequence. -/
theorem addAll_iff (hcmp : opt.cmp = DefaultCmp) (h : Represents opt d b) {es : List Entry} :
    b.addAll es = .ok (.ok (), b') ↔
      AcceptsAll opt d es ∧ Represents opt (es.foldl (Draft.add opt) d) b' := by
  induction es generalizing d b with
  | nil =>
      obtain ⟨fb, hfb, rfl⟩ := h
      simp only [addAll, pure_eq_ok, Except.ok.injEq, Prod.mk.injEq, true_and, AcceptsAll,
        List.foldl_nil]
      constructor
      · rintro rfl
        exact ⟨fb, hfb, rfl⟩
      · rintro ⟨fb', hfb', rfl⟩
        rw [hfb, Except.ok.injEq] at hfb'
        rw [hfb']
  | cons e es ih =>
      obtain ⟨key, val⟩ := e
      simp only [addAll, bind_eq_ok_iff, Prod.exists, AcceptsAll, List.foldl_cons]
      constructor
      · rintro ⟨added, b₁, hadd, hrest⟩
        cases added with
        | error e => simp at hrest
        | ok u =>
            obtain ⟨haccepts, hrep₁⟩ := (add_iff hcmp h).mp hadd
            obtain ⟨hall, hrep'⟩ := (ih hrep₁).mp hrest
            exact ⟨⟨haccepts, hall⟩, hrep'⟩
      · rintro ⟨⟨haccepts, hall⟩, hrep'⟩
        obtain ⟨fb₁, hfb₁⟩ := haccepts.filters_ok h
        have hrep₁ : Represents opt (d.add opt (key, val)) (ofDraft opt _ fb₁) := ⟨fb₁, hfb₁, rfl⟩
        exact ⟨.ok (), _, (add_iff hcmp h).mpr ⟨haccepts, hrep₁⟩, (ih hrep₁).mpr ⟨hall, hrep'⟩⟩

end TableBuilder

end SSTable
