import SSTable.Verification.Table.RoundTrip
import SSTable.Verification.Table.Sinks

/-!
# The places of the blocks

The handles of a table give the places of its blocks, for every comparator, when the sink takes
everything.  What a sink that takes less has received is compared with that table.

Main results:

- Theorem {lit}`writeTable_handlesTrue`: a table has its blocks where its handles say.
- Theorem {lit}`short_writes_iff`: a sink receives the table exactly if it takes every buffer whole.
-/

namespace SSTable

open Foundation Foundation.Exec Foundation.Bytes

/-! ## The places of the blocks -/

section

variable [Crates] {opt : Options} {img more block : Bytes} {ctype : CompressionType}
  {h : BlockHandle}

/-- A handle gives the place of a block in a table. -/
def LiesAt (img : Bytes) (ctype : CompressionType) (block : Bytes) (h : BlockHandle) : Prop :=
  ∃ data x y, compressBlock ctype block = .ok data ∧ img = x ++ (envelope ctype data ++ y) ∧
    h = { offset := x.length, size := data.length }

theorem LiesAt.append (hlies : LiesAt img ctype block h) (more : Bytes) :
    LiesAt (img ++ more) ctype block h := by
  obtain ⟨data, x, y, hdata, rfl, rfl⟩ := hlies
  exact ⟨data, x, y ++ more, hdata, by simp, rfl⟩

/-- A data block of a table, its separator and its handle. -/
structure Laid where
  entries : List Entry
  sep : Bytes
  handle : BlockHandle

/-- The entry of a data block in the index. -/
def Laid.entry (w : Laid) : Entry := (w.sep, w.handle.encode)

/-- The entries of data blocks. -/
def entriesLaid (blocks : List Laid) : List Entry := (blocks.map Laid.entries).flatten

/-- A table has its blocks where its handles say: the handles of the data blocks in the index, the
handle of the filter block in the metaindex, and the handles of the two in the footer. -/
def HandlesTrue (opt : Options) (es : List Entry) (img : Bytes) : Prop :=
  ∃ (blocks : List Laid) (filters : Bytes) (filterHandle : BlockHandle) (footer : Footer)
      (front footerBytes : Bytes),
    entriesLaid blocks = es ∧
    (∀ w ∈ blocks,
      LiesAt img opt.compressionType (BlockBuilder.pushAll opt w.entries).finish w.handle) ∧
    LiesAt img .CompressionNone filters filterHandle ∧
    LiesAt img opt.compressionType (BlockBuilder.pushAll opt
      [(TableBuilder.filterKey opt.filterPolicy.name, filterHandle.encode)]).finish
      footer.metaIndex ∧
    LiesAt img opt.compressionType (BlockBuilder.pushAll opt (blocks.map Laid.entry)).finish
      footer.index ∧
    footer.encode (List.replicate fullFooterLength 0) = .ok footerBytes ∧
    img = front ++ footerBytes

theorem BlockBuilder.add_eq_push {b b' : BlockBuilder} {key val : Bytes}
    (hadd : b.add key val = .ok b') : b' = b.push key val := by
  simp only [add, bind_eq_ok_iff, pure_eq_ok, Except.ok.injEq] at hadd
  obtain ⟨-, -, -, -, rfl⟩ := hadd
  rfl

namespace TableBuilder

variable {b b' : TableBuilder Bytes} {blocks : List Laid} {current es : List Entry}

/-- A block that is written lies where its handle says, if the builder knew its own offset. -/
theorem writeBlock_lies (hoff : b.offset = b.dst.length)
    (hrun : b.writeBlock block ctype = (.ok h, b')) :
    ∃ data, b' = b.appended ctype data ∧ b'.offset = b'.dst.length ∧
      LiesAt b'.dst ctype block h := by
  rw [writeBlock_eq] at hrun
  cases hdata : compressBlock ctype block with
  | error e => simp [hdata] at hrun
  | ok data =>
      simp only [hdata, Prod.mk.injEq, Except.ok.injEq] at hrun
      obtain ⟨rfl, rfl⟩ := hrun
      refine ⟨data, rfl, ?_, data, b.dst, [], hdata, ?_, ?_⟩
      · simp only [appended, hoff, List.length_append, envelope_length, Nat.add_assoc]
      · simp only [appended, List.append_nil]
      · rw [hoff]

/-- A builder has laid some data blocks and holds the entries of the next one. -/
structure Lays (opt : Options) (blocks : List Laid) (current : List Entry)
    (b : TableBuilder Bytes) : Prop where
  opt_eq : b.opt = opt
  offset_eq : b.offset = b.dst.length
  data_eq : b.dataBlock = some (.pushAll opt current)
  index_eq : b.indexBlock = some (.pushAll opt (blocks.map Laid.entry))
  filter_eq : ∃ fb, b.filterBlock = some fb ∧ fb.policy = opt.filterPolicy
  lies : ∀ w ∈ blocks,
    LiesAt b.dst opt.compressionType (BlockBuilder.pushAll opt w.entries).finish w.handle

theorem lays_new (opt : Options) : Lays opt [] [] (new opt []) where
  opt_eq := rfl
  offset_eq := rfl
  data_eq := rfl
  index_eq := rfl
  filter_eq := ⟨_, rfl, rfl⟩
  lies := by simp

/-- Writing the data block lays it. -/
theorem Lays.writeDataBlock (hb : Lays opt blocks current b) {nextKey : Bytes}
    (hrun : b.writeDataBlock nextKey = .ok (.ok (), b')) :
    ∃ w : Laid, w.entries = current ∧ Lays opt (blocks ++ [w]) [] b' := by
  obtain ⟨fb, hfb, hpolicy⟩ := hb.filter_eq
  simp only [TableBuilder.writeDataBlock, bind_eq_ok_iff, unwrap_eq_ok_iff] at hrun
  obtain ⟨_, -, block, hblock, sep, -, hrun⟩ := hrun
  rw [hb.data_eq, Option.some.injEq] at hblock
  subst hblock
  rcases hwrite : ({ b with
      dataBlock := none
      prevBlockLastKey := (BlockBuilder.pushAll opt current).lastKey } :
    TableBuilder Bytes).writeBlock (BlockBuilder.pushAll opt current).finish b.opt.compressionType
    with ⟨e | handle, b₁⟩
  · simp only [hwrite] at hrun
    simp at hrun
  · obtain ⟨data, hb₁, hoff, hlies⟩ := writeBlock_lies (by exact hb.offset_eq) hwrite
    have hfilter : b₁.filterBlock = some fb := by rw [hb₁]; exact hfb
    have hdst : b₁.dst = b.dst ++ envelope b.opt.compressionType data := by rw [hb₁]; rfl
    have hopt : b₁.opt = opt := by rw [hb₁]; exact hb.opt_eq
    have hindex : b₁.indexBlock = some (.pushAll opt (blocks.map Laid.entry)) := by
      rw [hb₁]
      exact hb.index_eq
    simp only [hwrite, hfilter, hindex, bind_eq_ok_iff, BlockHandle.encodeTo_eq_ok_iff,
      unwrap_some, Except.ok.injEq, pure_eq_ok, Prod.mk.injEq, true_and] at hrun
    obtain ⟨_, ⟨-, rfl⟩, _, rfl, ib, hadd, fb', hstart, rfl⟩ := hrun
    rw [List.take_left] at hadd
    refine ⟨{ entries := current, sep := sep, handle := handle }, rfl, ?_⟩
    exact {
      opt_eq := hopt
      offset_eq := hoff
      data_eq := by rw [hopt]; rfl
      index_eq := by
        rw [BlockBuilder.add_eq_push hadd, List.map_append, List.map_singleton,
          BlockBuilder.pushAll_concat]
        rfl
      filter_eq := ⟨fb', rfl, by rw [FilterBlockBuilder.startBlock_policy hstart, hpolicy]⟩
      lies := by
        intro w hw
        rcases List.mem_append.mp hw with hw | hw
        · simp only [hdst]
          exact (hb.lies w hw).append _
        · rw [List.mem_singleton] at hw
          rw [hw, ← hb.opt_eq]
          rw [← hb.opt_eq] at hlies
          exact hlies }

theorem Lays.append (hb : Lays opt blocks current b) {key val : Bytes}
    (hrun : b.append key val = .ok (.ok (), b')) :
    Lays opt blocks (current ++ [(key, val)]) b' := by
  obtain ⟨fb, hfb, hpolicy⟩ := hb.filter_eq
  simp only [TableBuilder.append, hb.data_eq, unwrap_some, ok_bind, bind_eq_ok_iff, pure_eq_ok,
    Except.ok.injEq, Prod.mk.injEq, true_and] at hrun
  obtain ⟨dblock, hadd, rfl⟩ := hrun
  exact {
    opt_eq := hb.opt_eq
    offset_eq := hb.offset_eq
    data_eq := by rw [BlockBuilder.add_eq_push hadd, BlockBuilder.pushAll_concat]
    index_eq := hb.index_eq
    filter_eq := ⟨fb.addKey key, by simp only [hfb, Option.map_some], hpolicy⟩
    lies := hb.lies }

/-- Adding an entry lays the data block first if it is full. -/
theorem Lays.add (hb : Lays opt blocks current b) {key val : Bytes}
    (hrun : b.add key val = .ok (.ok (), b')) :
    ∃ blocks' current', Lays opt blocks' current' b' ∧
      entriesLaid blocks' ++ current' = entriesLaid blocks ++ current ++ [(key, val)] := by
  simp only [TableBuilder.add, bind_eq_ok_iff, ensure_eq_ok_iff, unwrap_eq_ok_iff] at hrun
  obtain ⟨_, -, _, -, dblock, -, hrun⟩ := hrun
  by_cases hfull : dblock.sizeEstimate > b.opt.blockSize
  · rw [if_pos hfull, bind_eq_ok_iff] at hrun
    obtain ⟨⟨flushed, b₁⟩, hflush, hrun⟩ := hrun
    cases flushed with
    | error e => simp at hrun
    | ok u =>
        obtain ⟨w, hw, hlaid⟩ := hb.writeDataBlock hflush
        refine ⟨blocks ++ [w], [] ++ [(key, val)], hlaid.append hrun, ?_⟩
        simp [entriesLaid, hw]
  · rw [if_neg hfull, pure_eq_ok, ok_bind] at hrun
    exact ⟨blocks, current ++ [(key, val)], hb.append hrun, (List.append_assoc _ _ _).symm⟩

theorem Lays.addAll (hb : Lays opt blocks current b) (hrun : b.addAll es = .ok (.ok (), b')) :
    ∃ blocks' current', Lays opt blocks' current' b' ∧
      entriesLaid blocks' ++ current' = entriesLaid blocks ++ current ++ es := by
  induction es generalizing b blocks current with
  | nil =>
      simp only [TableBuilder.addAll, pure_eq_ok, Except.ok.injEq, Prod.mk.injEq, true_and] at hrun
      subst hrun
      exact ⟨blocks, current, hb, (List.append_nil _).symm⟩
  | cons e es ih =>
      obtain ⟨key, val⟩ := e
      simp only [TableBuilder.addAll, bind_eq_ok_iff, Prod.exists] at hrun
      obtain ⟨added, b₁, hadd, hrun⟩ := hrun
      cases added with
      | error e => simp at hrun
      | ok u =>
          obtain ⟨blocks₁, current₁, hb₁, heq₁⟩ := hb.add hadd
          obtain ⟨blocks', current', hb', heq'⟩ := ih hb₁ hrun
          refine ⟨blocks', current', hb', ?_⟩
          rw [heq', heq₁, List.append_assoc, List.singleton_append]

theorem Lays.flushPending (hb : Lays opt blocks current b)
    (hrun : b.flushPending = .ok (.ok (), b')) :
    ∃ blocks', Lays opt blocks' [] b' ∧ entriesLaid blocks' = entriesLaid blocks ++ current := by
  simp only [TableBuilder.flushPending, hb.data_eq, unwrap_some, ok_bind,
    BlockBuilder.pushAll_entries] at hrun
  by_cases hpos : current.length > 0
  · rw [if_pos hpos] at hrun
    obtain ⟨w, hw, hlaid⟩ := hb.writeDataBlock hrun
    refine ⟨blocks ++ [w], hlaid, ?_⟩
    simp [entriesLaid, hw]
  · rw [if_neg hpos, pure_eq_ok, Except.ok.injEq, Prod.mk.injEq] at hrun
    obtain ⟨-, rfl⟩ := hrun
    obtain rfl := List.length_eq_zero_iff.mp (Nat.eq_zero_of_not_pos hpos)
    exact ⟨blocks, hb, (List.append_nil _).symm⟩

/-- The filter block lies where its metaindex entry says. -/
theorem Lays.writeFilterBlock (hb : Lays opt blocks [] b) {ib : BlockBuilder}
    (hrun : b.writeFilterBlock (BlockBuilder.new opt) = .ok (.ok ib, b')) :
    ∃ data h, LiesAt b'.dst .CompressionNone data h ∧
      ib = .pushAll opt [(filterKey opt.filterPolicy.name, h.encode)] ∧
      b'.offset = b'.dst.length ∧ b'.indexBlock = b.indexBlock ∧
      ∃ more, b'.dst = b.dst ++ more := by
  obtain ⟨fb, hfb, hpolicy⟩ := hb.filter_eq
  simp only [TableBuilder.writeFilterBlock, hfb, bind_eq_ok_iff] at hrun
  obtain ⟨data, -, hrun⟩ := hrun
  rcases hwrite : ({ b with filterBlock := none } : TableBuilder Bytes).writeBlock data
    .CompressionNone with ⟨e | handle, b₁⟩
  · simp only [hwrite] at hrun
    simp at hrun
  · obtain ⟨stored, hb₁, hoff, hlies⟩ := writeBlock_lies (by exact hb.offset_eq) hwrite
    simp only [hwrite, bind_eq_ok_iff, BlockHandle.encodeTo_eq_ok_iff, pure_eq_ok, Except.ok.injEq,
      Prod.mk.injEq] at hrun
    obtain ⟨_, ⟨-, rfl⟩, ib', hadd, rfl, rfl⟩ := hrun
    rw [List.take_left, FilterBlockBuilder.filterName, hpolicy] at hadd
    refine ⟨data, handle, hlies, BlockBuilder.add_eq_push hadd, hoff, ?_,
      envelope .CompressionNone stored, ?_⟩
    · rw [hb₁]
      rfl
    · rw [hb₁]
      rfl

/-- A finished table has its blocks where its handles say, and its length is returned. -/
theorem Lays.finish (hb : Lays opt blocks current b) {n : Nat}
    (hrun : b.finish = .ok (.ok n, img)) :
    HandlesTrue opt (entriesLaid blocks ++ current) img ∧ n = img.length := by
  simp only [TableBuilder.finish, bind_eq_ok_iff, ensure_eq_ok_iff] at hrun
  obtain ⟨_, -, ⟨flushed, b₁⟩, hflush, hrun⟩ := hrun
  cases flushed with
  | error e => simp at hrun
  | ok u =>
      obtain ⟨blocks₁, hb₁, heq⟩ := hb.flushPending hflush
      simp only [bind_eq_ok_iff, hb₁.opt_eq, hb.opt_eq] at hrun
      obtain ⟨⟨filtered, b₂⟩, hfilter, hrun⟩ := hrun
      cases filtered with
      | error e => simp at hrun
      | ok ib =>
          obtain ⟨data, filterHandle, hlies, rfl, hoff, hindex, more, hmore⟩ :=
            hb₁.writeFilterBlock hfilter
          simp only at hrun
          rcases hmeta : b₂.writeBlock (BlockBuilder.pushAll opt
            [(filterKey opt.filterPolicy.name, filterHandle.encode)]).finish opt.compressionType
            with ⟨e | metaHandle, b₃⟩
          · simp only [hmeta] at hrun
            simp at hrun
          · obtain ⟨metaData, hb₃, hoff₃, hmetaLies⟩ := writeBlock_lies hoff hmeta
            have hindex₃ : b₃.indexBlock = some (.pushAll opt (blocks₁.map Laid.entry)) := by
              rw [hb₃, ← hb₁.index_eq, ← hindex]
              rfl
            simp only [hmeta, hindex₃, unwrap_some, ok_bind] at hrun
            rcases hlast : ({ b₃ with indexBlock := none } : TableBuilder Bytes).writeBlock
              (BlockBuilder.pushAll opt (blocks₁.map Laid.entry)).finish opt.compressionType
              with ⟨e | indexHandle, b₄⟩
            · simp only [hlast] at hrun
              simp at hrun
            · obtain ⟨indexData, hb₄, hoff₄, hindexLies⟩ := writeBlock_lies (by exact hoff₃) hlast
              simp only [hlast, writeFooter_iff] at hrun
              obtain ⟨buf, hbuf, rfl, rfl⟩ := hrun
              have hdst₃ : b₃.dst = b₂.dst ++ envelope opt.compressionType metaData := by
                rw [hb₃]
                rfl
              have hdst₄ : b₄.dst = b₃.dst ++ envelope opt.compressionType indexData := by
                rw [hb₄]
                rfl
              refine ⟨⟨blocks₁, data, filterHandle, _, b₄.dst, buf, heq, ?_, ?_, ?_,
                hindexLies.append buf, hbuf, rfl⟩, ?_⟩
              · intro w hw
                have hw := (((hb₁.lies w hw).append more).append
                  (envelope opt.compressionType metaData)).append
                  (envelope opt.compressionType indexData)
                rw [← hmore, ← hdst₃, ← hdst₄] at hw
                exact hw.append buf
              · rw [hdst₄, hdst₃]
                exact ((hlies.append _).append _).append buf
              · rw [hdst₄]
                exact (hmetaLies.append _).append buf
              · rw [hoff₄, List.length_append]

/-- A table that is written to a sink that takes everything has its blocks where its handles say. -/
theorem writeTable_handlesTrue {n : Nat} (hrun : writeTable opt [] es = .ok (.ok n, img)) :
    HandlesTrue opt es img ∧ n = img.length := by
  simp only [writeTable, bind_eq_ok_iff, Prod.exists] at hrun
  obtain ⟨added, b, hadd, hfinish⟩ := hrun
  cases added with
  | error e => simp at hfinish
  | ok u =>
      obtain ⟨blocks, current, hb, heq⟩ := (lays_new opt).addAll hadd
      have hfinished := hb.finish hfinish
      rw [heq] at hfinished
      exact hfinished

end TableBuilder

end

/-- A sink receives the table, with its blocks where the handles say and its length returned,
exactly if it takes every buffer whole that the builder writes. -/
theorem short_writes_iff [Crates] {Dst : Type} [Write Dst] (S : Sink Dst) {opt : Options}
    {es : List Entry} {dst dst' : Dst} {n : Nat} (hnew : S.received dst = [])
    (hwrite : TableBuilder.writeTable opt dst es = .ok (.ok n, dst')) :
    ∃ calls img m, TableBuilder.writeTable opt ([] : List SinkCall) es = .ok (.ok m, calls) ∧
      TableBuilder.writeTable opt ([] : Bytes) es = .ok (.ok m, img) ∧
      ((S.received dst' = img ∧ HandlesTrue opt es (S.received dst') ∧
        n = (S.received dst').length) ↔ TakesWhole dst calls) := by
  obtain ⟨calls, off, buf, ⟨d₁, d₂, k, hcalls, hfooter, hflush, rfl⟩, hother⟩ :=
    TableBuilder.writeTable_follows hwrite
  have hkept := hother (List SinkCall) [] calls _ _ buf.length (replay_calls [] calls) rfl rfl
  have himage := hother Bytes [] (givenBytes calls) _ _ buf.length (replay_bytes [] calls) rfl rfl
  obtain ⟨htrue, hlen⟩ := TableBuilder.writeTable_handlesTrue himage
  refine ⟨_, _, _, hkept, himage, ?_⟩
  have hreplay : replay dst (calls ++ [.write buf] ++ [.flush]) = some dst' := by
    simp [replay_append_iff, hcalls, replay, hfooter, hflush]
  have hreceived := received_replay_iff S hreplay
  rw [hnew, List.nil_append] at hreceived
  have hgiven : givenBytes (calls ++ [.write buf] ++ [.flush]) = givenBytes calls ++ buf := by
    simp [givenBytes, SinkCall.bytes]
  rw [hgiven] at hreceived
  rw [← hreceived]
  constructor
  · exact fun h => h.1
  · intro h
    have hwhole := hreceived.mp h
    have hk : k = buf.length := by
      rw [List.append_assoc, takesWhole_append_iff hcalls] at hwhole
      simpa [TakesWhole, hfooter] using hwhole.2
    rw [h]
    exact ⟨rfl, htrue, by rw [hk, hlen]⟩

/-- A sink that takes at most some bytes of every buffer that is written. -/
structure CappedSink where
  limit : Nat
  taken : Bytes
deriving DecidableEq

instance : Write CappedSink where
  write s b := (.ok (min s.limit b.length), { s with taken := s.taken ++ b.take s.limit })
  writeAll s b := (.ok (), { s with taken := s.taken ++ b })
  flush s := (.ok (), s)

def cappedSink : Sink CappedSink where
  received := CappedSink.taken
  write_le := by
    rintro d d' b n h
    obtain ⟨hn, -⟩ := Prod.mk.inj h
    rw [← Except.ok.inj hn]
    exact Nat.min_le_right _ _
  write_ok := by
    rintro d d' b n h
    obtain ⟨hn, rfl⟩ := Prod.mk.inj h
    rw [← Except.ok.inj hn, ← List.take_eq_take_min]
  writeAll_ok := by
    rintro d d' b h
    obtain ⟨-, rfl⟩ := Prod.mk.inj h
    rfl
  flush_ok := by
    rintro d d' h
    obtain ⟨-, rfl⟩ := Prod.mk.inj h
    rfl

/-- A sink that has taken at most 16 bytes of every buffer of a table. -/
def cappedNeighbours : CappedSink :=
  letI := referenceCrates
  match TableBuilder.writeTable tinyBlocks ({ limit := 16, taken := [] } : CappedSink) neighbours with
  | .ok (_, dst) => dst
  | .error _ => { limit := 0, taken := [] }

set_option maxRecDepth 10000 in
/-- What there is to compute about the sink. -/
theorem cappedNeighbours_facts : letI := referenceCrates
    TableBuilder.writeTable tinyBlocks ({ limit := 16, taken := [] } : CappedSink) neighbours =
        .ok (.ok 179, cappedNeighbours) ∧
      cappedNeighbours.taken ≠ neighboursImage ∧ 179 ≠ cappedNeighbours.taken.length := by
  decide +kernel

/-- A table of three keys, written to a sink that takes at most 16 bytes at a time. -/
theorem short_writes_iff_neighbours : letI := referenceCrates
    ∃ calls img m,
      TableBuilder.writeTable tinyBlocks ([] : List SinkCall) neighbours = .ok (.ok m, calls) ∧
      TableBuilder.writeTable tinyBlocks ([] : Bytes) neighbours = .ok (.ok m, img) ∧
      ((cappedNeighbours.taken = img ∧ HandlesTrue tinyBlocks neighbours cappedNeighbours.taken ∧
        179 = cappedNeighbours.taken.length) ↔
        TakesWhole ({ limit := 16, taken := [] } : CappedSink) calls) :=
  letI := referenceCrates
  short_writes_iff cappedSink rfl cappedNeighbours_facts.1

/-- A sink that takes at most 16 bytes of every buffer follows its contract and reports no error, but
it has not received the table, and the length that is returned is not that of what it received. -/
theorem short_writes_lose_bytes : letI := referenceCrates
    Increasing neighbours ∧ cappedSink.received { limit := 16, taken := [] } = [] ∧
      TableBuilder.writeTable tinyBlocks ([] : Bytes) neighbours = .ok (.ok 211, neighboursImage) ∧
      ∃ n dst, TableBuilder.writeTable tinyBlocks ({ limit := 16, taken := [] } : CappedSink)
          neighbours = .ok (.ok n, dst) ∧
        cappedSink.received dst ≠ neighboursImage ∧ n ≠ (cappedSink.received dst).length := by
  let := referenceCrates
  obtain ⟨hrun, hbytes, hlen⟩ := cappedNeighbours_facts
  exact ⟨by decide, rfl, neighboursImage_eq, 179, cappedNeighbours, hrun, hbytes, hlen⟩

end SSTable
