import SSTable.Verification.Block.Restarts
import SSTable.Verification.Table.Places

/-!
# Estimated sizes

As long as blocks are not compressed, the size that a builder reports is a lower bound for the
length of the finished table, and grows with every entry by at least the length of its value and of
its three lengths.  What has been written to the sink is never touched again.

Main results:

- Theorem {lit}`addAll_grows`: what entries add to a builder.
- Theorem {lit}`estimate_below`: the estimates of every run, compared with each other and with the
  finished table.
-/

namespace SSTable

open Foundation Foundation.Exec Foundation.Bytes

/-- The bytes that entries take at least: their values, and three lengths for each. -/
def leastBytes (es : List Entry) : Nat := (es.map fun e => e.2.length + 3).sum

theorem leastBytes_append (es es' : List Entry) :
    leastBytes (es ++ es') = leastBytes es + leastBytes es' := by
  simp [leastBytes]

/-! ## Filter blocks -/

namespace FilterBlockBuilder

variable {b b' : FilterBlockBuilder} {offset : Nat}

theorem generateFilter_sizeEstimate (h : b.generateFilter = .ok b') :
    b.sizeEstimate ≤ b'.sizeEstimate := by
  have hoffsets := generateFilter_offsets h
  have hfilters : b.filters.length ≤ b'.filters.length := by
    unfold generateFilter at h
    dsimp only at h
    split at h
    · rw [pure_eq_ok, Except.ok.injEq] at h
      rw [← h]
    · simp only [bind_eq_ok_iff, pure_eq_ok, Except.ok.injEq] at h
      obtain ⟨f, -, rfl⟩ := h
      rw [List.length_append]
      exact Nat.le_add_right _ _
  unfold sizeEstimate
  omega

theorem startBlock_sizeEstimate (h : b.startBlock offset = .ok b') :
    b.sizeEstimate ≤ b'.sizeEstimate := by
  simp only [startBlock, bind_eq_ok_iff] at h
  obtain ⟨ix, -, -, -, hloop⟩ := h
  refine (whileLoop_invariant (fun s => b.sizeEstimate ≤ s.sizeEstimate) ?_ le_rfl hloop).1
  intro s s' hs _ hgenerate
  exact hs.trans (generateFilter_sizeEstimate hgenerate)

/-- A finished filter block is not shorter than it was estimated. -/
theorem sizeEstimate_le_finish {fb : Bytes} (h : b.finish = .ok fb) :
    b.sizeEstimate ≤ fb.length := by
  have hword : ∀ n, (encodeFixed32 n).length = 4 := leBytes_length 4
  have hlength : ∀ b₁ : FilterBlockBuilder, (b₁.filters ++
      (b₁.filterOffsets.map encodeFixed32).flatten ++ encodeFixed32 b₁.filters.length ++
        [UInt8.ofNat filterBaseLog2]).length = b₁.sizeEstimate := by
    intro b₁
    have hoffsets : (b₁.filterOffsets.map encodeFixed32).flatten.length =
        4 * b₁.filterOffsets.length := Pieces.words_length 4 _
    simp only [List.length_append, hoffsets, hword, List.length_singleton, sizeEstimate]
  unfold finish at h
  split at h
  · simp only [pure_eq_ok, ok_bind, Except.ok.injEq] at h
    rw [← h, hlength]
  · simp only [bind_eq_ok_iff, pure_eq_ok, Except.ok.injEq] at h
    obtain ⟨b₁, hgenerate, rfl⟩ := h
    rw [hlength]
    exact generateFilter_sizeEstimate hgenerate

end FilterBlockBuilder

/-! ## Data blocks -/

/-- An entry adds its value and three lengths to a block. -/
theorem BlockBuilder.push_sizeEstimate [Crates] (b : BlockBuilder) (key val : Bytes) :
    b.sizeEstimate + (val.length + 3) ≤ (b.push key val).sizeEstimate := by
  have hrestarts : b.restarts.length ≤ (b.push key val).restarts.length := by
    unfold push
    dsimp only
    split
    · exact le_rfl
    · rw [List.length_append]
      exact Nat.le_add_right _ _
  have hbuffer : b.buffer.length + (val.length + 3) ≤ (b.push key val).buffer.length := by
    have hvar := Crates.encodeVar_length_pos
    have hshared := hvar (if b.restartCounter < b.opt.blockRestartInterval then
      commonPrefixLength b.lastKey key else 0)
    have hrest := hvar (key.length - if b.restartCounter < b.opt.blockRestartInterval then
      commonPrefixLength b.lastKey key else 0)
    have hval := hvar val.length
    simp only [push, List.length_append]
    omega
  unfold sizeEstimate
  omega

/-- Encoding a footer keeps the length of the buffer. -/
theorem Footer.encode_length [Crates] {f : Footer} {dst out : Bytes} (h : f.encode dst = .ok out) :
    out.length = dst.length := by
  have hmagic : magicFooterEncoded.length = 8 := rfl
  simp only [encode, bind_eq_ok_iff, ensure_eq_ok_iff, sliceFrom_eq_ok_iff, pure_eq_ok,
    Except.ok.injEq, BlockHandle.encodeTo_eq_ok_iff, Prod.exists, Prod.mk.injEq] at h
  obtain ⟨_, hlong, s₁, dst₁, ⟨hmeta, rfl, rfl⟩, rest, ⟨hfrom, rfl⟩, s₂, dst₂, ⟨hindex, rfl, rfl⟩,
    rfl⟩ := h
  simp only [List.length_append, List.length_take, List.length_drop, List.length_replicate, hmagic,
    footerLength, fullFooterLength] at *
  omega

/-! ## Tables -/

namespace TableBuilder

/-- Between two states of a builder entries were added: what had been written is still there, and
the estimate has grown by what the entries take at least. -/
structure Grows (es : List Entry) (b b' : TableBuilder Bytes) : Prop where
  dst : b.dst <+: b'.dst
  entries : b'.entries = b.entries + es.length
  estimate : b.sizeEstimate + leastBytes es ≤ b'.sizeEstimate

variable {opt : Options} {blocks : List Laid} {current es es' : List Entry}
  {b b' b'' : TableBuilder Bytes} {key val : Bytes}

theorem Grows.refl (b : TableBuilder Bytes) : Grows [] b b := ⟨List.prefix_rfl, rfl, le_rfl⟩

theorem Grows.trans (h : Grows es b b') (h' : Grows es' b' b'') : Grows (es ++ es') b b'' where
  dst := h.dst.trans h'.dst
  entries := by rw [h'.entries, h.entries, List.length_append, Nat.add_assoc]
  estimate := by
    have := h.estimate
    have := h'.estimate
    rw [leastBytes_append]
    omega

variable [Crates]

/-- Writing an uncompressed block moves the offset past it. -/
theorem writeBlock_uncompressed {block : Bytes} {ctype : CompressionType} {h : BlockHandle}
    (hctype : ctype = .CompressionNone) (hrun : b.writeBlock block ctype = (.ok h, b')) :
    b' = b.appended .CompressionNone block := by
  rw [hctype, writeBlock_eq, compressBlock_none] at hrun
  exact (Prod.mk.inj hrun).2.symm

/-- A data block that is written takes 13 bytes more than it was estimated: its type and checksum,
and the restarts of the block that is begun behind it. -/
theorem writeDataBlock_grows (hb : Lays opt blocks current b)
    (hctype : opt.compressionType = .CompressionNone) {nextKey : Bytes}
    (hrun : b.writeDataBlock nextKey = .ok (.ok (), b')) : Grows [] b b' := by
  obtain ⟨fb, hfb, -⟩ := hb.filter_eq
  simp only [writeDataBlock, bind_eq_ok_iff, unwrap_eq_ok_iff] at hrun
  obtain ⟨_, -, block, hblock, sep, -, hrun⟩ := hrun
  rcases hwrite : ({ b with dataBlock := none, prevBlockLastKey := block.lastKey } :
    TableBuilder Bytes).writeBlock block.finish b.opt.compressionType with ⟨e | handle, b₁⟩
  · simp only [hwrite] at hrun
    simp at hrun
  · have hb₁ := writeBlock_uncompressed (hb.opt_eq ▸ hctype) hwrite
    have hfilter : b₁.filterBlock = some fb := by rw [hb₁]; exact hfb
    simp only [hwrite, hfilter, bind_eq_ok_iff, BlockHandle.encodeTo_eq_ok_iff,
      unwrap_eq_ok_iff, Except.ok.injEq, pure_eq_ok, Prod.mk.injEq, true_and] at hrun
    obtain ⟨_, ⟨-, rfl⟩, ib, hib, ib', hadd, fb', hstart, rfl⟩ := hrun
    subst hb₁
    rw [List.take_left] at hadd
    rw [BlockBuilder.add_eq_push hadd]
    have hib : b.indexBlock = some ib := hib
    have hnew : (BlockBuilder.new b.opt).sizeEstimate = 8 := rfl
    have hindex := ib.push_sizeEstimate sep handle.encode
    have hfilters := FilterBlockBuilder.startBlock_sizeEstimate hstart
    have hlength := block.finish_length
    refine ⟨List.prefix_append _ _, rfl, ?_⟩
    simp only [TableBuilder.sizeEstimate, appended, hblock, hib, hfb, Option.map_some,
      Option.getD_some, hnew, leastBytes, List.map_nil, List.sum_nil]
    omega

/-- An entry that is appended grows the data block. -/
theorem append_grows (hrun : b.append key val = .ok (.ok (), b')) : Grows [(key, val)] b b' := by
  simp only [append, bind_eq_ok_iff, unwrap_eq_ok_iff, pure_eq_ok, Except.ok.injEq, Prod.mk.injEq,
    true_and] at hrun
  obtain ⟨dblock, hblock, dblock', hadd, rfl⟩ := hrun
  rw [BlockBuilder.add_eq_push hadd]
  have hdata := dblock.push_sizeEstimate key val
  have hfilters : (b.filterBlock.map fun fblock => fblock.addKey key).map
      FilterBlockBuilder.sizeEstimate = b.filterBlock.map FilterBlockBuilder.sizeEstimate := by
    rw [Option.map_map]
    rfl
  refine ⟨List.prefix_rfl, rfl, ?_⟩
  simp only [TableBuilder.sizeEstimate, hblock, hfilters, Option.map_some, Option.getD_some,
    leastBytes, List.map_cons, List.map_nil, List.sum_cons, List.sum_nil]
  omega

theorem add_grows (hb : Lays opt blocks current b)
    (hctype : opt.compressionType = .CompressionNone)
    (hrun : b.add key val = .ok (.ok (), b')) : Grows [(key, val)] b b' := by
  simp only [TableBuilder.add, bind_eq_ok_iff, ensure_eq_ok_iff, unwrap_eq_ok_iff] at hrun
  obtain ⟨_, -, _, -, dblock, -, hrun⟩ := hrun
  by_cases hfull : dblock.sizeEstimate > b.opt.blockSize
  · rw [if_pos hfull, bind_eq_ok_iff] at hrun
    obtain ⟨⟨flushed, b₁⟩, hflush, hrun⟩ := hrun
    cases flushed with
    | error e => simp at hrun
    | ok u => exact (writeDataBlock_grows hb hctype hflush).trans (append_grows hrun)
  · rw [if_neg hfull, pure_eq_ok, ok_bind] at hrun
    exact append_grows hrun

/-- Entries that are added grow the table one after the other. -/
theorem addAll_grows (hb : Lays opt blocks current b)
    (hctype : opt.compressionType = .CompressionNone)
    (hrun : b.addAll es = .ok (.ok (), b')) : Grows es b b' := by
  induction es generalizing b blocks current with
  | nil =>
      simp only [TableBuilder.addAll, pure_eq_ok, Except.ok.injEq, Prod.mk.injEq, true_and] at hrun
      subst hrun
      exact .refl b
  | cons e es ih =>
      obtain ⟨key, val⟩ := e
      simp only [TableBuilder.addAll, bind_eq_ok_iff, Prod.exists] at hrun
      obtain ⟨added, b₁, hadd, hrun⟩ := hrun
      cases added with
      | error e => simp at hrun
      | ok u =>
          obtain ⟨blocks₁, current₁, hb₁, -⟩ := hb.add hadd
          exact (add_grows hb hctype hadd).trans (ih hb₁ hrun)

/-! ## The end of a table -/

theorem flushPending_grows (hb : Lays opt blocks current b)
    (hctype : opt.compressionType = .CompressionNone)
    (hrun : b.flushPending = .ok (.ok (), b')) : Grows [] b b' := by
  simp only [TableBuilder.flushPending, hb.data_eq, unwrap_some, ok_bind] at hrun
  split at hrun
  · exact writeDataBlock_grows hb hctype hrun
  · rw [pure_eq_ok, Except.ok.injEq, Prod.mk.injEq] at hrun
    obtain ⟨-, rfl⟩ := hrun
    exact .refl b

/-- The filter block is not shorter than it was estimated. -/
theorem writeFilterBlock_grows {fb : FilterBlockBuilder} (hfb : b.filterBlock = some fb)
    {ib ib' : BlockBuilder} (hrun : b.writeFilterBlock ib = .ok (.ok ib', b')) :
    Grows [] b b' ∧ b'.dataBlock = b.dataBlock ∧ b'.filterBlock = none := by
  simp only [TableBuilder.writeFilterBlock, hfb, bind_eq_ok_iff] at hrun
  obtain ⟨data, hdata, hrun⟩ := hrun
  rcases hwrite : ({ b with filterBlock := none } : TableBuilder Bytes).writeBlock data
    .CompressionNone with ⟨e | handle, b₁⟩
  · simp only [hwrite] at hrun
    simp at hrun
  · obtain rfl := writeBlock_uncompressed rfl hwrite
    simp only [hwrite, bind_eq_ok_iff, pure_eq_ok, Except.ok.injEq, Prod.mk.injEq] at hrun
    obtain ⟨_, -, ib'', -, -, rfl⟩ := hrun
    have hlength := FilterBlockBuilder.sizeEstimate_le_finish hdata
    refine ⟨⟨List.prefix_append _ _, rfl, ?_⟩, rfl, rfl⟩
    simp only [TableBuilder.sizeEstimate, appended, hfb, Option.map_some, Option.map_none,
      Option.getD_some, Option.getD_none, leastBytes, List.map_nil, List.sum_nil]
    omega

/-- A finished table is not shorter than it was estimated: what follows the filter block takes more
than the empty data block that is left. -/
theorem finish_grows (hb : Lays opt blocks current b)
    (hctype : opt.compressionType = .CompressionNone) {n : Nat} {img : Bytes}
    (hrun : b.finish = .ok (.ok n, img)) : b.sizeEstimate ≤ n ∧ b.dst <+: img := by
  simp only [TableBuilder.finish, bind_eq_ok_iff, ensure_eq_ok_iff] at hrun
  obtain ⟨_, -, ⟨flushed, b₁⟩, hflush, hrun⟩ := hrun
  cases flushed with
  | error e => simp at hrun
  | ok u =>
      obtain ⟨blocks₁, hb₁, -⟩ := hb.flushPending hflush
      have hgrows₁ := flushPending_grows hb hctype hflush
      obtain ⟨fb, hfb, -⟩ := hb₁.filter_eq
      simp only [bind_eq_ok_iff] at hrun
      obtain ⟨⟨filtered, b₂⟩, hfilter, hrun⟩ := hrun
      cases filtered with
      | error e => simp at hrun
      | ok ib =>
          obtain ⟨hgrows₂, hdata, hnone⟩ := writeFilterBlock_grows hfb hfilter
          have hgrows := hgrows₁.trans hgrows₂
          simp only at hrun
          rcases hmeta : b₂.writeBlock ib.finish b.opt.compressionType with ⟨e | metaHandle, b₃⟩
          · simp only [hmeta] at hrun
            simp at hrun
          · have hb₃ := writeBlock_uncompressed (hb.opt_eq ▸ hctype) hmeta
            simp only [hmeta, bind_eq_ok_iff, unwrap_eq_ok_iff] at hrun
            obtain ⟨index, hindex, hrun⟩ := hrun
            rcases hlast : ({ b₃ with indexBlock := none } : TableBuilder Bytes).writeBlock
              index.finish b.opt.compressionType with ⟨e | indexHandle, b₄⟩
            · simp only [hlast] at hrun
              simp at hrun
            · have hb₄ := writeBlock_uncompressed (hb.opt_eq ▸ hctype) hlast
              simp only [hlast, writeFooter_iff] at hrun
              obtain ⟨buf, hbuf, rfl, rfl⟩ := hrun
              have hfooter := Footer.encode_length hbuf
              rw [List.length_replicate] at hfooter
              subst hb₃
              subst hb₄
              have hindex : b₂.indexBlock = some index := hindex
              have hempty : (BlockBuilder.pushAll opt []).sizeEstimate = 8 := rfl
              have hlength := index.finish_length
              have hle := hgrows.estimate
              constructor
              · simp only [TableBuilder.sizeEstimate, hdata, hb₁.data_eq, hnone, hindex,
                  Option.map_some, Option.map_none, Option.getD_some, Option.getD_none, hempty]
                  at hle ⊢
                simp only [appended, hfooter]
                omega
              · refine hgrows.dst.trans ?_
                simp only [appended, List.append_assoc]
                exact List.prefix_append _ _

/-- Adding entries in two parts. -/
theorem addAll_append {xs ys : List Entry} (hrun : b.addAll (xs ++ ys) = .ok (.ok (), b'')) :
    ∃ b', b.addAll xs = .ok (.ok (), b') ∧ b'.addAll ys = .ok (.ok (), b'') := by
  induction xs generalizing b with
  | nil => exact ⟨b, rfl, hrun⟩
  | cons e xs ih =>
      obtain ⟨key, val⟩ := e
      simp only [List.cons_append, TableBuilder.addAll, bind_eq_ok_iff, Prod.exists] at hrun
      obtain ⟨added, b₁, hadd, hrun⟩ := hrun
      cases added with
      | error e => simp at hrun
      | ok u =>
          obtain ⟨b', hfirst, hsecond⟩ := ih hrun
          refine ⟨b', ?_, hsecond⟩
          simp only [TableBuilder.addAll, hadd, ok_bind]
          exact hfirst

end TableBuilder

/-- In every run that writes a table without compression, from any point to any later one, the builder
counts the entries, and its estimate grows at least by the values and three lengths for each of them
and never exceeds the length of the finished table; what was written at any time is at the front of
what is written later. -/
theorem estimate_below [Crates] (opt : Options) (es es' es'' : List Entry) (n : Nat) (img : Bytes)
    (hctype : opt.compressionType = .CompressionNone)
    (hwrite : TableBuilder.writeTable opt [] (es ++ es' ++ es'') = .ok (.ok n, img)) :
    ∃ b b' b'' : TableBuilder Bytes,
      (TableBuilder.new opt []).addAll es = .ok (.ok (), b) ∧
      b.addAll es' = .ok (.ok (), b') ∧ b'.addAll es'' = .ok (.ok (), b'') ∧
      b''.finish = .ok (.ok n, img) ∧
      b.entries = es.length ∧ b'.entries = es.length + es'.length ∧
      b.sizeEstimate + leastBytes es' ≤ b'.sizeEstimate ∧ b'.sizeEstimate ≤ n ∧
      b.dst <+: b'.dst ∧ b'.dst <+: img := by
  simp only [TableBuilder.writeTable, bind_eq_ok_iff, Prod.exists] at hwrite
  obtain ⟨added, b'', hadd, hfinish⟩ := hwrite
  cases added with
  | error e => simp at hfinish
  | ok u =>
      obtain ⟨b', hboth, hthird⟩ := TableBuilder.addAll_append hadd
      obtain ⟨b, hfirst, hsecond⟩ := TableBuilder.addAll_append hboth
      obtain ⟨blocks, current, hb, -⟩ := (TableBuilder.lays_new opt).addAll hfirst
      obtain ⟨blocks', current', hb', -⟩ := hb.addAll hsecond
      obtain ⟨blocks'', current'', hb'', -⟩ := hb'.addAll hthird
      have hgrows := TableBuilder.addAll_grows (TableBuilder.lays_new opt) hctype hfirst
      have hgrows' := TableBuilder.addAll_grows hb hctype hsecond
      have hgrows'' := TableBuilder.addAll_grows hb' hctype hthird
      obtain ⟨hle, hdst⟩ := TableBuilder.finish_grows hb'' hctype hfinish
      have hcount : b.entries = es.length := by
        rw [hgrows.entries]
        exact Nat.zero_add _
      have hlater := hgrows''.estimate
      refine ⟨b, b', b'', hfirst, hsecond, hthird, hfinish, hcount, ?_, hgrows'.estimate, ?_,
        hgrows'.dst, hgrows''.dst.trans hdst⟩
      · rw [hgrows'.entries, hcount]
      · omega

/-- The table of three keys, from the first of them to the second. -/
theorem estimate_below_neighbours : letI := referenceCrates
    ∃ b b' b'' : TableBuilder Bytes,
      (TableBuilder.new tinyBlocks []).addAll [([97], [1])] = .ok (.ok (), b) ∧
      b.addAll [([97, 0], [2])] = .ok (.ok (), b') ∧ b'.addAll [([98], [3])] = .ok (.ok (), b'') ∧
      b''.finish = .ok (.ok 211, neighboursImage) ∧ b.entries = 1 ∧ b'.entries = 1 + 1 ∧
      b.sizeEstimate + leastBytes [([97, 0], [2])] ≤ b'.sizeEstimate ∧
      b'.sizeEstimate ≤ 211 ∧ b.dst <+: b'.dst ∧ b'.dst <+: neighboursImage :=
  letI := referenceCrates
  estimate_below tinyBlocks [([97], [1])] [([97, 0], [2])] [([98], [3])] 211 neighboursImage rfl
    neighboursImage_eq

end SSTable
