import SSTable.Model.ReferenceCrates
import SSTable.Verification.Table.Filtering
import SSTable.Verification.Table.Order
import SSTable.Verification.Table.Scanning

/-!
# Writing and reading back

A sorted sequence of entries within the limits of the format is written without a failing
assertion, and an iterator over the opened table reads it back.

Main results:

- Theorem {lit}`writeTable_of_sorted`: a sorted sequence is written.
- Theorem {lit}`table_round_trip`: it is read back, whatever options the reader has.
-/

namespace SSTable

open Foundation Foundation.Exec Foundation.Bytes

section

variable [Crates]

/-- The limits of the format: blocks below 2^32 bytes, files below 2^40 bytes, bloom filters
below 2^32 bits. -/
structure SizeLimits (opt : Options) (es : List Entry) : Prop extends BlockLimits opt es where
  filter_lt : ∀ fb, filterBytes opt (cuts opt es) = .ok fb → fb.length < 2 ^ 32
  data_file_lt : (dataBytes opt (cuts opt es)).length < 2 ^ 40
  file_lt : ∀ fb, filterBytes opt (cuts opt es) = .ok fb →
    (fileBytes opt (cuts opt es) fb).length < 2 ^ 40
  filters : FilterLimits opt (cuts opt es)

/-- The compressor takes the blocks of a table. -/
structure Compresses (opt : Options) (es : List Entry) : Prop where
  data : ∀ c ∈ cuts opt es, ∃ d, compressBlock opt.compressionType (c.contents opt) = .ok d
  index : ∃ d, compressBlock opt.compressionType (indexContents opt (cuts opt es)) = .ok d
  metaIndex : ∀ fb, filterBytes opt (cuts opt es) = .ok fb →
    ∃ d, compressBlock opt.compressionType (metaIndexContents opt (cuts opt es) fb) = .ok d

variable {opt : Options} {es : List Entry}

theorem compressBlock_stored {ctype : CompressionType} {block : Bytes}
    (h : ∃ d, compressBlock ctype block = .ok d) :
    compressBlock ctype block = .ok (stored ctype block) := by
  obtain ⟨d, hd⟩ := h
  rw [hd, stored_of_ok hd]

/-! ## Every block can be written -/

/-- Every block of a sorted table can be written behind the blocks before it. -/
theorem flushes_of_sorted (hr : 1 ≤ opt.blockRestartInterval)
    (hinc : Increasing es) (hkeys : NonEmptyKeys es)
    (hlimits : SizeLimits opt es) (hcompress : Compresses opt es) {i : Nat} {c : Cut}
    (hc : (cuts opt es)[i]? = some c) : TableBuilder.Flushes opt ((cuts opt es).take i) c := by
  have hmem := List.mem_of_getElem? hc
  have htake : (cuts opt es).take i ++ [c] = (cuts opt es).take (i + 1) := by
    rw [List.take_add_one, hc]
    rfl
  obtain ⟨fs, hfilters, -⟩ := filters_spec hlimits.filters
    (fun c hc => cut_nonEmptyKeys hkeys hc) hlimits.data_lt
    (lt_trans hlimits.data_file_lt (by decide))
  obtain ⟨fb, hfb, -⟩ := bind_eq_ok_iff.mp hfilters
  refine ⟨(Cut.sep_spec (cut_lt_nextKey hinc hkeys hmem)).1,
    compressBlock_stored (hcompress.data c hmem), ?_, BlockBuilder.pushAll_restartCounter_le hr _,
    ?_, ?_⟩
  · have hlen := congrArg (fun xs => (dataBytes opt xs).length) (List.take_append_drop (i + 1)
      (cuts opt es))
    rw [← htake] at hlen
    simp only [dataBytes_append, List.length_append, dataBytes_cons, envelope_length] at hlen
    have hlt := hlimits.data_file_lt
    apply BlockHandle.encode_length_le
    · simp only [Cut.handle]
      omega
    · simp only [Cut.handle]
      omega
  · have hindex : Increasing (indexEntries opt ((cuts opt es).take i ++ [c])) := by
      rw [htake, Increasing, keysOf_indexEntries, List.map_take]
      apply List.Pairwise.sublist (List.take_sublist _ _)
      exact seps_pairwise_of_lt hinc fun _ hc => cut_lt_nextKey hinc hkeys hc
    rw [indexEntries_append] at hindex
    exact (increasing_concat_iff.mp hindex).2.imp_left TableBuilder.indexEntries_eq_nil_iff.mp
  · rw [htake]
    have hfb' : TableBuilder.filtersOf opt (cuts opt es) = .ok fb := hfb
    rw [← List.take_append_drop (i + 1) (cuts opt es)] at hfb'
    exact filtersOf_prefix hfb'

/-- The complete blocks of a draft are the first blocks of every table that it grows into. -/
theorem draft_done_prefix (opt : Options) (pre rest : List Entry) :
    ∃ ys, cuts opt (pre ++ rest) = (draft opt pre).done ++ ys := by
  have hdone : ∃ ys, (draft opt (pre ++ rest)).done = (draft opt pre).done ++ ys := by
    induction rest using List.reverseRecOn with
    | nil => exact ⟨[], by simp⟩
    | append_singleton rest e ih =>
        obtain ⟨ys, hys⟩ := ih
        rw [← List.append_assoc, draft_concat, Draft.add]
        split
        · exact ⟨ys ++ [{ entries := (draft opt (pre ++ rest)).current, nextKey := e.1 }], by
            rw [hys, List.append_assoc]⟩
        · exact ⟨ys, hys⟩
  obtain ⟨ys, hys⟩ := hdone
  rw [cuts, Draft.close]
  split
  · exact ⟨ys, hys⟩
  · exact ⟨_, by rw [hys, List.append_assoc]⟩

/-- The last key of the last complete block is a key, unless there is none. -/
theorem prevKey_mem (opt : Options) (pre : List Entry) :
    (draft opt pre).prevKey = [] ∨ (draft opt pre).prevKey ∈ keysOf pre := by
  unfold Draft.prevKey
  cases hlast : (draft opt pre).done.getLast? with
  | none => exact Or.inl rfl
  | some c =>
      by_cases hnil : c.entries = []
      · exact Or.inl (by simp [hnil])
      · right
        have hmem := mem_keysOf_entriesOf (List.getLast?_eq_getElem? ▸ hlast) (lastKeyOf_mem hnil)
        rw [← flatten_draft opt pre, keysOf_append, List.mem_append]
        exact Or.inl hmem

/-- Every entry of a sorted sequence is accepted. -/
theorem accepts_of_sorted (hr : 1 ≤ opt.blockRestartInterval)
    {pre rest : List Entry} {e : Entry}
    (hes : es = pre ++ e :: rest) (hinc : Increasing es) (hkeys : NonEmptyKeys es)
    (hlimits : SizeLimits opt es) (hcompress : Compresses opt es) :
    TableBuilder.Accepts opt (draft opt pre) e.1 := by
  have hbelow : ∀ k ∈ keysOf pre, k < e.1 := by
    rw [hes] at hinc
    intro k hk
    exact (increasing_append_iff.mp hinc).2.2 k hk e.1 (by simp)
  refine ⟨(prevKey_mem opt pre).imp_right fun h => hbelow _ h, ?_, ?_⟩
  · intro hfull
    have hadd : (draft opt (pre ++ [e])).done = (draft opt pre).done ++
        [{ entries := (draft opt pre).current, nextKey := e.1 }] := by
      rw [draft_concat, Draft.add, if_pos hfull]
    obtain ⟨ys, hys⟩ := draft_done_prefix opt (pre ++ [e]) rest
    have hsplit : es = pre ++ [e] ++ rest := by simp [hes]
    rw [← hsplit, hadd, List.append_assoc] at hys
    have hc : (cuts opt es)[(draft opt pre).done.length]? =
        some { entries := (draft opt pre).current, nextKey := e.1 } := by
      rw [hys, List.getElem?_append_right le_rfl]
      simp
    have hflushes := flushes_of_sorted hr hinc hkeys hlimits hcompress hc
    rwa [hys, List.take_left] at hflushes
  · intro _
    refine ⟨BlockBuilder.pushAll_restartCounter_le hr _, ?_⟩
    by_cases hnil : (draft opt pre).current = []
    · exact Or.inl hnil
    · have hmem := List.mem_append_right (keysOf (entriesOf (draft opt pre).done))
        (lastKeyOf_mem hnil)
      rw [← keysOf_append, flatten_draft] at hmem
      exact Or.inr (hbelow _ hmem)

/-- A sorted sequence is accepted. -/
theorem acceptsAll_of_sorted (hr : 1 ≤ opt.blockRestartInterval)
    (hinc : Increasing es) (hkeys : NonEmptyKeys es)
    (hlimits : SizeLimits opt es) (hcompress : Compresses opt es) :
    TableBuilder.AcceptsAll opt .empty es := by
  have hall : ∀ rest pre, es = pre ++ rest → TableBuilder.AcceptsAll opt (draft opt pre) rest := by
    intro rest
    induction rest with
    | nil => exact fun _ _ => trivial
    | cons e rest ih =>
        intro pre hes
        refine ⟨accepts_of_sorted hr hes hinc hkeys hlimits hcompress, ?_⟩
        rw [← draft_concat]
        exact ih (pre ++ [e]) (by simp [hes])
  exact hall es [] rfl

/-- A sorted sequence within the limits of the format is written. -/
theorem writeTable_of_sorted (hcmp : opt.cmp = DefaultCmp) (hr : 1 ≤ opt.blockRestartInterval)
    (hinc : Increasing es) (hkeys : NonEmptyKeys es)
    (hlimits : SizeLimits opt es) (hcompress : Compresses opt es) :
    ∃ img, TableBuilder.writeTable opt ([] : Bytes) es = .ok (.ok img.length, img) ∧
      img.length < 2 ^ 40 := by
  obtain ⟨fs, hfilters, -⟩ := filters_spec hlimits.filters
    (fun c hc => cut_nonEmptyKeys hkeys hc) hlimits.data_lt
    (lt_trans hlimits.data_file_lt (by decide))
  obtain ⟨fb, hfb⟩ : ∃ fb, fb = filterBlockBytes fs := ⟨_, rfl⟩
  rw [← hfb] at hfilters
  have hfile := hlimits.file_lt fb hfilters
  have hbody : (bodyBytes opt (cuts opt es) fb).length ≤
      (fileBytes opt (cuts opt es) fb).length := by
    rw [fileBytes, List.length_append]
    omega
  have hshort : (fileFooter opt (cuts opt es) fb).Short :=
    TableBuilder.footer_short (lt_trans (lt_of_le_of_lt hbody hfile) (by decide))
  have hpending : TableBuilder.FlushesPending opt (draft opt es) := by
    intro hne
    have hcuts : cuts opt es = (draft opt es).done ++ [{ entries := (draft opt es).current
                                                         nextKey := DefaultCmp.findShortSucc
                                                          (lastKeyOf (draft opt es).current) }] := by
      rw [cuts, Draft.close, if_neg hne]
    have hflushes := flushes_of_sorted hr hinc hkeys hlimits hcompress
      (i := (draft opt es).done.length) (by rw [hcuts, List.getElem?_concat_length])
    rwa [hcuts, List.take_left] at hflushes
  have hfinishes : TableBuilder.Finishes opt (cuts opt es) fb := by
    refine ⟨hfilters, ?_, compressBlock_stored (hcompress.metaIndex fb hfilters),
      compressBlock_stored hcompress.index⟩
    have hfilter := hlimits.filter_lt fb hfilters
    have hdata := hlimits.data_file_lt
    apply BlockHandle.encode_length_le
    · simp only [filterHandle]
      omega
    · simp only [filterHandle]
      omega
  refine ⟨fileBytes opt (cuts opt es) fb, (TableBuilder.writeTable_iff hcmp).mpr
    ⟨acceptsAll_of_sorted hr hinc hkeys hlimits hcompress, hpending, fb, hfinishes,
      (fileFooter opt (cuts opt es) fb).bytes, Footer.encode_eq hshort, rfl, ?_⟩, hfile⟩
  rw [fileBytes, List.length_append]

end

/-- What is written is read back: a sorted sequence within the limits of the format is written
without a failing assertion, the file is opened with any options with the same comparator, and
a fresh iterator yields the sequence and then ends. -/
theorem table_round_trip [Crates] (opt : Options) (es : List Entry) (hcmp : opt.cmp = DefaultCmp)
    (hr : 1 ≤ opt.blockRestartInterval)
    (hinc : Increasing es) (hkeys : NonEmptyKeys es) (hlimits : SizeLimits opt es)
    (hcompress : Compresses opt es) :
    ∃ img, TableBuilder.writeTable opt ([] : Bytes) es = .ok (.ok img.length, img) ∧
      ∀ (ropt : Options) (c : BlockCache), ropt.cmp = DefaultCmp → c.Reachable →
        c.id + 1 < wordLimit →
        ∃ t c₁ it it' c₂, Table.new ropt (BufferBackedFile img) img.length c = .ok (.ok t, c₁) ∧
          t.iter = .ok it ∧
          TableIterator.collect (es.length + 1) it c₁ = .ok (es, it', c₂) := by
  obtain ⟨img, hwrite, hsize⟩ :=
    writeTable_of_sorted hcmp hr hinc hkeys hlimits hcompress
  refine ⟨img, hwrite, ?_⟩
  intro ropt c hrcmp hc hid
  obtain ⟨fb, hs, t, reader, -, hnew, -, hshows, hserves, -⟩ := open_written hcmp hrcmp
    hlimits.toBlockLimits hwrite (hsize.le.trans (by decide))
    (defectiveData_none opt ropt (cuts opt es) img) hc hid
  obtain ⟨it, hiter, hfresh⟩ := TableIterator.iter_spec hshows
  have hentries : (hs.view fun _ => false).entries = es := by
    rw [hs.view_entries, readable_none, flatten_cuts]
  obtain ⟨it', c₂, hcollect, -⟩ := TableIterator.collect_spec hshows
    (hs.view_ordered _ hinc hkeys) hserves hfresh.toReset.ready (Nat.zero_le _)
  rw [hentries] at hcollect
  exact ⟨t, _, it, it', c₂, hnew, hiter, hcollect⟩

/-! ## A table of three keys -/

/-- Three keys; the second is the separator that lies above the first. -/
def neighbours : List Entry := [([97], [1]), ([97, 0], [2]), ([98], [3])]

/-- The file that holds the three keys, each in a block of its own. -/
def neighboursImage : Bytes :=
  letI := referenceCrates
  match TableBuilder.writeTable tinyBlocks ([] : Bytes) neighbours with
  | .ok (_, img) => img
  | .error _ => []

/-- The filter block of the file. -/
def neighboursFilters : Bytes :=
  letI := referenceCrates
  match filterBytes tinyBlocks (cuts tinyBlocks neighbours) with
  | .ok fb => fb
  | .error _ => []

set_option maxRecDepth 10000 in
/-- What there is to compute about the file. -/
theorem neighbours_facts : letI := referenceCrates
    TableBuilder.writeTable tinyBlocks ([] : Bytes) neighbours = .ok (.ok 211, neighboursImage) ∧
      filterBytes tinyBlocks (cuts tinyBlocks neighbours) = .ok neighboursFilters ∧
      neighboursImage.length = 211 ∧
      (∀ c ∈ cuts tinyBlocks neighbours, (c.contents tinyBlocks).length < 2 ^ 32) ∧
      (indexContents tinyBlocks (cuts tinyBlocks neighbours)).length < 2 ^ 32 ∧
      (metaIndexContents tinyBlocks (cuts tinyBlocks neighbours) neighboursFilters).length <
        2 ^ 32 ∧
      filterFeed tinyBlocks (cuts tinyBlocks neighbours) =
        [([[97]], 18), ([[97, 0]], 37), ([[98]], 55)] ∧
      neighboursFilters.length < 2 ^ 32 ∧
      (dataBytes tinyBlocks (cuts tinyBlocks neighbours)).length = 55 ∧
      (fileBytes tinyBlocks (cuts tinyBlocks neighbours) neighboursFilters).length < 2 ^ 40 ∧
      (place tinyBlocks 0 (cuts tinyBlocks neighbours)).map Prod.snd =
        [{ offset := 0, size := 13 }, { offset := 18, size := 14 },
          { offset := 37, size := 13 }] ∧
      (cuts tinyBlocks neighbours).map Cut.sep = [[97, 0], [97, 0, 0], [98, 0]] := by
  decide +kernel

theorem neighboursImage_eq : letI := referenceCrates
    TableBuilder.writeTable tinyBlocks ([] : Bytes) neighbours = .ok (.ok 211, neighboursImage) :=
  neighbours_facts.1

theorem neighboursFilters_eq : letI := referenceCrates
    filterBytes tinyBlocks (cuts tinyBlocks neighbours) = .ok neighboursFilters :=
  neighbours_facts.2.1

theorem neighboursImage_length : neighboursImage.length = 211 :=
  neighbours_facts.2.2.1

theorem neighboursImage_small : neighboursImage.length ≤ maxAllocation :=
  neighboursImage_length.trans_le (by decide)

theorem neighbours_compresses : letI := referenceCrates
    Compresses tinyBlocks neighbours :=
  letI := referenceCrates
  ⟨fun _ _ => ⟨_, rfl⟩, ⟨_, rfl⟩, fun _ _ => ⟨_, rfl⟩⟩

theorem neighbours_blockLimits : letI := referenceCrates
    BlockLimits tinyBlocks neighbours := by
  let := referenceCrates
  obtain ⟨-, hfilters, -, hdata, hindex, hmeta, -⟩ := neighbours_facts
  refine ⟨hdata, hindex, ?_⟩
  intro fb hfb
  rw [hfilters, Except.ok.injEq] at hfb
  rwa [← hfb]

/-- All keys are in the filter of the first range. -/
theorem neighbours_bloomLimits : letI := referenceCrates
    BloomLimits (BloomPolicy.new 10) tinyBlocks (cuts tinyBlocks neighbours) := by
  let := referenceCrates
  obtain ⟨-, -, -, -, -, -, hfeed, -⟩ := neighbours_facts
  intro g
  rw [hfeed]
  by_cases hg : g = 0
  · subst hg
    decide
  · have hnone : rangeKeys 0 [([[97]], 18), ([[97, 0]], 37), ([[98]], 55)] g = [] := by
      simp [rangeKeys, Ne.symm hg]
    rw [hnone]
    decide

theorem neighbours_sizeLimits : letI := referenceCrates
    SizeLimits tinyBlocks neighbours := by
  let := referenceCrates
  obtain ⟨-, hfilters, -, -, -, -, -, hlen, hdata, hfile, -⟩ := neighbours_facts
  refine ⟨neighbours_blockLimits, ?_, hdata.trans_lt (by decide), ?_,
    Or.inr ⟨_, rfl, neighbours_bloomLimits⟩⟩
  · intro fb hfb
    obtain rfl := Except.ok.inj (hfilters.symm.trans hfb)
    exact hlen
  · intro fb hfb
    obtain rfl := Except.ok.inj (hfilters.symm.trans hfb)
    exact hfile

/-- A cache for four blocks. -/
def smallCache : BlockCache where
  list := LRUList.new
  map := []
  cap := 4
  id := 0

theorem smallCache_reachable : smallCache.Reachable :=
  .new (show Cache.new 4 = .ok smallCache from rfl)

/-- The table of three keys, written in small blocks and read with the default options. -/
theorem table_round_trip_neighbours : letI := referenceCrates
    ∃ img t c₁ it it' c₂,
      TableBuilder.writeTable tinyBlocks ([] : Bytes) neighbours = .ok (.ok img.length, img) ∧
      Table.new .default (BufferBackedFile img) img.length smallCache = .ok (.ok t, c₁) ∧
      t.iter = .ok it ∧ TableIterator.collect 4 it c₁ = .ok (neighbours, it', c₂) := by
  let := referenceCrates
  obtain ⟨img, hwrite, hread⟩ := table_round_trip tinyBlocks neighbours rfl (by decide) (by decide)
    (by decide) neighbours_sizeLimits neighbours_compresses
  obtain ⟨t, c₁, it, it', c₂, hnew, hiter, hcollect⟩ :=
    hread .default smallCache rfl smallCache_reachable (by decide)
  exact ⟨img, t, c₁, it, it', c₂, hwrite, hnew, hiter, hcollect⟩

end SSTable
