import SSTable.Foundation.Runs
import SSTable.Verification.Table.Defects
import SSTable.Verification.Table.Resetting

/-!
# Iterators are cursors

Whatever is called on an iterator, in whatever order and whether it is valid or not, it shows what a
cursor shows that remembers its last position: a block iterator shows a cursor over the entries of
its block, and a table iterator a cursor over runs of entries behind an index.

Main results:

- Theorem {lit}`block_refines_trail`: a block that was built and read back is its list of entries.
- Theorem {lit}`table_refines_runs`: a table that was written and opened is its cuts and their
  separators, whichever of its data blocks can be read.
-/

namespace SSTable

open Foundation Foundation.Exec Foundation.Bytes

/-! ## Blocks -/

/-- Whatever is done with an iterator over a block that was built of sorted entries, it shows what a
cursor over the entries shows, and panics where that has nowhere to go. -/
theorem block_refines_trail [Crates] (opt ropt : Options) (es : List Entry)
    (hcmp : opt.cmp = DefaultCmp) (hrcmp : ropt.cmp = DefaultCmp)
    (hr : 1 ≤ opt.blockRestartInterval) (hinc : Increasing es) (hkeys : NonEmptyKeys es) :
    ∃ b, (BlockBuilder.new opt).addAll es = .ok b ∧
      (b.finish.length < 2 ^ 32 →
        ∃ block it, Block.new ropt b.finish = .ok block ∧ block.iter = .ok it ∧
          ∀ ops, observe BlockIter.step it ops = observe (trailStep es) .start ops) := by
  refine ⟨_, BlockBuilder.addAll_new hcmp hr hinc, ?_⟩
  intro hsmall
  obtain ⟨L, rfl, hfinish⟩ := BlockBuilder.exists_layout opt es
  rw [hfinish] at hsmall ⊢
  obtain ⟨it, hiter, htracked⟩ := BlockIter.tracked_iter
    (b := { block := L.contents, opt := ropt }) hsmall hrcmp rfl
  have hord := BlockLayout.ordered_of_entries hinc hkeys
  have hstep : ∀ (it : BlockIter) (τ : Trail) (op : BlockOp), BlockIter.Tracked L τ it →
      Mirrors (fun it τ => BlockIter.Tracked L τ it) (it.step op) (trailStep L.entries τ op) :=
    fun it τ op h => h.observed_step hord op
  exact ⟨_, it, Block.new_contents L ropt, hiter, observe_mirrors hstep htracked⟩

/-- An iterator over the block of three keys. -/
theorem block_refines_trail_neighbours : letI := referenceCrates
    ∃ b, (BlockBuilder.new .default).addAll neighbours = .ok b ∧
      (b.finish.length < 2 ^ 32 →
        ∃ block it, Block.new .default b.finish = .ok block ∧ block.iter = .ok it ∧
          ∀ ops, observe BlockIter.step it ops = observe (trailStep neighbours) .start ops) :=
  letI := referenceCrates
  block_refines_trail .default .default neighbours rfl rfl (by decide) (by decide) (by decide)

/-! ## Tables -/

/-- The runs of entries of a table. -/
abbrev TableRuns := IndexedRuns Bytes Bytes

/-- The result of an operation on a cursor over runs. -/
def TableOp.onRuns (r : TableRuns) (p : RunCursor) : TableOp → Exec (Option Bool × RunCursor)
  | .advance => pure (some (r.entry (r.advance p)).isSome, r.advance p)
  | .seek target => pure (none, r.seek target)
  | .reset => pure (none, p.clear)
  | .prev => do
      let (moved, p) ← r.prev p
      pure (some moved, p)

/-- An observed step of a cursor over runs. -/
def runsStep (r : TableRuns) (p : RunCursor) (op : TableOp) :
    Exec (Observation × RunCursor) := do
  let (moved, p) ← op.onRuns r p
  pure (.of moved (r.entry p), p)

/-- The place of a cursor as a trail. -/
def TableTrail.ofCursor (p : RunCursor) : TableTrail := ⟨p.index, p.run⟩

section

variable [Crates]

/-- The entries that a writer puts in runs, and the separators of the runs as their index.  Some
runs cannot be read. -/
def writtenRuns (opt : Options) (es : List Entry) (bad : Nat → Bool) : TableRuns where
  index := (cuts opt es).map Cut.sep
  runs := (cuts opt es).mapIdx fun i b => if bad i then none else some b.entries
  length_eq := by rw [List.length_map, List.length_mapIdx]

namespace TableView

/-- The view consists of the runs. -/
structure ShowsRuns (v : TableView) (r : TableRuns) : Prop where
  index_eq : v.index.keys = r.index
  runs_eq : v.blocks.map (Option.map BlockLayout.entries) = r.runs

variable {v : TableView} {r : TableRuns} {p : RunCursor}

theorem ShowsRuns.run_eq (h : v.ShowsRuns r) (i : Nat) :
    r.runs[i]? = v.blocks[i]?.map (Option.map BlockLayout.entries) := by
  rw [← h.runs_eq, List.getElem?_map]

theorem ShowsRuns.entriesAt_eq (h : v.ShowsRuns r) (i : Nat) : r.entriesAt i = v.entriesAt i := by
  rw [IndexedRuns.entriesAt, entriesAt, h.run_eq]
  rcases v.blocks[i]? with _ | _ | L
  · rfl
  · rfl
  · rfl

theorem ShowsRuns.entry_eq (h : v.ShowsRuns r) :
    (TableTrail.ofCursor p).entry v = r.entry p := by
  simp only [TableTrail.entry, TableTrail.ofCursor, IndexedRuns.entry, h.entriesAt_eq]

theorem ShowsRuns.beyond_eq (h : v.ShowsRuns r) :
    (⟨⟨none, v.handles.length - 1⟩, none⟩ : TableTrail) = .ofCursor r.beyond := by
  have hlen : v.handles.length = r.index.length := by
    rw [← h.index_eq, ← v.slots_length, BlockLayout.keys, List.length_map]
  rw [IndexedRuns.beyond, TableTrail.ofCursor, hlen]

/-- Blocks without entries do not move the start of the next one. -/
theorem start_eq_of_empty {n i : Nat} (hle : n ≤ i)
    (hempty : ∀ j, n ≤ j → j < i → v.entriesAt j = []) : v.start i = v.start n := by
  induction hle with
  | refl => rfl
  | @step i hle ih =>
      rw [← ih fun j hj hlt => hempty j hj (Nat.lt_succ_of_lt hlt)]
      rcases Nat.lt_or_ge i v.blocks.length with hi | hi
      · have hblock := List.getElem?_eq_getElem hi
        have hnone : blockEntries v.blocks[i] = [] := by
          have hat := hempty i hle (Nat.lt_succ_self i)
          rwa [entriesAt, hblock] at hat
        rw [v.start_succ hblock, hnone, List.length_nil, Nat.add_zero]
      · rw [v.start_of_length_le hi, v.start_of_length_le (hi.trans (Nat.le_succ i))]

/-- The entry behind those in front of a place is the first one of the next run that has one. -/
theorem ShowsRuns.locate_eq (h : v.ShowsRuns r) (n : Nat) :
    v.locate (v.start n) = (r.firstFrom n).map fun i => (i, 0) := by
  cases hfirst : r.firstFrom n with
  | none =>
      have hempty := IndexedRuns.firstFrom_eq_none_iff.mp hfirst
      refine v.locate_eq_none ?_
      have hend : v.start (max n v.blocks.length) = v.start n :=
        start_eq_of_empty (le_max_left _ _) fun j hj _ => h.entriesAt_eq j ▸ hempty j hj
      rw [← hend, v.start_of_length_le (le_max_right _ _)]
  | some i =>
      obtain ⟨hle, hne, hempty⟩ := IndexedRuns.firstFrom_eq_some_iff.mp hfirst
      rw [h.entriesAt_eq] at hne
      have hstart : v.start i = v.start n :=
        start_eq_of_empty hle fun j hj hlt => h.entriesAt_eq j ▸ hempty j hj hlt
      have hblock : ∃ L, v.blocks[i]? = some (some L) := by
        rcases hb : v.blocks[i]? with _ | _ | L
        · simp [entriesAt, hb] at hne
        · simp [entriesAt, hb, blockEntries] at hne
        · exact ⟨L, rfl⟩
      obtain ⟨L, hL⟩ := hblock
      rw [v.entriesAt_of_some hL, ← List.length_pos_iff, BlockLayout.entries_length] at hne
      rw [← hstart, Option.map_some]
      exact v.locate_eq hL hne

theorem ShowsRuns.nextRun_eq (h : v.ShowsRuns r) :
    (TableTrail.ofCursor p).nextBlock v = .ofCursor (r.nextRun p) := by
  have hindex : (TableTrail.ofCursor p).index = p.index := rfl
  rw [TableTrail.nextBlock, hindex, h.locate_eq, IndexedRuns.nextRun]
  cases r.firstFrom (Cursor.next p.index.pos) with
  | none => exact h.beyond_eq
  | some i => rfl

theorem ShowsRuns.advance_eq (h : v.ShowsRuns r) :
    (TableTrail.ofCursor p).advance v = .ofCursor (r.advance p) := by
  obtain ⟨index, run⟩ := p
  unfold TableTrail.advance IndexedRuns.advance
  rcases run with _ | ⟨i, τ⟩
  · exact h.nextRun_eq
  · simp only [TableTrail.ofCursor, h.entriesAt_eq]
    cases Cursor.advance (v.entriesAt i).length τ.pos with
    | some j => rfl
    | none => exact h.nextRun_eq (p := ⟨index, some (i, τ)⟩)

theorem ShowsRuns.seek_eq (h : v.ShowsRuns r) (target : Bytes) :
    TableTrail.seek v target = .ofCursor (r.seek target) := by
  unfold TableTrail.seek IndexedRuns.seek
  rw [h.index_eq]
  cases Cursor.lowerBound r.index target with
  | none => exact h.beyond_eq
  | some i =>
      simp only [h.run_eq]
      rcases v.blocks[i]? with _ | _ | L
      · rfl
      · rfl
      · have hkeys : L.entries.map Prod.fst = L.keys := L.keysOf_entries
        simp [TableTrail.ofCursor, hkeys]

theorem ShowsRuns.prevRun_eq (h : v.ShowsRuns r) :
    (TableTrail.ofCursor p).prevBlock v =
      r.prevRun p >>= fun x => pure (x.1, TableTrail.ofCursor x.2) := by
  obtain ⟨⟨pos, last⟩, run⟩ := p
  unfold TableTrail.prevBlock IndexedRuns.prevRun
  cases last with
  | zero => rfl
  | succ i =>
      simp only [TableTrail.ofCursor, h.run_eq]
      rcases v.blocks[i]? with _ | _ | L
      · rfl
      · rfl
      · simp only [Option.map_some, Option.join_some, BlockLayout.entries_length, bind_assoc]
        rfl

theorem ShowsRuns.prev_eq (h : v.ShowsRuns r) :
    (TableTrail.ofCursor p).prev v =
      r.prev p >>= fun x => pure (x.1, TableTrail.ofCursor x.2) := by
  obtain ⟨index, run⟩ := p
  unfold TableTrail.prev IndexedRuns.prev
  rcases run with _ | ⟨i, ⟨pos, last⟩⟩
  · exact h.prevRun_eq
  · cases last with
    | zero => exact h.prevRun_eq (p := ⟨index, some (i, .start)⟩)
    | succ j => rfl

/-- A trail over a view moves as the cursor over its runs. -/
theorem ShowsRuns.step_eq (h : v.ShowsRuns r) (op : TableOp) :
    tableTrailStep v (.ofCursor p) op =
      runsStep r p op >>= fun x => pure (x.1, TableTrail.ofCursor x.2) := by
  unfold tableTrailStep runsStep
  cases op with
  | advance => simp only [TableOp.onTrail, TableOp.onRuns, h.advance_eq, h.entry_eq, pure_bind]
  | seek target => simp only [TableOp.onTrail, TableOp.onRuns, h.seek_eq, h.entry_eq, pure_bind]
  | reset =>
      simp only [TableOp.onTrail, TableOp.onRuns, pure_bind, ← h.entry_eq]
      rfl
  | prev =>
      simp only [TableOp.onTrail, TableOp.onRuns, h.prev_eq, bind_assoc, pure_bind, h.entry_eq]

end TableView

/-- The view of a written table consists of the runs that were written. -/
theorem Sizes.view_showsRuns {opt : Options} {es : List Entry} {fb : Bytes}
    (hs : Sizes opt (cuts opt es) fb) (bad : Nat → Bool) :
    (hs.view bad).ShowsRuns (writtenRuns opt es bad) where
  index_eq := hs.view_index_keys bad
  runs_eq := by
    apply List.ext_getElem?
    intro i
    simp only [writtenRuns, List.getElem?_map, hs.view_blocks, List.getElem?_mapIdx, Option.map_map]
    congr 1
    funext b
    simp only [Function.comp_apply]
    split
    · rfl
    · rw [Option.map_some, layoutOf_entries]

/-- An iterator over a written table shows what a cursor over its runs shows. -/
theorem Sizes.iter_refines {opt : Options} {es : List Entry} {fb : Bytes} {bad : Nat → Bool}
    {t : Table} (hs : Sizes opt (cuts opt es) fb) (hinc : Increasing es) (hkeys : NonEmptyKeys es)
    (hshows : t.Shows (hs.view bad)) :
    ∃ it, t.iter = .ok it ∧ ∀ c, CacheServes t (hs.view bad) c → ∀ ops,
      observe TableIterator.step (it, c) ops =
        observe (runsStep (writtenRuns opt es bad)) .start ops := by
  obtain ⟨it, hiter, hfresh⟩ := TableIterator.iter_spec hshows
  refine ⟨it, hiter, fun c hserves ops => ?_⟩
  have hord := hs.view_ordered bad hinc hkeys
  have hstep : ∀ (s : TableIterator × BlockCache) (p : RunCursor) (op : TableOp),
      TableIterator.Followed t (hs.view bad) s (.ofCursor p) →
        Mirrors (fun s p => TableIterator.Followed t (hs.view bad) s (.ofCursor p))
          (TableIterator.step s op) (runsStep (writtenRuns opt es bad) p op) := by
    intro s p op h
    have hmirrors := h.step hshows hord op
    rw [(hs.view_showsRuns bad).step_eq] at hmirrors
    cases hruns : runsStep (writtenRuns opt es bad) p op with
    | error e => simpa [hruns, Mirrors] using hmirrors
    | ok r => simpa [hruns, Mirrors] using hmirrors
  have hstart : TableIterator.Followed t (hs.view bad) (it, c) (.ofCursor .start) :=
    ⟨hfresh.trailed, hserves⟩
  exact observe_mirrors hstep hstart ops

end

/-- Whichever data blocks of a written table can be read, whatever the other users of the cache have
done, and whatever is done with an iterator over it: the iterator shows what a cursor over the cuts
of the table shows, and panics where that has nowhere to go. -/
theorem table_refines_runs [Crates] (opt ropt : Options) (es : List Entry) (n : Nat) (img : Bytes)
    (bad : Nat → Bool) (f : RandomAccess) (c : BlockCache) (hcmp : opt.cmp = DefaultCmp)
    (hrcmp : ropt.cmp = DefaultCmp) (hinc : Increasing es) (hkeys : NonEmptyKeys es)
    (hlimits : BlockLimits opt es) (hwrite : TableBuilder.writeTable opt [] es = .ok (.ok n, img))
    (hsize : img.length ≤ maxAllocation) (hf : DefectiveData opt ropt (cuts opt es) img bad f)
    (hc : c.Reachable) (hid : c.id + 1 < wordLimit) :
    ∃ t c₀ it, Table.new ropt f n c = .ok (.ok t, c₀) ∧ t.iter = .ok it ∧
      ∀ c₁, CacheRun t (dataHandles opt es) c₀ c₁ → ∀ ops,
        observe TableIterator.step (it, c₁) ops =
          observe (runsStep (writtenRuns opt es bad)) .start ops := by
  obtain ⟨fb, hs, t, reader, -, hnew, -, hshows, hserves, -⟩ :=
    open_written hcmp hrcmp hlimits hwrite hsize hf hc hid
  obtain ⟨it, hiter, hrefines⟩ := hs.iter_refines hinc hkeys hshows
  refine ⟨t, _, it, hnew, hiter, ?_⟩
  intro c₁ hrun ops
  exact hrefines c₁ (hserves.run hshows hrun) ops

/-- An iterator over the table of three keys without its second block. -/
theorem table_refines_runs_neighbours : letI := referenceCrates
    ∃ t c₀ it, Table.new .default defectiveFile 211 smallCache = .ok (.ok t, c₀) ∧
      t.iter = .ok it ∧
      ∀ c₁, CacheRun t (dataHandles tinyBlocks neighbours) c₀ c₁ → ∀ ops,
        observe TableIterator.step (it, c₁) ops =
          observe (runsStep (writtenRuns tinyBlocks neighbours (· == 1))) .start ops :=
  letI := referenceCrates
  table_refines_runs tinyBlocks .default neighbours 211 neighboursImage (· == 1) defectiveFile
    smallCache rfl rfl (by decide) (by decide) neighbours_blockLimits neighboursImage_eq
    neighboursImage_small defectiveFile_data smallCache_reachable (by decide)

end SSTable
