import SSTable.Verification.Table.Defects
import SSTable.Verification.Table.Policies
import SSTable.Verification.Table.Reads

/-!
# The blocks that are asked for

A lookup asks the block cache for one block at most, and for none if the filters show that the key
was not written.  A scan asks for every data block once, in the order of the file, and also for
those that cannot be read.

Main results:

- Theorem {lit}`lookup_asks_iff`: when a lookup asks for a block.
- Theorem {lit}`scan_asks_once`: what a scan asks for.
-/

namespace SSTable

open Foundation Foundation.Exec Foundation.Bytes Foundation.Calls

/-! ## Lookups -/

section

variable [Crates] {opt : Options} {es : List Entry} {fb : Bytes} {t : Table} {key : Bytes}
  {c : BlockCache} {h : BlockHandle} {p p' : BloomPolicy}

/-! ### The calls of a lookup -/

theorem Table.getReads_of_findBlock_none (hfind : t.findBlock key = .ok none) :
    (t.getReads key).made cachedRead c = [] := by
  rw [Table.getReads, hfind]
  rfl

theorem Table.getReads_of_denied (hfind : t.findBlock key = .ok (some h))
    (hdenies : t.filterAdmits h key = .ok false) : (t.getReads key).made cachedRead c = [] := by
  rw [Table.getReads, hfind, ofExec_ok_bind]
  dsimp only
  rw [hdenies]
  rfl

theorem Table.getReads_of_fault {e : Fault} (hfind : t.findBlock key = .ok (some h))
    (hfault : t.filterAdmits h key = .error e) : (t.getReads key).made cachedRead c = [] := by
  rw [Table.getReads, hfind, ofExec_ok_bind]
  dsimp only
  rw [hfault]
  rfl

/-- A lookup in a block that the filters admit asks for the block, and for no other. -/
theorem Table.getReads_of_admitted (hfind : t.findBlock key = .ok (some h))
    (hadmits : t.filterAdmits h key = .ok true) :
    (t.getReads key).made cachedRead c = [((t, h), c)] := by
  rw [Table.getReads, hfind, ofExec_ok_bind]
  dsimp only
  rw [hadmits, ofExec_ok_bind, if_pos rfl, made_ask_bind]
  rcases cachedRead (t, h) c with e | ⟨_ | tb, c'⟩
  · rfl
  · rfl
  · dsimp only
    cases t.searchBlock tb key with
    | error e => rfl
    | ok found => rfl

end

/-- A lookup asks the block cache for one block, or for none and then finds nothing, whatever the
cache holds.  It asks for the block that it looks into exactly if the probes of the key are all
probes of keys that lie beside this block.  If it looks into a block and the key has no hash, it
stops in the filter. -/
theorem lookup_asks_iff [Crates] (opt ropt : Options) (p p' : BloomPolicy) (es : List Entry)
    (n : Nat) (img : Bytes) (bad : Nat → Bool) (f : RandomAccess) (c : BlockCache)
    (hcmp : opt.cmp = DefaultCmp) (hrcmp : ropt.cmp = DefaultCmp)
    (hpolicy : opt.filterPolicy = p.toFilterPolicy)
    (hrpolicy : ropt.filterPolicy = p'.toFilterPolicy) (hinc : Increasing es)
    (hkeys : NonEmptyKeys es) (hlimits : SizeLimits opt es)
    (hwrite : TableBuilder.writeTable opt [] es = .ok (.ok n, img))
    (hsize : img.length ≤ maxAllocation) (hf : DefectiveData opt ropt (cuts opt es) img bad f)
    (hc : c.Reachable) (hid : c.id + 1 < wordLimit) :
    ∃ t c₁, Table.new ropt f n c = .ok (.ok t, c₁) ∧
      ∀ (key : Bytes) (c₂ : BlockCache),
        (∃ h, LooksInto opt es key h ∧ BloomPolicy.HasHash key ∧ Passes p opt es h key ∧
          (t.getReads key).made cachedRead c₂ = [((t, h), c₂)]) ∨
        ((∀ h, LooksInto opt es key h → BloomPolicy.HasHash key ∧
            ¬ Passes p opt es h key) ∧
          (t.getReads key).made cachedRead c₂ = [] ∧ t.get key c₂ = .ok (.ok none, c₂)) ∨
        ((∃ h, LooksInto opt es key h) ∧ ¬ BloomPolicy.HasHash key ∧
          (t.getReads key).made cachedRead c₂ = [] ∧ t.get key c₂ = .error .arithmetic) := by
  obtain ⟨fb, hs, t, reader, hw, hnew, -, hshows, hserves, hreader, hfilters⟩ :=
    open_written hcmp hrcmp hlimits.toBlockLimits hwrite hsize hf hc hid
  have ht := hfilters.trans (bloom_filters_eq hpolicy hrpolicy reader)
  rw [hrpolicy] at hreader
  refine ⟨t, _, hnew, ?_⟩
  intro key c₂
  rcases hs.findBlock_written hshows hinc hkeys key with ⟨hfind, hnone⟩ | ⟨h, hfind, hlooks, honly⟩
  · have hget := Table.get_of_findBlock_none hfind t.filters (c := c₂)
    exact Or.inr (Or.inl ⟨fun h hlooks => absurd hlooks (hnone h),
      Table.getReads_of_findBlock_none hfind, hget⟩)
  · obtain ⟨i, -, -, hh⟩ := id hlooks
    have hmem := List.mem_of_getElem? hh
    have hiff := hs.filterAdmits_iff hpolicy hkeys hlimits hw.filter_eq hreader ht hmem key
    by_cases hkey : BloomPolicy.HasHash key
    · by_cases hpasses : Passes p opt es h key
      · have hpassed := (hiff true).mpr ⟨hkey, by simpa using hpasses⟩
        exact Or.inl ⟨h, hlooks, hkey, hpasses, Table.getReads_of_admitted hfind hpassed⟩
      · have hdenied := (hiff false).mpr ⟨hkey, by simpa using hpasses⟩
        refine Or.inr (Or.inl ⟨?_, Table.getReads_of_denied hfind hdenied,
          Table.get_of_denied hfind hdenied⟩)
        intro h' hlooks'
        rw [honly h' hlooks']
        exact ⟨hkey, hpasses⟩
    · have hfault :=
        hs.filterAdmits_of_not_hasHash hpolicy hkeys hlimits hw.filter_eq hreader ht hmem hkey
      exact Or.inr (Or.inr ⟨⟨h, hlooks⟩, hkey, Table.getReads_of_fault hfind hfault,
        Table.get_of_fault hfind hfault⟩)

/-- Lookups in the table of three keys. -/
theorem lookup_asks_iff_neighbours : letI := referenceCrates
    ∃ t c₁, Table.new .default (BufferBackedFile neighboursImage) 211 smallCache =
        .ok (.ok t, c₁) ∧
      ∀ (key : Bytes) (c₂ : BlockCache),
        (∃ h, LooksInto tinyBlocks neighbours key h ∧ BloomPolicy.HasHash key ∧
          Passes (BloomPolicy.new 10) tinyBlocks neighbours h key ∧
          (t.getReads key).made cachedRead c₂ = [((t, h), c₂)]) ∨
        ((∀ h, LooksInto tinyBlocks neighbours key h → BloomPolicy.HasHash key ∧
            ¬ Passes (BloomPolicy.new 10) tinyBlocks neighbours h key) ∧
          (t.getReads key).made cachedRead c₂ = [] ∧ t.get key c₂ = .ok (.ok none, c₂)) ∨
        ((∃ h, LooksInto tinyBlocks neighbours key h) ∧ ¬ BloomPolicy.HasHash key ∧
          (t.getReads key).made cachedRead c₂ = [] ∧ t.get key c₂ = .error .arithmetic) :=
  letI := referenceCrates
  lookup_asks_iff tinyBlocks .default (BloomPolicy.new 10) (BloomPolicy.new 10) neighbours 211
    neighboursImage (fun _ => false) (BufferBackedFile neighboursImage) smallCache rfl rfl rfl rfl
    (by decide) (by decide) neighbours_sizeLimits neighboursImage_eq neighboursImage_small
    (defectiveData_none _ _ _ _) smallCache_reachable (by decide)

/-! ## Scans -/

section

variable [Crates] {t : Table} {v : TableView} {i : Nat} {it : TableIterator} {c : BlockCache}

/-- The data blocks from a number on. -/
def blocksFrom (t : Table) (v : TableView) (i : Nat) : List (Table × BlockHandle) :=
  (v.handles.drop i).map fun h => (t, h)

namespace TableIterator

/-- The entry of the index that comes next has a number. -/
structure Facing (t : Table) (v : TableView) (i : Nat) (it : TableIterator) : Prop where
  table_eq : it.table = t
  index : BlockIter.Before v.index i it.indexBlock

/-- Advance and read until there is no next entry, for at most the given number of calls. -/
def scanReads : Nat → TableIterator → BlockReads (List Entry × TableIterator)
  | 0, _ => .stop .divergence
  | calls + 1, it => do
      let (more, it) ← it.advanceReads
      if more then
        let entry ← ofExec it.current
        let entry ← ofExec (unwrap entry)
        let (rest, it) ← scanReads calls it
        pure (entry :: rest, it)
      else
        pure ([], it)

/-- Run on the block cache, a scan is the scan of the table. -/
theorem collect_eq (calls : Nat) : collect calls it c =
    (it.scanReads calls).run cachedRead c >>= fun r => pure (r.1.1, r.1.2, r.2) := by
  induction calls generalizing it c with
  | zero => rfl
  | succ calls ih =>
      rw [collect, scanReads, advance_eq, run_bind]
      cases it.advanceReads.run cachedRead c with
      | error e => rfl
      | ok r =>
          obtain ⟨⟨more, it'⟩, c'⟩ := r
          cases more with
          | false => rfl
          | true =>
              simp only [ok_bind, pure_eq_ok, if_true, run_bind, run_ofExec, ih, bind_assoc]
              cases it'.current with
              | error e => rfl
              | ok entry =>
                  cases entry with
                  | none => rfl
                  | some e => simp

/-- Loading a block asks for it, and leaves the index alone. -/
theorem loadReads_tracks {h : BlockHandle} (hfits : h.Fits) :
    (it.loadReads h.encode).Tracks fun is r =>
      is = [(it.table, h)] ∧ r.2.table = it.table ∧ r.2.indexBlock = it.indexBlock := by
  have hdecode := BlockHandle.decode_encode hfits []
  rw [List.append_nil] at hdecode
  rw [loadReads, hdecode, ofExec_ok_bind]
  apply tracks_ask_bind
  rintro (e | block)
  · exact ⟨rfl, rfl, rfl⟩
  · apply tracks_exec_bind
    intro cb _
    exact ⟨rfl, rfl, rfl⟩

/-- Going on with the index asks for the block that comes next, or for none where there is no
other. -/
theorem skipReads_tracks (hord : v.Ordered) (h : Facing t v i it) : it.skipReads.Tracks fun
    | is, (.ok false, _) => is = blocksFrom t v i
    | is, (_, it') => ∃ j, is ++ blocksFrom t v j = blocksFrom t v i ∧ Facing t v j it' := by
  unfold skipReads
  rcases Nat.lt_or_ge i v.index.slots.length with hmore | hend
  · have hslot := List.getElem?_eq_getElem hmore
    obtain ⟨ib, hnext, hat⟩ := BlockIter.next_of_before h.index hslot
      (hord.index.key_ne_nil _ (List.mem_of_getElem? hslot))
    obtain ⟨hd, hhd, hval, hfits⟩ := v.slot_val hslot
    rw [hnext, ofExec_ok_bind]
    dsimp only [Slot.entry]
    rw [hval]
    refine (loadReads_tracks hfits).bind ?_
    rintro is ⟨loaded, it'⟩ ⟨rfl, htable, hindex⟩
    have hnext : ([(it.table, hd)] ++ []) ++ blocksFrom t v (i + 1) = blocksFrom t v i := by
      obtain ⟨hlt, rfl⟩ := List.getElem?_eq_some_iff.mp hhd
      rw [blocksFrom, blocksFrom, List.drop_eq_getElem_cons hlt, h.table_eq]
      rfl
    have hfacing : Facing t v (i + 1) it' := ⟨htable.trans h.table_eq, hindex ▸ hat.before⟩
    cases loaded with
    | error e => exact ⟨i + 1, hnext, hfacing⟩
    | ok u => exact ⟨i + 1, hnext, hfacing⟩
  · rw [BlockIter.next_of_end h.index hend, ofExec_ok_bind]
    rw [v.slots_length] at hend
    exact (congrArg (List.map _) (List.drop_of_length_le hend)).symm

/-- What the steps of {lit}`advance` ask for: a step that goes on has asked for the blocks up to
one, a step that ends behind the table has asked for all that were left. -/
def StepAsks (t : Table) (v : TableView) (i : Nat) (is : List (Table × BlockHandle)) :
    LoopStep TableIterator (Bool × TableIterator) → Prop
  | .next it => ∃ j, is ++ blocksFrom t v j = blocksFrom t v i ∧ Facing t v j it
  | .done (true, it) => ∃ j, is ++ blocksFrom t v j = blocksFrom t v i ∧ Facing t v j it
  | .done (false, _) => is = blocksFrom t v i

theorem nextReads_tracks (hord : v.Ordered) (h : Facing t v i it) :
    it.nextReads.Tracks (StepAsks t v i) := by
  refine (skipReads_tracks hord h).bind ?_
  rintro is ⟨loaded, it'⟩ hasks
  rcases loaded with e | more
  · simpa [StepAsks] using hasks
  · cases more with
    | true => simpa [StepAsks] using hasks
    | false => simpa [StepAsks] using hasks

theorem stepReads_tracks (hord : v.Ordered) (h : Facing t v i it) :
    it.stepReads.Tracks (StepAsks t v i) := by
  unfold stepReads
  cases it.currentBlock with
  | none => exact nextReads_tracks hord h
  | some cb =>
      apply tracks_exec_bind
      rintro ⟨more, cb'⟩ -
      cases more with
      | true => exact ⟨i, rfl, h.table_eq, h.index⟩
      | false => exact nextReads_tracks hord ⟨h.table_eq, h.index⟩

/-- Advancing asks for consecutive blocks, and for all that are left if it finds no entry. -/
theorem advanceReads_tracks (hord : v.Ordered) (h : Facing t v i it) :
    it.advanceReads.Tracks fun is r => StepAsks t v i is (.done r) := by
  have hjoin : ∀ {is js : List (Table × BlockHandle)} {j k : Nat},
      is ++ blocksFrom t v j = blocksFrom t v i → js ++ blocksFrom t v k = blocksFrom t v j →
        (is ++ js) ++ blocksFrom t v k = blocksFrom t v i := by
    intro is js j k his hjs
    rw [List.append_assoc, hjs, his]
  have hloop : it.advanceReads.Tracks fun is r => StepAsks t v i ([] ++ is) (.done r) := by
    have hstart : StepAsks t v i [] (.next it) := ⟨i, rfl, h⟩
    refine Tracks.loop (fun is it' => StepAsks t v i is (.next it'))
      (fun is r => StepAsks t v i is (.done r)) ?_ _ hstart
    rintro is it' ⟨j, his, hfacing⟩
    refine (stepReads_tracks hord hfacing).mono ?_
    rintro js (it'' | ⟨more, it''⟩) hstep
    · obtain ⟨k, hjs, hfacing'⟩ := hstep
      exact ⟨k, hjoin his hjs, hfacing'⟩
    · cases more with
      | true =>
          obtain ⟨k, hjs, hfacing'⟩ := hstep
          exact ⟨k, hjoin his hjs, hfacing'⟩
      | false =>
          have hjs : js = blocksFrom t v j := hstep
          rw [hjs]
          exact his
  exact hloop

/-- A scan asks for the blocks that are left, each once and in their order. -/
theorem scanReads_tracks (hord : v.Ordered) (calls : Nat) (h : Facing t v i it) :
    (it.scanReads calls).Tracks fun is _ => is = blocksFrom t v i := by
  induction calls generalizing it i with
  | zero => trivial
  | succ calls ih =>
      refine (advanceReads_tracks hord h).bind ?_
      rintro is ⟨more, it'⟩ hasks
      cases more with
      | false => exact (List.append_nil is).trans hasks
      | true =>
          obtain ⟨j, his, hfacing⟩ := hasks
          apply tracks_exec_bind
          intro entry _
          apply tracks_exec_bind
          intro e _
          refine (ih hfacing).bind ?_
          rintro js r rfl
          simpa using his

end TableIterator

end

/-- A scan asks the block cache for every data block exactly once, in the order of the file,
whatever the cache holds and whether the blocks can be read or not. -/
theorem scan_asks_once [Crates] (opt ropt : Options) (es : List Entry) (n : Nat) (img : Bytes)
    (bad : Nat → Bool) (f : RandomAccess) (c : BlockCache) (hcmp : opt.cmp = DefaultCmp)
    (hrcmp : ropt.cmp = DefaultCmp) (hinc : Increasing es) (hkeys : NonEmptyKeys es)
    (hlimits : BlockLimits opt es)
    (hwrite : TableBuilder.writeTable opt [] es = .ok (.ok n, img))
    (hsize : img.length ≤ maxAllocation) (hf : DefectiveData opt ropt (cuts opt es) img bad f)
    (hc : c.Reachable) (hid : c.id + 1 < wordLimit) :
    ∃ t c₁ it, Table.new ropt f n c = .ok (.ok t, c₁) ∧ t.iter = .ok it ∧
      ∀ c₂, CacheRun t (dataHandles opt es) c₁ c₂ →
        ∃ calls it' c₃,
          (it.scanReads calls).run cachedRead c₂ = .ok ((readable bad (cuts opt es), it'), c₃) ∧
          ((it.scanReads calls).made cachedRead c₂).map Prod.fst =
            (dataHandles opt es).map fun h => (t, h) := by
  obtain ⟨fb, hs, t, reader, -, hnew, -, hshows, hserves, -⟩ :=
    open_written hcmp hrcmp hlimits hwrite hsize hf hc hid
  obtain ⟨it, hiter, hfresh⟩ := TableIterator.iter_spec hshows
  have hord := hs.view_ordered bad hinc hkeys
  refine ⟨t, _, it, hnew, hiter, ?_⟩
  intro c₂ hrun
  obtain ⟨it', c₃, hcollect, -⟩ := TableIterator.collect_spec hshows hord
    (hserves.run hshows hrun) hfresh.toReset.ready (Nat.zero_le _)
  rw [TableIterator.collect_eq, hs.view_entries bad, bind_eq_ok_iff] at hcollect
  obtain ⟨⟨⟨found, it₁⟩, c₄⟩, hscan, hsame⟩ := hcollect
  rw [pure_eq_ok, Except.ok.injEq, Prod.mk.injEq] at hsame
  obtain ⟨rfl, -⟩ := hsame
  have hfacing : TableIterator.Facing t (hs.view bad) 0 it :=
    ⟨hfresh.toReset.table_eq, hfresh.toReset.index.before⟩
  refine ⟨_, it₁, c₄, hscan, ?_⟩
  exact (TableIterator.scanReads_tracks hord _ hfacing).of_run hscan

/-- A scan of the table of three keys asks for the block that cannot be read, too. -/
theorem scan_asks_once_neighbours : letI := referenceCrates
    ∃ t c₁ it, Table.new .default defectiveFile 211 smallCache = .ok (.ok t, c₁) ∧
      t.iter = .ok it ∧
      ∀ c₂, CacheRun t (dataHandles tinyBlocks neighbours) c₁ c₂ →
        ∃ calls it' c₃,
          (it.scanReads calls).run cachedRead c₂ =
            .ok ((readable (· == 1) (cuts tinyBlocks neighbours), it'), c₃) ∧
          ((it.scanReads calls).made cachedRead c₂).map Prod.fst =
            (dataHandles tinyBlocks neighbours).map fun h => (t, h) :=
  letI := referenceCrates
  scan_asks_once tinyBlocks .default neighbours 211 neighboursImage (· == 1) defectiveFile
    smallCache rfl rfl (by decide) (by decide) neighbours_blockLimits neighboursImage_eq
    neighboursImage_small defectiveFile_data smallCache_reachable (by decide)

end SSTable
