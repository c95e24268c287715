import SSTable.Verification.Block.Refinement
import SSTable.Verification.Table.View

/-!
# Moving a table iterator

Where a table iterator is, is where its index iterator and its block iterator are.  The theorems
below say what the iterator does in terms of a view: going forward it passes over the blocks
that cannot be read, and going back it does not.

Main results:

- Theorem {lit}`advance_spec`: advancing reaches the next entry that can be read.
- Theorem {lit}`collect_spec`: advancing again and again reads what is left, and ends.
- Theorems {lit}`prev_within` and {lit}`prev_across`: going back, inside of a block and to the
  block in front of it.
- Theorem {lit}`seek_spec`: where seeking ends.
-/

namespace SSTable

open Foundation Foundation.Exec Foundation.Bytes

variable [Crates]

namespace TableIterator

/-- The iterator has no position. -/
structure Reset (t : Table) (v : TableView) (it : TableIterator) : Prop where
  table_eq : it.table = t
  index : BlockIter.Unplaced v.index it.indexBlock
  block_eq : it.currentBlock = none

/-- The iterator is on an entry of a data block. -/
structure On (t : Table) (v : TableView) (i j : Nat) (it : TableIterator) : Prop where
  table_eq : it.table = t
  index : ∃ s, BlockIter.At v.index i s it.indexBlock
  block : ∃ L cb s, v.blocks[i]? = some (some L) ∧ it.currentBlock = some cb ∧ BlockIter.At L j s cb

/-- The iterator has loaded a data block, but is on none of its entries. -/
structure Parked (t : Table) (v : TableView) (i : Nat) (it : TableIterator) : Prop where
  table_eq : it.table = t
  index : ∃ s, BlockIter.At v.index i s it.indexBlock
  block : ∃ L cb, v.blocks[i]? = some (some L) ∧ it.currentBlock = some cb ∧ BlockIter.Unplaced L cb

/-- The next entry that the iterator reaches is the one with the given number: it is about to
load a block, or before an entry of the block it has loaded. -/
inductive Ready (t : Table) (v : TableView) (k : Nat) (it : TableIterator) : Prop
  | load {i : Nat} (table_eq : it.table = t) (index : BlockIter.Before v.index i it.indexBlock)
      (block_eq : it.currentBlock = none) (number_eq : k = v.start i)
  | loaded {i j : Nat} {s : Slot} {L : BlockLayout} {cb : BlockIter} (table_eq : it.table = t)
      (index : BlockIter.At v.index i s it.indexBlock) (hL : v.blocks[i]? = some (some L))
      (block_eq : it.currentBlock = some cb) (before : BlockIter.Before L j cb)
      (number_eq : k = v.start i + j)

variable {t : Table} {v : TableView} {it : TableIterator} {c : BlockCache} {i j k : Nat}

/-! ## What positions show -/

theorem Reset.ready (h : Reset t v it) : Ready t v 0 it :=
  .load h.table_eq h.index.before h.block_eq rfl

theorem Reset.valid (h : Reset t v it) : it.valid = false := by
  simp [TableIterator.valid, h.block_eq]

theorem On.ready (h : On t v i j it) : Ready t v (v.start i + j + 1) it := by
  obtain ⟨s, hindex⟩ := h.index
  obtain ⟨L, cb, s', hL, hcb, hat⟩ := h.block
  exact .loaded h.table_eq hindex hL hcb hat.before rfl

theorem Parked.valid (h : Parked t v i it) : it.valid = false := by
  obtain ⟨L, cb, hL, hcb, hun⟩ := h.block
  simp [TableIterator.valid, hcb, hun.valid]

theorem Parked.ready (h : Parked t v i it) : Ready t v (v.start i) it := by
  obtain ⟨s, hindex⟩ := h.index
  obtain ⟨L, cb, hL, hcb, hun⟩ := h.block
  exact .loaded h.table_eq hindex hL hcb hun.before rfl

/-- Resetting forgets the position. -/
theorem reset_spec (htable : it.table = t) (hover : BlockIter.Over v.index it.indexBlock) :
    Reset t v it.reset :=
  ⟨htable, hover.reset, rfl⟩

/-- An iterator on an entry shows it. -/
theorem On.shown (h : On t v i j it) (hord : v.Ordered) :
    ∃ e, v.entries[v.start i + j]? = some e ∧ it.valid = true ∧ it.current = .ok (some e) ∧
      it.currentKey = some e.1 := by
  obtain ⟨L, cb, s, hL, hcb, hat⟩ := h.block
  have hkey := (hord.block L (List.mem_of_getElem? hL)).key_ne_nil s
    (List.mem_of_getElem? hat.slot_eq)
  refine ⟨s.entry, ?_, ?_, ?_, ?_⟩
  · rw [v.entries_getElem? hL hat.lt_length, L.entries_getElem?, hat.slot_eq, Option.map_some]
  · simp [TableIterator.valid, hcb, hat.valid_of_ne_nil hkey]
  · simp [TableIterator.current, hcb, hat.current hkey]
  · simp [TableIterator.currentKey, hcb, hat.currentKey hkey, Slot.entry]

/-- The number of an entry that an iterator is on. -/
theorem On.lt_length (h : On t v i j it) : v.start i + j < v.entries.length := by
  obtain ⟨L, cb, s, hL, -, hat⟩ := h.block
  have hj := hat.lt_length
  have hsucc := v.start_succ hL
  have hle := v.start_le (i + 1)
  simp only [blockEntries, BlockLayout.entries_length] at hsucc
  omega

/-! ## Loading blocks -/

/-- Loading a readable block ends before its first entry; a block that cannot be read leaves the
iterator alone. -/
theorem loadBlock_spec (it : TableIterator) (hshows : t.Shows v) (hserves : CacheServes t v c) (htable : it.table = t)
    {s : Slot} {b : Option BlockLayout} (hslot : v.index.slots[i]? = some s)
    (hb : v.blocks[i]? = some b) :
    ∃ c', CacheServes t v c' ∧
      match b with
      | some L => ∃ cb off, it.loadBlock s.val c =
          .ok (.ok (), { it with currentBlock := some cb, currentBlockOff := off }, c') ∧
            BlockIter.Unplaced L cb
      | none => ∃ e, it.loadBlock s.val c = .ok (.error e, it, c') := by
  obtain ⟨h, hh, hval, hfits⟩ := v.slot_val hslot
  have hdecode := BlockHandle.decode_encode hfits []
  rw [List.append_nil, ← hval] at hdecode
  obtain ⟨r, c', hread, hserves', hr⟩ := readBlock_spec hshows hserves hh hb
  refine ⟨c', hserves', ?_⟩
  cases b with
  | none =>
      obtain ⟨e, rfl⟩ := hr
      exact ⟨e, by simp [loadBlock, hdecode, htable, hread]⟩
  | some L =>
      have hr : r = .ok (t.blockOf L) := hr
      subst hr
      obtain ⟨cb, hiter, hun⟩ := Block.iter_spec (b := t.blockOf L)
        (v.small L (List.mem_of_getElem? hb)) hshows.cmp_eq rfl
      exact ⟨cb, h.offset, by simp [loadBlock, hdecode, htable, hread, hiter], hun⟩

/-- Loading a block leaves the index alone. -/
theorem loadBlock_index {it it' : TableIterator} {handle : Bytes} {r : Result Unit}
    {c c' : BlockCache} (h : it.loadBlock handle c = .ok (r, it', c')) :
    it'.indexBlock = it.indexBlock := by
  simp only [loadBlock, bind_eq_ok_iff] at h
  obtain ⟨decoded, -, ⟨block, c₁⟩, -, h⟩ := h
  cases block with
  | error e =>
      simp only [pure_eq_ok, Except.ok.injEq, Prod.mk.injEq] at h
      rw [← h.2.1]
  | ok b =>
      simp only [bind_eq_ok_iff, pure_eq_ok, Except.ok.injEq, Prod.mk.injEq] at h
      obtain ⟨cb, -, -, rfl, -⟩ := h
      rfl

/-- A block that was loaded is at its beginning. -/
theorem loadBlock_entry {it it' : TableIterator} {handle : Bytes} {c c' : BlockCache}
    {cb : BlockIter} (h : it.loadBlock handle c = .ok (.ok (), it', c'))
    (hcb : it'.currentBlock = some cb) : cb.currentEntryOffset = 0 := by
  simp only [loadBlock, bind_eq_ok_iff] at h
  obtain ⟨decoded, -, ⟨block, c₁⟩, -, h⟩ := h
  cases block with
  | error e => simp at h
  | ok b =>
      simp only [bind_eq_ok_iff, pure_eq_ok, Except.ok.injEq, Prod.mk.injEq] at h
      obtain ⟨cb', hiter, -, rfl, -⟩ := h
      obtain rfl := Option.some.inj hcb
      exact Block.entry_of_iter hiter

/-- There is a data block for every slot of the index. -/
theorem exists_block (v : TableView) {s : Slot} (hslot : v.index.slots[i]? = some s) :
    ∃ b, v.blocks[i]? = some b := by
  have hi := (List.getElem?_eq_some_iff.mp hslot).1
  rw [v.slots_length, ← v.length_eq] at hi
  exact ⟨_, List.getElem?_eq_getElem hi⟩

/-- Going on with the next block of the index. -/
theorem nextBlock_spec (it : TableIterator) (hshows : t.Shows v) (hord : v.Ordered)
    (hserves : CacheServes t v c) (htable : it.table = t) (hindex : BlockIter.Before v.index i it.indexBlock)
    (hnone : it.currentBlock = none) :
    (∃ it' c', it.nextBlock c = .ok (.next (it', c')) ∧ CacheServes t v c' ∧
      Ready t v (v.start i) it' ∧ i < v.index.slots.length ∧
      it'.indexBlock.offset = v.index.offsetOf (i + 1)) ∨
    (∃ it', it.nextBlock c = .ok (.done (false, it', c)) ∧ Reset t v it' ∧
      v.start i = v.entries.length) := by
  rcases Nat.lt_or_ge i v.index.slots.length with hmore | hend
  · have hslot := List.getElem?_eq_getElem hmore
    obtain ⟨ib, hnext, hat⟩ := BlockIter.next_of_before hindex hslot
      (hord.index.key_ne_nil _ (List.mem_of_getElem? hslot))
    obtain ⟨b, hb⟩ := exists_block v hslot
    obtain ⟨c', hserves', hload⟩ := loadBlock_spec { it with indexBlock := ib } hshows hserves
      htable hslot hb
    left
    cases b with
    | none =>
        obtain ⟨e, hload⟩ := hload
        refine ⟨{ it with indexBlock := ib }, c', ?_, hserves', ?_, hmore, hat.offset_eq⟩
        · simp [nextBlock, skipToNextEntry, hnext, Slot.entry, hload, Except.map]
        · refine .load htable hat.before hnone ?_
          rw [v.start_succ hb]
          rfl
    | some L =>
        obtain ⟨cb, off, hload, hun⟩ := hload
        refine ⟨{ it with indexBlock := ib, currentBlock := some cb, currentBlockOff := off }, c', ?_,
          hserves', ?_, hmore, hat.offset_eq⟩
        · simp [nextBlock, skipToNextEntry, hnext, Slot.entry, hload, Except.map]
        · exact .loaded htable hat hb rfl hun.before rfl
  · right
    have hnext := BlockIter.next_of_end hindex hend
    refine ⟨{ it with indexBlock := it.indexBlock.reset.reset, currentBlock := none }, ?_, ?_, ?_⟩
    · simp [nextBlock, skipToNextEntry, hnext, TableIterator.reset]
    · exact ⟨htable, hindex.reset.toOver.reset, rfl⟩
    · rw [v.slots_length, ← v.length_eq] at hend
      exact v.start_of_length_le hend

/-! ## Forward -/

/-- What advancing ends with: the entry with the number, or no position where there is none. -/
def Advanced (t : Table) (v : TableView) (k : Nat) (r : Bool × TableIterator × BlockCache) : Prop :=
  CacheServes t v r.2.2 ∧
    ((r.1 = true ∧ ∃ i j, On t v i j r.2.1 ∧ v.start i + j = k) ∨
      (r.1 = false ∧ Reset t v r.2.1 ∧ v.entries.length ≤ k))

theorem Ready.over (h : Ready t v k it) : BlockIter.Over v.index it.indexBlock := by
  cases h with
  | load _ hindex => exact hindex.toOver
  | loaded _ hindex => exact hindex.toOver

/-- The recursion of {lit}`advance` ends if it can take all entries of the index that are left. -/
theorem advanceLoop_spec (fuel : Nat) (hshows : t.Shows v) (hord : v.Ordered)
    (hserves : CacheServes t v c) (hready : Ready t v k it)
    (hfuel : v.index.body.length - it.indexBlock.offset < fuel) :
    ∃ r, loop (fun s : TableIterator × BlockCache => s.1.advanceStep s.2) fuel (it, c) = .ok r ∧
      Advanced t v k r := by
  -- Every block that is loaded or passed over takes an entry of the index.
  have hoffset : ∀ i, i < v.index.slots.length →
      v.index.offsetOf i < v.index.offsetOf (i + 1) ∧
        v.index.offsetOf (i + 1) ≤ v.index.body.length := fun i hi =>
    ⟨v.index.offsetOf_lt_offsetOf (Nat.lt_succ_self i) hi, v.index.offsetOf_le_body (i + 1)⟩
  refine loop_total (fun s => Ready t v k s.1 ∧ CacheServes t v s.2) (Advanced t v k)
    (fun s => v.index.body.length - s.1.indexBlock.offset) ?_ ⟨hready, hserves⟩ hfuel
  · rintro ⟨it, c⟩ ⟨hready, hserves⟩
    dsimp only at hready hserves ⊢
    cases hready with
    | @load i htable hindex hnone hk =>
        have hstep : it.advanceStep c = it.nextBlock c := by simp [advanceStep, hnone]
        rcases nextBlock_spec it hshows hord hserves htable hindex hnone with
          ⟨it', c', hnext, hserves', hready', hi, hoff⟩ | ⟨it', hnext, hreset, hend⟩
        · refine Or.inl ⟨(it', c'), by rw [hstep, hnext], ⟨hk ▸ hready', hserves'⟩, ?_⟩
          have := hoffset i hi
          rw [hoff, hindex.offset_eq]
          omega
        · exact Or.inr ⟨_, by rw [hstep, hnext], hserves, Or.inr ⟨rfl, hreset, by omega⟩⟩
    | @loaded i j s L cb htable hindex hL hcb hbefore hk =>
        have hsucc := v.start_succ hL
        simp only [blockEntries, BlockLayout.entries_length] at hsucc
        rcases Nat.lt_or_ge j L.slots.length with hmore | hend
        · obtain ⟨cb', hadvance, hat⟩ :=
            BlockIter.advance_of_before hbefore (List.getElem?_eq_getElem hmore)
          refine Or.inr ⟨(true, { it with currentBlock := some cb' }, c), ?_, hserves,
            Or.inl ⟨rfl, i, j, ⟨htable, ⟨s, hindex⟩, L, cb', _, hL, rfl, hat⟩, hk.symm⟩⟩
          simp [advanceStep, hcb, hadvance]
        · -- The block is exhausted.
          have hlen : j = L.slots.length := le_antisymm hbefore.le_length hend
          have hk' : k = v.start (i + 1) := by omega
          have hstep : it.advanceStep c = ({ it with currentBlock := none } :
              TableIterator).nextBlock c := by
            simp [advanceStep, hcb, BlockIter.advance_of_end hbefore hend]
          rcases nextBlock_spec { it with currentBlock := none } hshows hord hserves htable
            hindex.before rfl with
            ⟨it', c', hnext, hserves', hready', hi, hoff⟩ | ⟨it', hnext, hreset, hlast⟩
          · refine Or.inl ⟨(it', c'), by rw [hstep, hnext], ⟨hk' ▸ hready', hserves'⟩, ?_⟩
            have := hoffset (i + 1) hi
            rw [hoff, hindex.offset_eq]
            omega
          · exact Or.inr ⟨_, by rw [hstep, hnext], hserves, Or.inr ⟨rfl, hreset, by omega⟩⟩

/-- Advancing reaches the next entry that can be read, or resets the iterator where there is
none. -/
theorem advance_spec (hshows : t.Shows v) (hord : v.Ordered) (hserves : CacheServes t v c)
    (hready : Ready t v k it) : ∃ r, it.advance c = .ok r ∧ Advanced t v k r := by
  apply advanceLoop_spec _ hshows hord hserves hready
  have hbody := v.index.body_le_contents
  rw [hready.over.block_eq]
  omega

/-- Advance and read until there is no next entry, for at most the given number of calls. -/
def collect : Nat → TableIterator → BlockCache → Exec (List Entry × TableIterator × BlockCache)
  | 0, _, _ => .error .divergence
  | calls + 1, it, blockCache => do
      let (more, it, blockCache) ← it.advance blockCache
      if more then
        let entry ← it.current
        let entry ← unwrap entry
        let (rest, it, blockCache) ← collect calls it blockCache
        pure (entry :: rest, it, blockCache)
      else
        pure ([], it, blockCache)

/-- One call for every entry that is left, and one that finds none. -/
theorem collect_spec (hshows : t.Shows v) (hord : v.Ordered) (hserves : CacheServes t v c)
    (hready : Ready t v k it) (hk : k ≤ v.entries.length) :
    ∃ it' c', collect (v.entries.length - k + 1) it c = .ok (v.entries.drop k, it', c') ∧
      Reset t v it' ∧ CacheServes t v c' := by
  obtain ⟨m, hm⟩ : ∃ m, m = v.entries.length - k := ⟨_, rfl⟩
  rw [← hm]
  induction m generalizing k it c with
  | zero =>
      obtain ⟨⟨more, it', c'⟩, hadvance, hserves', hend⟩ := advance_spec hshows hord hserves hready
      rcases hend with ⟨-, i, j, hon, hnum⟩ | ⟨hmore, hreset, -⟩
      · have := hon.lt_length
        omega
      · refine ⟨it', c', ?_, hreset, hserves'⟩
        have hmore : more = false := hmore
        rw [List.drop_of_length_le (by omega)]
        simp [collect, hadvance, hmore]
  | succ m ih =>
      obtain ⟨⟨more, it', c'⟩, hadvance, hserves', hend⟩ := advance_spec hshows hord hserves hready
      rcases hend with ⟨hmore, i, j, hon, rfl⟩ | ⟨-, -, hlast⟩
      · obtain ⟨e, he, -, hcurrent, -⟩ := hon.shown hord
        obtain ⟨hlt, rfl⟩ := List.getElem?_eq_some_iff.mp he
        obtain ⟨it'', c'', hrest, hspec⟩ := ih hserves' hon.ready (by omega) (by omega)
        refine ⟨it'', c'', ?_, hspec⟩
        have hmore : more = true := hmore
        rw [List.drop_eq_getElem_cons hlt]
        simp only at hcurrent hrest
        rw [collect]
        simp only [hadvance, ok_bind, hmore, if_true, hcurrent, unwrap_some, hrest, pure_eq_ok]
      · omega

/-! ## Backward -/

/-- Going back inside of a block. -/
theorem prev_within (h : On t v i (j + 1) it) :
    ∃ it', it.prev c = .ok (true, it', c) ∧ On t v i j it' := by
  obtain ⟨L, cb, s, hL, hcb, hat⟩ := h.block
  obtain ⟨cb', s', hprev, hat'⟩ := BlockIter.prev_of_at hat
  refine ⟨{ it with currentBlock := some cb' }, ?_, h.table_eq, h.index, L, cb', s', hL, rfl, hat'⟩
  simp [TableIterator.prev, hcb, hprev]

/-- In front of the first entry of a block, going back moves to the block before. -/
theorem prev_at_first (h : On t v i 0 it) :
    ∃ cb, it.prev c = ({ it with currentBlock := some cb } : TableIterator).prevBlock c := by
  obtain ⟨L, cb, s, hL, hcb, hat⟩ := h.block
  exact ⟨cb.reset, by simp [TableIterator.prev, hcb, BlockIter.prev_of_at_zero hat]⟩

/-- There is nothing in front of the first block. -/
theorem prev_at_start (h : On t v 0 0 it) : ∃ it', it.prev c = .ok (false, it', c) := by
  obtain ⟨cb, hprev⟩ := prev_at_first h (c := c)
  obtain ⟨s, hindex⟩ := h.index
  refine ⟨{ it with indexBlock := it.indexBlock.reset, currentBlock := some cb }, ?_⟩
  rw [hprev]
  simp [prevBlock, BlockIter.prev_of_at_zero hindex]

/-- Going back from the first entry of a block to the block before it: a block with entries is
entered at its last one, a block that cannot be read ends the iteration, and one without entries
stops the program. -/
theorem prev_across (hshows : t.Shows v) (hord : v.Ordered) (hserves : CacheServes t v c)
    (h : On t v (i + 1) 0 it) {b : Option BlockLayout} (hb : v.blocks[i]? = some b) :
    match b with
    | some L =>
        if L.slots = [] then
          ¬ ∃ r, it.prev c = .ok r
        else
          ∃ it' c', it.prev c = .ok (true, it', c') ∧ CacheServes t v c' ∧
            On t v i (L.slots.length - 1) it'
    | none => ∃ it' c', it.prev c = .ok (false, it', c') ∧ CacheServes t v c' ∧ Reset t v it' := by
  obtain ⟨cb, hprev⟩ := prev_at_first h (c := c)
  obtain ⟨s, hindex⟩ := h.index
  obtain ⟨ib, s', hback, hat⟩ := BlockIter.prev_of_at hindex
  have hcurrent := hat.current (hord.index.key_ne_nil s' (List.mem_of_getElem? hat.slot_eq))
  obtain ⟨c', hserves', hload⟩ := loadBlock_spec
    { it with indexBlock := ib, currentBlock := some cb } hshows hserves h.table_eq hat.slot_eq hb
  cases b with
  | none =>
      obtain ⟨e, hload⟩ := hload
      refine ⟨{ it with indexBlock := ib.reset, currentBlock := none }, c', ?_, hserves', h.table_eq,
        hat.reset, rfl⟩
      rw [hprev]
      simp [prevBlock, hback, hcurrent, Slot.entry, hload, TableIterator.reset]
  | some L =>
      obtain ⟨cb', off, hload, hun⟩ := hload
      have hrun : it.prev c = (do
          let cb ← cb'.seekToLast
          pure (cb.valid, { it with indexBlock := ib, currentBlock := some cb,
                                    currentBlockOff := off }, c')) := by
        rw [hprev]
        simp [prevBlock, hback, hcurrent, Slot.entry, hload]
      have hordered := hord.block L (List.mem_of_getElem? hb)
      dsimp only
      split
      · rename_i hempty
        rintro ⟨r, hr⟩
        rw [hrun, bind_eq_ok_iff] at hr
        obtain ⟨cb'', hlast, -⟩ := hr
        exact BlockIter.seekToLast_of_nil hun.toOver hempty hlast
      · rename_i hne
        obtain ⟨cb'', s'', hlast, hat''⟩ := BlockIter.seekToLast_spec hun.toOver hne
          hordered.key_ne_nil
        have hvalid := hat''.valid_of_ne_nil
          (hordered.key_ne_nil s'' (List.mem_of_getElem? hat''.slot_eq))
        refine ⟨{ it with indexBlock := ib, currentBlock := some cb'', currentBlockOff := off }, c', ?_,
          hserves', h.table_eq, ⟨s', hat⟩, L, cb'', s'', hb, rfl, hat''⟩
        rw [hrun, hlast, ok_bind, hvalid]
        rfl

/-! ## Fresh iterators -/

/-- A fresh iterator has no position, and its index iterator has not been anywhere. -/
structure Fresh (t : Table) (v : TableView) (it : TableIterator) : Prop extends Reset t v it where
  entry_eq : it.indexBlock.currentEntryOffset = 0

theorem iter_spec (hshows : t.Shows v) : ∃ it, t.iter = .ok it ∧ Fresh t v it := by
  obtain ⟨ib, hiter, hun⟩ := Block.iter_spec (b := t.blockOf v.index) v.index_small hshows.cmp_eq rfl
  refine ⟨{ table := t, currentBlock := none, currentBlockOff := 0, indexBlock := ib }, ?_,
    ⟨rfl, hun, rfl⟩, Block.entry_of_iter hiter⟩
  rw [Table.iter, hshows.index_eq, hiter]
  rfl

/-- A fresh iterator cannot go back. -/
theorem prev_fresh (h : Fresh t v it) : ∃ it', it.prev c = .ok (false, it', c) := by
  refine ⟨{ it with indexBlock := it.indexBlock.reset }, ?_⟩
  simp [TableIterator.prev, prevBlock, h.block_eq, BlockIter.prev, h.entry_eq]

/-! ## Seeking -/

/-- The parts of an iterator that no operation changes are those that the table gave it. -/
structure Attached (t : Table) (it : TableIterator) : Prop where
  table_eq : it.table = t
  index_eq : ∃ ib, t.indexBlock.iter = .ok ib ∧ it.indexBlock.block = ib.block ∧
    it.indexBlock.opt = ib.opt ∧ it.indexBlock.restartsOff = ib.restartsOff

/-- The index iterator of an attached iterator, wherever it is, can be reset. -/
theorem Attached.over (h : Attached t it) (hshows : t.Shows v) :
    BlockIter.Over v.index { it.indexBlock with currentRestartIx := 0 } := by
  obtain ⟨ib, hiter, hblock, hopt, hoff⟩ := h.index_eq
  rw [hshows.index_eq] at hiter
  obtain ⟨ib', hiter', hun⟩ := Block.iter_spec (b := t.blockOf v.index) v.index_small hshows.cmp_eq rfl
  rw [hiter', Except.ok.injEq] at hiter
  subst hiter
  exact ⟨hun.small, hopt ▸ hun.cmp_eq, hblock.trans hun.block_eq, hoff.trans hun.restartsOff_eq,
    v.index.restartIx_length_pos⟩

/-- Where seeking ends: on the first entry that reaches the target in the block whose separator
reaches it first, and without a position where there is no such block, where it cannot be
read, or where it has no such entry. -/
def Sought (t : Table) (v : TableView) (target : Bytes) (it : TableIterator) : Prop :=
  match Cursor.lowerBound v.index.keys target with
  | none => Reset t v it
  | some i =>
      match v.blocks[i]? with
      | some (some L) =>
          match Cursor.lowerBound L.keys target with
          | some j => On t v i j it
          | none => Parked t v i it
      | _ => Reset t v it

/-- Without an entry of the index that reaches the target, seeking ends without a position. -/
theorem seek_of_none {target : Bytes} {ib : BlockIter} (hseek : it.indexBlock.seek target = .ok ib)
    (hcurrent : ib.current = .ok none) :
    it.seek target c = .ok (({ it with indexBlock := ib } : TableIterator).reset, c) := by
  simp [TableIterator.seek, hseek, hcurrent]

/-- With one, seeking loads its block and looks into it. -/
theorem seek_of_some {target : Bytes} {ib : BlockIter} {s : Slot}
    (hseek : it.indexBlock.seek target = .ok ib) (hcurrent : ib.current = .ok (some s.entry))
    (hreached : it.table.opt.cmp.cmp target s.key ≠ .gt) :
    it.seek target c = (do
      match ← ({ it with indexBlock := ib } : TableIterator).loadBlock s.val c with
      | (.ok (), it, c) => do
          let cb ← unwrap it.currentBlock
          let cb ← cb.seek target
          pure ({ it with currentBlock := some cb }, c)
      | (.error _, it, c) => pure (it.reset, c)) := by
  unfold TableIterator.seek
  rw [hseek, ok_bind]
  dsimp only
  rw [hcurrent, ok_bind]
  exact if_neg hreached

/-- The entry of the index at the lower bound reaches the target. -/
theorem reached_of_lowerBound {target : Bytes} {s : Slot} (hshows : t.Shows v)
    (hbound : Cursor.lowerBound v.index.keys target = some i) (hslot : v.index.slots[i]? = some s) :
    t.opt.cmp.cmp target s.key ≠ .gt := by
  obtain ⟨k, hk, hle, -⟩ := Cursor.lowerBound_eq_some_iff.mp hbound
  rw [v.index.keys_getElem?, hslot, Option.map_some, Option.some.injEq] at hk
  rw [hshows.cmp_eq, defaultCmp_cmp, Ne, DefaultCmp.cmp_eq_gt_iff, hk]
  exact not_lt.mpr hle

/-- Seeking looks for the block in the index and for the entry in the block. -/
theorem seek_spec (hshows : t.Shows v) (hord : v.Ordered) (hserves : CacheServes t v c)
    (htable : it.table = t)
    (hover : BlockIter.Over v.index { it.indexBlock with currentRestartIx := 0 })
    (target : Bytes) :
    ∃ it' c', it.seek target c = .ok (it', c') ∧ CacheServes t v c' ∧ Sought t v target it' := by
  obtain rfl := htable
  obtain ⟨ib, hseek, hplaced⟩ :=
    BlockIter.seek_spec hover hord.index target
  have hseek : it.indexBlock.seek target = .ok ib := hseek
  unfold Sought
  cases hbound : Cursor.lowerBound v.index.keys target with
  | none =>
      rw [hbound] at hplaced
      have hun : BlockIter.Unplaced v.index ib := hplaced
      exact ⟨({ it with indexBlock := ib } : TableIterator).reset, c,
        seek_of_none hseek hun.current, hserves, reset_spec rfl hun.toOver⟩
  | some i =>
      rw [hbound] at hplaced
      obtain ⟨s, hat⟩ := hplaced
      have hcurrent := hat.current (hord.index.key_ne_nil s (List.mem_of_getElem? hat.slot_eq))
      have hrun := seek_of_some (c := c) hseek hcurrent
        (reached_of_lowerBound hshows hbound hat.slot_eq)
      obtain ⟨b, hb⟩ := exists_block v hat.slot_eq
      obtain ⟨c', hserves', hload⟩ := loadBlock_spec { it with indexBlock := ib } hshows
        hserves rfl hat.slot_eq hb
      simp only [hb]
      cases b with
      | none =>
          obtain ⟨e, hload⟩ := hload
          refine ⟨({ it with indexBlock := ib } : TableIterator).reset, c', ?_, hserves',
            reset_spec rfl hat.toOver⟩
          simp [hrun, hload]
      | some L =>
          obtain ⟨cb, off, hload, hun⟩ := hload
          obtain ⟨cb', hseek', hplaced'⟩ := BlockIter.seek_spec hun.toOver
            (hord.block L (List.mem_of_getElem? hb)) target
          refine ⟨{ it with indexBlock := ib, currentBlock := some cb', currentBlockOff := off }, c', ?_,
            hserves', ?_⟩
          · simp [hrun, hload, hseek']
          · cases hentry : Cursor.lowerBound L.keys target with
            | none =>
                rw [hentry] at hplaced'
                have hun' : BlockIter.Unplaced L cb' := hplaced'
                simp only [hentry]
                exact ⟨rfl, ⟨s, hat⟩, L, cb', hb, rfl, hun'⟩
            | some j =>
                rw [hentry] at hplaced'
                obtain ⟨s', hat'⟩ := hplaced'
                simp only [hentry]
                exact ⟨rfl, ⟨s, hat⟩, L, cb', s', hb, rfl, hat'⟩

end TableIterator

end SSTable
