import SSTable.Verification.Block.Resetting
import SSTable.Verification.Table.Using

/-!
# What a table iterator remembers

A table iterator consists of an index iterator and of an iterator over the block it has loaded,
and both of them remember where they were last.  A table trail follows the two through every
operation, whether the iterator is valid or not.

Main results:

- Theorem {lit}`Trailed.step`: every operation moves the iterator where it moves the trail.
- Theorem {lit}`Driven.followed`: every state that is reached in any way has a trail.
-/

namespace SSTable

open Foundation Foundation.Exec Foundation.Bytes

deriving instance DecidableEq for TableOp

/-- Where the index iterator of a table is, and which block is loaded and where its iterator is. -/
structure TableTrail where
  index : Trail
  block : Option (Nat × Trail)

namespace TableTrail

/-- A trail that has not been anywhere. -/
def start : TableTrail := ⟨.start, none⟩

/-- On an entry of a block. -/
def on (i j : Nat) : TableTrail := ⟨.on i, some (i, .on j)⟩

/-- Without a block; the index still remembers where it was. -/
def clear (σ : TableTrail) : TableTrail := ⟨σ.index.clear, none⟩

end TableTrail

/-- What is seen where an entry is shown. -/
def Observation.of (moved : Option Bool) (e : Option Entry) : Observation where
  moved := moved
  valid := e.isSome
  current := e
  currentKey := e.map Prod.fst

variable [Crates]

/-! ## Trails over a view -/

namespace TableView

variable (v : TableView)

/-- The entries of a block. -/
def entriesAt (i : Nat) : List Entry := ((v.blocks[i]?).map blockEntries).getD []

theorem entriesAt_of_some {i : Nat} {L : BlockLayout} (h : v.blocks[i]? = some (some L)) :
    v.entriesAt i = L.entries := by
  simp [entriesAt, h, blockEntries]

/-- The block that holds the entry with the given number, and the place of the entry in it. -/
def locate (k : Nat) : Option (Nat × Nat) :=
  ((List.range v.blocks.length).find? fun i => k < v.start (i + 1)).map fun i => (i, k - v.start i)

theorem start_mono {i j : Nat} (h : i ≤ j) : v.start i ≤ v.start j := by
  induction h with
  | refl => exact le_rfl
  | @step j _ ih =>
      rcases Nat.lt_or_ge j v.blocks.length with hj | hj
      · have hsucc := v.start_succ (List.getElem?_eq_getElem hj)
        have hstep : v.start j ≤ v.start (j + 1) := by omega
        exact ih.trans hstep
      · rw [v.start_of_length_le (hj.trans (Nat.le_succ j)), ← v.start_of_length_le hj]
        exact ih

/-- An entry of a readable block is located there. -/
theorem locate_eq {i j : Nat} {L : BlockLayout} (hL : v.blocks[i]? = some (some L))
    (hj : j < L.slots.length) : v.locate (v.start i + j) = some (i, j) := by
  have hsucc := v.start_succ hL
  simp only [blockEntries, BlockLayout.entries_length] at hsucc
  have hi := (List.getElem?_eq_some_iff.mp hL).1
  have hfind : (List.range v.blocks.length).find?
      (fun i' => decide (v.start i + j < v.start (i' + 1))) = some i := by
    rw [List.find?_eq_some_iff_getElem]
    refine ⟨by simp; omega, i, by simpa using hi, by simp, ?_⟩
    intro i' hi'
    have hmono := v.start_mono (i := i' + 1) (j := i) hi'
    simp only [List.getElem_range, Bool.not_eq_true', decide_eq_false_iff_not]
    omega
  rw [locate, hfind, Option.map_some, Nat.add_sub_cancel_left]

/-- Beyond the last entry there is nothing. -/
theorem locate_eq_none {k : Nat} (h : v.entries.length ≤ k) : v.locate k = none := by
  rw [locate, Option.map_eq_none_iff, List.find?_eq_none]
  intro i _
  have hle := v.start_le (i + 1)
  simp only [decide_eq_true_eq]
  omega

end TableView

namespace TableTrail

/-- The entry that the trail is on. -/
def entry (v : TableView) (σ : TableTrail) : Option Entry :=
  σ.block.bind fun (i, β) => β.pos.bind fun j => (v.entriesAt i)[j]?

/-- To the first entry of the next block that has one. -/
def nextBlock (v : TableView) (σ : TableTrail) : TableTrail :=
  match v.locate (v.start (Cursor.next σ.index.pos)) with
  | some (i, j) => on i j
  | none => ⟨⟨none, v.handles.length - 1⟩, none⟩

/-- To the next entry. -/
def advance (v : TableView) (σ : TableTrail) : TableTrail :=
  match σ.block with
  | some (i, β) =>
      match Cursor.advance (v.entriesAt i).length β.pos with
      | some j => ⟨σ.index, some (i, .on j)⟩
      | none => σ.nextBlock v
  | none => σ.nextBlock v

/-- To the first entry whose key is not below the target, if the block that should hold it has
it. -/
def seek (v : TableView) (target : Bytes) : TableTrail :=
  match Cursor.lowerBound v.index.keys target with
  | none => ⟨⟨none, v.handles.length - 1⟩, none⟩
  | some i =>
      match v.blocks[i]? with
      | some (some L) =>
          ⟨.on i, some (i, .search L.slots.length (Cursor.lowerBound L.keys target))⟩
      | _ => ⟨⟨none, i⟩, none⟩

/-- To the last entry of the block in front of the last one the index was on.  A block without
entries has no last one. -/
def prevBlock (v : TableView) (σ : TableTrail) : Exec (Bool × TableTrail) :=
  match σ.index.last with
  | 0 => pure (false, ⟨.start, σ.block⟩)
  | i + 1 =>
      match v.blocks[i]? with
      | some (some L) => do
          ensure (0 < L.slots.length)
          pure (true, on i (L.slots.length - 1))
      | _ => pure (false, ⟨⟨none, i⟩, none⟩)

/-- To the previous entry. -/
def prev (v : TableView) (σ : TableTrail) : Exec (Bool × TableTrail) :=
  match σ.block with
  | some (i, β) =>
      match β.last with
      | j + 1 => pure (true, ⟨σ.index, some (i, .on j)⟩)
      | 0 => prevBlock v ⟨σ.index, some (i, .start)⟩
  | none => σ.prevBlock v

end TableTrail

/-- The result of an operation on a trail over a view. -/
def TableOp.onTrail (v : TableView) (σ : TableTrail) : TableOp → Exec (Option Bool × TableTrail)
  | .advance => pure (some ((σ.advance v).entry v).isSome, σ.advance v)
  | .seek target => pure (none, .seek v target)
  | .reset => pure (none, σ.clear)
  | .prev => do
      let (moved, σ) ← σ.prev v
      pure (some moved, σ)

/-- An observed step of a trail over a view. -/
def tableTrailStep (v : TableView) (σ : TableTrail) (op : TableOp) :
    Exec (Observation × TableTrail) := do
  let (moved, σ) ← op.onTrail v σ
  pure (.of moved (σ.entry v), σ)

/-- The result of an operation on a table iterator. -/
def TableOp.onIter (it : TableIterator) (c : BlockCache) :
    TableOp → Exec (Option Bool × TableIterator × BlockCache)
  | .advance => do
      let (moved, it, c) ← it.advance c
      pure (some moved, it, c)
  | .seek target => do
      let (it, c) ← it.seek target c
      pure (none, it, c)
  | .reset => pure (none, it.reset, c)
  | .prev => do
      let (moved, it, c) ← it.prev c
      pure (some moved, it, c)

namespace TableIterator

/-- An observed step of a table iterator. -/
def step (s : TableIterator × BlockCache) (op : TableOp) :
    Exec (Observation × TableIterator × BlockCache) := do
  let (moved, it, c) ← op.onIter s.1 s.2
  let entry ← it.current
  pure ({ moved := moved, valid := it.valid, current := entry, currentKey := it.currentKey }, it, c)

/-- The iterator is where a trail over the view is, and remembers what it does. -/
structure Trailed (t : Table) (v : TableView) (σ : TableTrail) (it : TableIterator) : Prop where
  table_eq : it.table = t
  index : BlockIter.Tracked v.index σ.index it.indexBlock
  block : match σ.block with
    | some (i, β) => ∃ L cb, v.blocks[i]? = some (some L) ∧ it.currentBlock = some cb ∧
        BlockIter.Tracked L β cb
    | none => it.currentBlock = none

variable {t : Table} {v : TableView} {σ : TableTrail} {it it' : TableIterator}
  {c c' : BlockCache}

/-- The iterator is where a trail is, and the cache serves the table. -/
def Followed (t : Table) (v : TableView) (s : TableIterator × BlockCache) (σ : TableTrail) : Prop :=
  Trailed t v σ s.1 ∧ CacheServes t v s.2

theorem On.trailed {i j : Nat} (h : On t v i j it) : Trailed t v (.on i j) it := by
  obtain ⟨s, hindex⟩ := h.index
  obtain ⟨L, cb, s', hL, hcb, hat⟩ := h.block
  exact ⟨h.table_eq, hindex.tracked, L, cb, hL, hcb, hat.tracked⟩

/-- Resetting drops the block and keeps what the index remembers. -/
theorem Trailed.reset (h : Trailed t v σ it) : Trailed t v σ.clear it.reset :=
  ⟨h.table_eq, h.index.reset, rfl⟩

/-- An iterator shows the entry its trail is on. -/
theorem Trailed.observed (h : Trailed t v σ it) (hord : v.Ordered) :
    it.current = .ok (σ.entry v) ∧ it.valid = (σ.entry v).isSome ∧
      it.currentKey = (σ.entry v).map Prod.fst := by
  have hblock := h.block
  cases hb : σ.block with
  | none =>
      rw [hb] at hblock
      simp [TableTrail.entry, hb, TableIterator.current, TableIterator.valid,
        TableIterator.currentKey, hblock]
  | some iβ =>
      obtain ⟨i, β⟩ := iβ
      rw [hb] at hblock
      obtain ⟨L, cb, hL, hcb, htracked⟩ := hblock
      have hplaced := htracked.placed
      cases hpos : β.pos with
      | none =>
          rw [hpos] at hplaced
          have hun : BlockIter.Unplaced L cb := hplaced
          simp [TableTrail.entry, hb, hpos, TableIterator.current, TableIterator.valid,
            TableIterator.currentKey, hcb, hun.current, hun.valid, hun.currentKey]
      | some j =>
          rw [hpos] at hplaced
          obtain ⟨s, hat⟩ := hplaced
          have hkey := (hord.block L (List.mem_of_getElem? hL)).key_ne_nil s
            (List.mem_of_getElem? hat.slot_eq)
          have hentry : L.entries[j]? = some s.entry := by
            rw [L.entries_getElem?, hat.slot_eq, Option.map_some]
          simp [TableTrail.entry, hb, hpos, v.entriesAt_of_some hL, hentry, TableIterator.current,
            TableIterator.valid, TableIterator.currentKey, hcb, hat.current hkey,
            hat.valid_of_ne_nil hkey, hat.currentKey hkey, Slot.entry]

/-! ## Forward -/

/-- After one step of the recursion in {lit}`advance`, the index has a trail; if the step ends it
without an entry, the index remembers its last one. -/
def StepRemembers (v : TableView) :
    LoopStep (TableIterator × BlockCache) (Bool × TableIterator × BlockCache) → Prop
  | .next (it, _) => ∃ τ, BlockIter.Tracked v.index τ it.indexBlock
  | .done (more, it, _) => more = false →
      it.indexBlock.currentEntryOffset = v.index.offsetOf (v.index.slots.length - 1)

theorem nextBlock_remembers {τ : Trail} (hord : v.Ordered)
    (htracked : BlockIter.Tracked v.index τ it.indexBlock)
    {r : LoopStep (TableIterator × BlockCache) (Bool × TableIterator × BlockCache)}
    (hnext : it.nextBlock c = .ok r) : StepRemembers v r := by
  obtain ⟨ib, hadvance, htracked'⟩ := htracked.advance
  cases hcursor : Cursor.advance v.index.slots.length τ.pos with
  | none =>
      have hpos : (τ.advance v.index.slots.length).pos = none := by
        simp [Trail.advance, hcursor, Trail.clear]
      rw [hpos] at hadvance
      have hlast := htracked.entry_of_end hcursor
      have hkeep := htracked.advance_of_end hcursor
      have hindex : it.indexBlock.next = .ok (none, it.indexBlock.reset) := by
        simp [BlockIter.next, hkeep]
      simp only [nextBlock, skipToNextEntry, hindex, ok_bind, pure_eq_ok, Except.ok.injEq] at hnext
      subst hnext
      exact fun _ => hlast
  | some i =>
      have htrail : τ.advance v.index.slots.length = .on i := by
        simp [Trail.advance, hcursor]
      rw [htrail] at hadvance htracked'
      obtain ⟨s, hat⟩ := htracked'.placed
      have hcurrent := hat.current (hord.index.key_ne_nil s (List.mem_of_getElem? hat.slot_eq))
      have hindex : it.indexBlock.next = .ok (some s.entry, ib) := by
        simp [BlockIter.next, hadvance, Trail.on, hcurrent]
      simp only [nextBlock, skipToNextEntry, hindex, ok_bind, bind_eq_ok_iff] at hnext
      obtain ⟨⟨loaded, it₁, c₁⟩, ⟨⟨loaded', it₂, c₂⟩, hload, hmap⟩, hrest⟩ := hnext
      have hkept := loadBlock_index hload
      simp only [pure_eq_ok, Except.ok.injEq, Prod.mk.injEq] at hmap
      obtain ⟨rfl, rfl, rfl⟩ := hmap
      have htracked₂ : BlockIter.Tracked v.index (.on i) it₂.indexBlock := by
        rw [hkept]
        exact htracked'
      cases loaded' with
      | ok u =>
          simp only [Except.map, pure_eq_ok, Except.ok.injEq] at hrest
          subst hrest
          exact ⟨_, htracked₂⟩
      | error e =>
          simp only [Except.map, pure_eq_ok, Except.ok.injEq] at hrest
          subst hrest
          exact ⟨_, htracked₂⟩

theorem advanceStep_remembers {τ : Trail} (hord : v.Ordered)
    (htracked : BlockIter.Tracked v.index τ it.indexBlock)
    {r : LoopStep (TableIterator × BlockCache) (Bool × TableIterator × BlockCache)}
    (hstep : it.advanceStep c = .ok r) : StepRemembers v r := by
  unfold advanceStep at hstep
  cases hcb : it.currentBlock with
  | none =>
      rw [hcb] at hstep
      exact nextBlock_remembers hord htracked hstep
  | some cb =>
      simp only [hcb, bind_eq_ok_iff] at hstep
      obtain ⟨⟨more, cb'⟩, -, hrest⟩ := hstep
      cases more with
      | true =>
          simp only [if_true, pure_eq_ok, Except.ok.injEq] at hrest
          subst hrest
          intro hfalse
          cases hfalse
      | false =>
          simp only [Bool.false_eq_true, if_false] at hrest
          have hnext : ({ it with currentBlock := none } : TableIterator).nextBlock c = .ok r := hrest
          exact nextBlock_remembers hord (by exact htracked) hnext

/-- An iterator that has been advanced beyond the last entry remembers the last entry of the
index. -/
theorem entry_of_advance_false {τ : Trail} (hord : v.Ordered)
    (htracked : BlockIter.Tracked v.index τ it.indexBlock)
    (hadvance : it.advance c = .ok (false, it', c')) :
    it'.indexBlock.currentEntryOffset = v.index.offsetOf (v.index.slots.length - 1) := by
  refine loop_partial (fun s => ∃ τ, BlockIter.Tracked v.index τ s.1.indexBlock)
    (fun r => StepRemembers v (.done r)) ?_ ?_ ⟨τ, htracked⟩ hadvance rfl
  · rintro s s' ⟨τ, hs⟩ hrun
    exact advanceStep_remembers hord hs hrun
  · rintro s r ⟨τ, hs⟩ hrun
    exact advanceStep_remembers hord hs hrun

/-- An iterator at the end of its block advances as it does without it. -/
theorem advance_of_exhausted {cb : BlockIter} (hcb : it.currentBlock = some cb)
    (hend : cb.advance = .ok (false, cb.reset)) :
    it.advance c = ({ it with currentBlock := none } : TableIterator).advance c := by
  simp only [TableIterator.advance, loop, advanceStep, hcb, hend, ok_bind, Bool.false_eq_true,
    if_false]

/-- Without a block, the iterator goes on with the next block that has an entry. -/
theorem Trailed.nextBlock (hshows : t.Shows v) (hord : v.Ordered) (hserves : CacheServes t v c)
    (htable : it.table = t) (htracked : BlockIter.Tracked v.index σ.index it.indexBlock)
    (hnone : it.currentBlock = none) :
    ∃ it' c', it.advance c = .ok (((σ.nextBlock v).entry v).isSome, it', c') ∧
      Trailed t v (σ.nextBlock v) it' ∧ CacheServes t v c' := by
  have hbefore := htracked.placed.before
  obtain ⟨⟨more, it', c'⟩, hadvance, hserves', hend⟩ :=
    advance_spec hshows hord hserves (.load htable hbefore hnone rfl)
  rcases hend with ⟨hmore, i', j, hon, hnum⟩ | ⟨hmore, hreset, hlast⟩
  · obtain ⟨L, cb, s, hL, -, hat⟩ := hon.block
    have hplace := v.locate_eq hL hat.lt_length
    have htrail : σ.nextBlock v = .on i' j := by
      rw [TableTrail.nextBlock, ← hnum, hplace]
    have htrailed : Trailed t v (.on i' j) it' := hon.trailed
    obtain ⟨e, -, hvalid, -⟩ := hon.shown hord
    have hmore : more = true := hmore
    refine ⟨it', c', ?_, htrail ▸ htrailed, hserves'⟩
    rw [htrail, ← (htrailed.observed hord).2.1, hvalid, hadvance, hmore]
  · have hmore : more = false := hmore
    subst hmore
    have htrail : σ.nextBlock v = ⟨⟨none, v.handles.length - 1⟩, none⟩ := by
      rw [TableTrail.nextBlock, v.locate_eq_none hlast]
    have hentry := entry_of_advance_false hord htracked hadvance
    have hreset : Reset t v it' := hreset
    rw [htrail]
    refine ⟨it', c', hadvance, ⟨hreset.table_eq, ⟨hreset.index, ?_, ?_⟩, hreset.block_eq⟩, hserves'⟩
    · rw [hentry, v.slots_length]
    · rw [v.slots_length]
      simp only
      omega

theorem Trailed.advance (hshows : t.Shows v) (hord : v.Ordered) (hserves : CacheServes t v c)
    (h : Trailed t v σ it) :
    ∃ it' c', it.advance c = .ok (((σ.advance v).entry v).isSome, it', c') ∧
      Trailed t v (σ.advance v) it' ∧ CacheServes t v c' := by
  have hblock := h.block
  unfold TableTrail.advance
  cases hb : σ.block with
  | none =>
      rw [hb] at hblock
      exact Trailed.nextBlock hshows hord hserves h.table_eq h.index hblock
  | some iβ =>
      obtain ⟨i, β⟩ := iβ
      rw [hb] at hblock
      obtain ⟨L, cb, hL, hcb, htracked⟩ := hblock
      simp only [v.entriesAt_of_some hL, BlockLayout.entries_length]
      cases hcursor : Cursor.advance L.slots.length β.pos with
      | none =>
          rw [advance_of_exhausted hcb (htracked.advance_of_end hcursor)]
          apply Trailed.nextBlock hshows hord hserves
          · exact h.table_eq
          · exact h.index
          · rfl
      | some j =>
          obtain ⟨cb', hadvance, htracked'⟩ := htracked.advance
          have htrail : β.advance L.slots.length = .on j := by simp [Trail.advance, hcursor]
          rw [htrail] at hadvance htracked'
          have htrailed : Trailed t v ⟨σ.index, some (i, .on j)⟩
              { it with currentBlock := some cb' } :=
            ⟨h.table_eq, h.index, L, cb', hL, rfl, htracked'⟩
          refine ⟨{ it with currentBlock := some cb' }, c, ?_, htrailed, hserves⟩
          obtain ⟨s, hat⟩ := htracked'.placed
          have hentry : (TableTrail.entry v ⟨σ.index, some (i, .on j)⟩).isSome = true := by
            simp [TableTrail.entry, Trail.on, v.entriesAt_of_some hL, hat.lt_length]
          rw [hentry]
          apply loop_succ_done
          simp only [advanceStep, hcb, hadvance, ok_bind, Trail.on, Option.isSome_some, if_true,
            pure_eq_ok]

/-! ## Loading blocks -/

/-- The block that is loaded for an entry of the index is at its beginning; one that cannot be
read leaves the iterator alone. -/
theorem loadBlock_tracked (it : TableIterator) (hshows : t.Shows v) (hserves : CacheServes t v c)
    (htable : it.table = t) {i : Nat} {s : Slot} (hslot : v.index.slots[i]? = some s) :
    ∃ c', CacheServes t v c' ∧
      match v.blocks[i]? with
      | some (some L) => ∃ cb off, it.loadBlock s.val c =
          .ok (.ok (), { it with currentBlock := some cb, currentBlockOff := off }, c') ∧
            BlockIter.Tracked L .start cb
      | _ => ∃ e, it.loadBlock s.val c = .ok (.error e, it, c') := by
  obtain ⟨b, hb⟩ := exists_block v hslot
  obtain ⟨c', hserves', hload⟩ := loadBlock_spec it hshows hserves htable hslot hb
  refine ⟨c', hserves', ?_⟩
  rw [hb]
  cases b with
  | none => exact hload
  | some L =>
      obtain ⟨cb, off, hload, hun⟩ := hload
      refine ⟨cb, off, hload, hun, ?_, Or.inl rfl⟩
      rw [loadBlock_entry hload rfl, Trail.start, L.offsetOf_zero]

theorem Trailed.seek (hshows : t.Shows v) (hord : v.Ordered) (hserves : CacheServes t v c)
    (h : Trailed t v σ it) (target : Bytes) :
    ∃ it' c', it.seek target c = .ok (it', c') ∧ Trailed t v (.seek v target) it' ∧
      CacheServes t v c' := by
  have htable := h.table_eq
  obtain ⟨ib, hseek, htracked⟩ := h.index.seek hord.index target
  unfold TableTrail.seek
  cases hbound : Cursor.lowerBound v.index.keys target with
  | none =>
      rw [hbound] at htracked
      have hun : BlockIter.Unplaced v.index ib := htracked.placed
      refine ⟨_, c, seek_of_none hseek hun.current, ⟨htable, ?_, rfl⟩, hserves⟩
      rw [← v.slots_length]
      exact htracked.reset
  | some i =>
      rw [hbound] at htracked
      obtain ⟨s, hat⟩ := htracked.placed
      have hcurrent := hat.current (hord.index.key_ne_nil s (List.mem_of_getElem? hat.slot_eq))
      have hreached := reached_of_lowerBound hshows hbound hat.slot_eq
      rw [← htable] at hreached
      have hrun := seek_of_some (c := c) hseek hcurrent hreached
      obtain ⟨c', hserves', hload⟩ := loadBlock_tracked { it with indexBlock := ib } hshows hserves
        htable hat.slot_eq
      obtain ⟨b, hb⟩ := exists_block v hat.slot_eq
      rw [hb] at hload
      simp only [hb]
      cases b with
      | none =>
          obtain ⟨e, hload⟩ := hload
          refine ⟨({ it with indexBlock := ib } : TableIterator).reset, c', ?_,
            ⟨htable, htracked.reset, rfl⟩, hserves'⟩
          simp [hrun, hload]
      | some L =>
          obtain ⟨cb, off, hload, hstart⟩ := hload
          obtain ⟨cb', hseek', htracked'⟩ := hstart.seek (hord.block L (List.mem_of_getElem? hb))
            target
          refine ⟨{ it with indexBlock := ib, currentBlock := some cb', currentBlockOff := off },
            c', ?_, ⟨htable, htracked, L, cb', hb, rfl, htracked'⟩, hserves'⟩
          simp [hrun, hload, hseek']

/-! ## Backward -/

theorem Trailed.prevBlock (hshows : t.Shows v) (hord : v.Ordered) (hserves : CacheServes t v c)
    (h : Trailed t v σ it) :
    Mirrors (Followed t v) (it.prevBlock c) (σ.prevBlock v) := by
  obtain ⟨ib, hprev, htracked⟩ := h.index.prev
  unfold TableTrail.prevBlock
  cases hlast : σ.index.last with
  | zero =>
      have htrail : σ.index.prev = .start := by simp [Trail.prev, hlast]
      rw [htrail] at hprev htracked
      refine ⟨({ it with indexBlock := ib }, c), ?_, ⟨h.table_eq, htracked, h.block⟩, hserves⟩
      simp [TableIterator.prevBlock, hprev, Trail.start]
  | succ i =>
      have htrail : σ.index.prev = .on i := by simp [Trail.prev, hlast]
      rw [htrail] at hprev htracked
      obtain ⟨s, hat⟩ := htracked.placed
      have hcurrent := hat.current (hord.index.key_ne_nil s (List.mem_of_getElem? hat.slot_eq))
      obtain ⟨c', hserves', hload⟩ := loadBlock_tracked { it with indexBlock := ib } hshows hserves
        h.table_eq hat.slot_eq
      obtain ⟨b, hb⟩ := exists_block v hat.slot_eq
      rw [hb] at hload
      simp only [hb]
      cases b with
      | none =>
          obtain ⟨e, hload⟩ := hload
          refine ⟨(({ it with indexBlock := ib } : TableIterator).reset, c'), ?_,
            ⟨h.table_eq, htracked.reset, rfl⟩, hserves'⟩
          simp [TableIterator.prevBlock, hprev, Trail.on, hcurrent, Slot.entry, hload]
      | some L =>
          obtain ⟨cb, off, hload, hstart⟩ := hload
          have hrun : it.prevBlock c = (do
              let cb ← cb.seekToLast
              pure (cb.valid, { it with indexBlock := ib, currentBlock := some cb,
                                        currentBlockOff := off }, c')) := by
            simp [TableIterator.prevBlock, hprev, Trail.on, hcurrent, Slot.entry, hload]
          by_cases hnil : L.slots = []
          · have hstop : ¬ 0 < L.slots.length := by simp [hnil]
            simp only [ensure_of_false hstop, error_bind]
            rintro ⟨r, hr⟩
            rw [hrun, bind_eq_ok_iff] at hr
            obtain ⟨cb', hend, -⟩ := hr
            exact BlockIter.seekToLast_of_nil hstart.placed.over hnil hend
          · obtain ⟨cb', hend, htracked'⟩ :=
              hstart.seekToLast (hord.block L (List.mem_of_getElem? hb)) hnil
            obtain ⟨s', hat'⟩ := htracked'.placed
            have hvalid := hat'.valid_of_ne_nil ((hord.block L (List.mem_of_getElem? hb)).key_ne_nil
              s' (List.mem_of_getElem? hat'.slot_eq))
            simp only [ensure_of_true (List.length_pos_of_ne_nil hnil), ok_bind]
            refine ⟨({ it with indexBlock := ib, currentBlock := some cb', currentBlockOff := off },
              c'), ?_, ⟨h.table_eq, htracked, L, cb', hb, rfl, htracked'⟩, hserves'⟩
            rw [hrun, hend, ok_bind, hvalid]
            rfl

theorem Trailed.prev (hshows : t.Shows v) (hord : v.Ordered) (hserves : CacheServes t v c)
    (h : Trailed t v σ it) : Mirrors (Followed t v) (it.prev c) (σ.prev v) := by
  have hblock := h.block
  unfold TableTrail.prev
  cases hb : σ.block with
  | none =>
      rw [hb] at hblock
      have hrun : it.prev c = it.prevBlock c := by simp [TableIterator.prev, hblock]
      rw [hrun]
      exact h.prevBlock hshows hord hserves
  | some iβ =>
      obtain ⟨i, β⟩ := iβ
      rw [hb] at hblock
      obtain ⟨L, cb, hL, hcb, htracked⟩ := hblock
      obtain ⟨cb', hprev, htracked'⟩ := htracked.prev
      cases hlast : β.last with
      | zero =>
          have htrail : β.prev = .start := by simp [Trail.prev, hlast]
          rw [htrail] at hprev htracked'
          have hrun : it.prev c =
              ({ it with currentBlock := some cb' } : TableIterator).prevBlock c := by
            simp [TableIterator.prev, hcb, hprev, Trail.start]
          have htrailed : Trailed t v ⟨σ.index, some (i, .start)⟩
              { it with currentBlock := some cb' } :=
            ⟨h.table_eq, h.index, L, cb', hL, rfl, htracked'⟩
          simp only [hlast]
          rw [hrun]
          exact htrailed.prevBlock hshows hord hserves
      | succ j =>
          have htrail : β.prev = .on j := by simp [Trail.prev, hlast]
          rw [htrail] at hprev htracked'
          simp only [hlast]
          refine ⟨({ it with currentBlock := some cb' }, c), ?_,
            ⟨h.table_eq, h.index, L, cb', hL, rfl, htracked'⟩, hserves⟩
          simp [TableIterator.prev, hcb, hprev, Trail.on]

/-! ## All operations -/

/-- Every operation moves the iterator where it moves the trail, and fails only where that does. -/
theorem Trailed.step (hshows : t.Shows v) (hord : v.Ordered) (hserves : CacheServes t v c)
    (h : Trailed t v σ it) (op : TableOp) :
    Mirrors (Followed t v) (op.onIter it c) (op.onTrail v σ) := by
  cases op with
  | advance =>
      obtain ⟨it', c', hadvance, htrailed, hserves'⟩ := h.advance hshows hord hserves
      exact ⟨(it', c'), by simp [TableOp.onIter, hadvance], htrailed, hserves'⟩
  | seek target =>
      obtain ⟨it', c', hseek, htrailed, hserves'⟩ := h.seek hshows hord hserves target
      exact ⟨(it', c'), by simp [TableOp.onIter, hseek], htrailed, hserves'⟩
  | reset => exact ⟨(it.reset, c), rfl, h.reset, hserves⟩
  | prev =>
      have hprev := h.prev hshows hord hserves
      cases htrail : σ.prev v with
      | ok r =>
          rw [htrail] at hprev
          obtain ⟨⟨it', c'⟩, hrun, hfollowed⟩ := hprev
          simp only [TableOp.onTrail, htrail, ok_bind, pure_eq_ok]
          exact ⟨(it', c'), by simp [TableOp.onIter, hrun], hfollowed⟩
      | error e =>
          rw [htrail] at hprev
          simp only [TableOp.onTrail, htrail, error_bind]
          rintro ⟨r, hrun⟩
          simp only [TableOp.onIter, bind_eq_ok_iff] at hrun
          obtain ⟨r', hrun, -⟩ := hrun
          exact hprev ⟨r', hrun⟩

/-- So does every observed step. -/
theorem Followed.step {s : TableIterator × BlockCache} (hshows : t.Shows v) (hord : v.Ordered)
    (h : Followed t v s σ) (op : TableOp) :
    Mirrors (Followed t v) (TableIterator.step s op) (tableTrailStep v σ op) := by
  have hstep := h.1.step hshows hord h.2 op
  cases htrail : op.onTrail v σ with
  | error e =>
      rw [htrail] at hstep
      simp only [tableTrailStep, htrail, error_bind]
      rintro ⟨r, hrun⟩
      simp only [TableIterator.step, bind_eq_ok_iff] at hrun
      obtain ⟨r', hop, -⟩ := hrun
      exact hstep ⟨r', hop⟩
  | ok r =>
      rw [htrail] at hstep
      obtain ⟨⟨it', c'⟩, hop, hfollowed⟩ := hstep
      simp only [tableTrailStep, htrail, ok_bind, pure_eq_ok]
      refine ⟨(it', c'), ?_, hfollowed⟩
      obtain ⟨hcurrent, hvalid, hkey⟩ := hfollowed.1.observed hord
      simp only at hcurrent hvalid hkey
      simp only [TableIterator.step, hop, ok_bind, hcurrent, pure_eq_ok, hvalid, hkey, Observation.of]

end TableIterator

/-! ## Every history -/

/-- What may happen to an iterator and the cache: an operation, or something the other users of
the cache do. -/
inductive TableMove (t : Table) (handles : List BlockHandle) :
    TableIterator × BlockCache → TableIterator × BlockCache → Prop
  | op {op : TableOp} {it it' : TableIterator} {c c' : BlockCache}
      (hstep : op.run it c = .ok (it', c')) : TableMove t handles (it, c) (it', c')
  | others {it : TableIterator} {c c' : BlockCache} (hrun : CacheRun t handles c c') :
      TableMove t handles (it, c) (it, c')

/-- The states that are reached by any operations in any order. -/
def Driven (t : Table) (handles : List BlockHandle) :
    TableIterator × BlockCache → TableIterator × BlockCache → Prop :=
  Relation.ReflTransGen (TableMove t handles)

open TableIterator

theorem TableOp.run_eq_ok_iff {op : TableOp} {it : TableIterator} {c : BlockCache}
    {s' : TableIterator × BlockCache} :
    op.run it c = .ok s' ↔ ∃ moved, op.onIter it c = .ok (moved, s') := by
  have hmoved : ∀ x : Exec (Bool × TableIterator × BlockCache),
      ((do
        let (_, it, c) ← x
        pure (it, c)) = (.ok s' : Exec (TableIterator × BlockCache))) ↔
        ∃ moved, (do
          let (moved, it, c) ← x
          pure (some moved, it, c)) =
            (.ok (moved, s') : Exec (Option Bool × TableIterator × BlockCache)) := by
    intro x
    simp only [bind_eq_ok_iff, pure_eq_ok, Except.ok.injEq, Prod.mk.injEq]
    constructor
    · rintro ⟨r, hx, hs'⟩
      exact ⟨some r.1, r, hx, rfl, hs'⟩
    · rintro ⟨-, r, hx, -, hs'⟩
      exact ⟨r, hx, hs'⟩
  cases op with
  | advance => exact hmoved (it.advance c)
  | seek target => simp [TableOp.run, TableOp.onIter, bind_eq_ok_iff]
  | reset => simp [TableOp.run, TableOp.onIter]
  | prev => exact hmoved (it.prev c)

/-- What is reached by a run of observed operations is reached. -/
theorem driven_of_runOps {t : Table} {handles : List BlockHandle} {s s' : TableIterator × BlockCache}
    {ops : List TableOp} {ws : List Observation}
    (h : runOps TableIterator.step s ops = .ok (ws, s')) : Driven t handles s s' := by
  induction ops generalizing s ws with
  | nil =>
      simp only [runOps, pure_eq_ok, Except.ok.injEq, Prod.mk.injEq] at h
      exact h.2 ▸ Relation.ReflTransGen.refl
  | cons op ops ih =>
      simp only [runOps, bind_eq_ok_iff, pure_eq_ok, Except.ok.injEq, Prod.mk.injEq] at h
      obtain ⟨⟨w, s₁⟩, hstep, ⟨ws', s₂⟩, hrest, -, rfl⟩ := h
      simp only [TableIterator.step, bind_eq_ok_iff, pure_eq_ok, Except.ok.injEq,
        Prod.mk.injEq] at hstep
      obtain ⟨⟨moved, s₃⟩, hop, entry, -, -, rfl⟩ := hstep
      exact Relation.ReflTransGen.head (.op (TableOp.run_eq_ok_iff.mpr ⟨moved, hop⟩)) (ih hrest)

/-- Every state that is reached in any way has a trail. -/
theorem Driven.followed {t : Table} {v : TableView} {s₀ s : TableIterator × BlockCache}
    {σ₀ : TableTrail} (hshows : t.Shows v) (hord : v.Ordered) (h₀ : Followed t v s₀ σ₀)
    (hdriven : Driven t v.handles s₀ s) : ∃ σ, Followed t v s σ := by
  induction hdriven with
  | refl => exact ⟨σ₀, h₀⟩
  | tail _ hmove ih =>
      obtain ⟨σ, htrailed, hserves⟩ := ih
      cases hmove with
      | @op op it it' c c' hstep =>
          obtain ⟨moved, hop⟩ := TableOp.run_eq_ok_iff.mp hstep
          have hmirror := htrailed.step hshows hord hserves op
          rw [hop] at hmirror
          obtain ⟨σ', -, hfollowed⟩ := hmirror.of_ok
          exact ⟨σ', hfollowed⟩
      | others hrun => exact ⟨σ, htrailed, hserves.run hshows hrun⟩

end SSTable
