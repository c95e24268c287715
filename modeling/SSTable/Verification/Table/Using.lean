import SSTable.Verification.Table.Scanning

/-!
# Whatever is done with a table iterator

An iterator may be advanced, moved to a target and reset at any time, and moved back while it is
valid.  The states it can reach are few.  One of them is left over when an iterator goes back
beyond the first entry: it has lost its place in the index, but not the first block.

Main results:

- Theorem {lit}`Located.step`: the states are closed under the operations.
- Theorem {lit}`Used.located`: every state that is reached is one of them.
-/

namespace SSTable

open Foundation Foundation.Exec Foundation.Bytes

variable [Crates]

/-- What is done with an iterator. -/
inductive TableOp where
  | advance
  | seek (target : Bytes)
  | reset
  | prev

/-- Do something with an iterator. -/
def TableOp.run (it : TableIterator) (c : BlockCache) : TableOp → Exec (TableIterator × BlockCache)
  | .advance => do
      let (_, it, c) ← it.advance c
      pure (it, c)
  | .seek target => it.seek target c
  | .reset => pure (it.reset, c)
  | .prev => do
      let (_, it, c) ← it.prev c
      pure (it, c)

/-- The states that an iterator reaches from the one it begins in, if it goes back only while it
is valid and the cache may be used by others in between. -/
inductive Used (t : Table) (handles : List BlockHandle) (it : TableIterator) (c : BlockCache) :
    TableIterator → BlockCache → Prop
  | begin : Used t handles it c it c
  | others {it₁ : TableIterator} {c₁ c₂ : BlockCache} (hused : Used t handles it c it₁ c₁)
      (hrun : CacheRun t handles c₁ c₂) : Used t handles it c it₁ c₂
  | step {op : TableOp} {it₁ it₂ : TableIterator} {c₁ c₂ : BlockCache}
      (hused : Used t handles it c it₁ c₁) (hvalid : op = .prev → it₁.valid = true)
      (hstep : op.run it₁ c₁ = .ok (it₂, c₂)) : Used t handles it c it₂ c₂

namespace TableIterator

/-- The iterator has gone back beyond the first entry: the first block is still loaded, but the
index iterator has no position. -/
structure Stalled (t : Table) (v : TableView) (p : Option Nat) (it : TableIterator) : Prop where
  table_eq : it.table = t
  index : BlockIter.Unplaced v.index it.indexBlock
  entry_eq : it.indexBlock.currentEntryOffset = 0
  block : ∃ L cb, v.blocks[0]? = some (some L) ∧ it.currentBlock = some cb ∧
    BlockIter.Placed L p cb

/-- The states of an iterator. -/
inductive Located (t : Table) (v : TableView) (it : TableIterator) : Prop
  | reset (h : Reset t v it)
  | on {i j : Nat} (h : On t v i j it)
  | parked {i : Nat} (h : Parked t v i it)
  | stalled {p : Option Nat} (h : Stalled t v p it)

variable {t : Table} {v : TableView} {it it' : TableIterator} {c c' : BlockCache}

theorem Located.table_eq (h : Located t v it) : it.table = t := by
  cases h with
  | reset h => exact h.table_eq
  | on h => exact h.table_eq
  | parked h => exact h.table_eq
  | stalled h => exact h.table_eq

theorem Located.over (h : Located t v it) : BlockIter.Over v.index it.indexBlock := by
  cases h with
  | reset h => exact h.index.toOver
  | on h => exact h.ready.over
  | parked h => exact h.ready.over
  | stalled h => exact h.index.toOver

theorem Located.rewound (h : Located t v it) :
    BlockIter.Over v.index { it.indexBlock with currentRestartIx := 0 } :=
  { h.over with restart_lt := v.index.restartIx_length_pos }

/-- A valid iterator is on an entry of the block it has loaded. -/
theorem Located.of_valid (h : Located t v it) (hvalid : it.valid = true) :
    (∃ i j, On t v i j it) ∨ ∃ j, Stalled t v (some j) it := by
  cases h with
  | reset h =>
      rw [h.valid] at hvalid
      cases hvalid
  | @on i j h => exact Or.inl ⟨i, j, h⟩
  | parked h =>
      rw [h.valid] at hvalid
      cases hvalid
  | @stalled p h =>
      cases p with
      | some j => exact Or.inr ⟨j, h⟩
      | none =>
          obtain ⟨L, cb, -, hcb, hun⟩ := h.block
          have hun : BlockIter.Unplaced L cb := hun
          simp [TableIterator.valid, hcb, hun.valid] at hvalid

/-- After advancing, the iterator is on an entry or has no position. -/
theorem Advanced.located {k : Nat} {r : Bool × TableIterator × BlockCache}
    (h : Advanced t v k r) : Located t v r.2.1 := by
  rcases h.2 with ⟨-, i, j, hon, -⟩ | ⟨-, hreset, -⟩
  · exact .on hon
  · exact .reset hreset

/-- From the state behind the first entry, advancing reads the first block and then, once more,
the whole table. -/
theorem Stalled.advance {p : Option Nat} (hshows : t.Shows v) (hord : v.Ordered)
    (hserves : CacheServes t v c) (h : Stalled t v p it) :
    ∃ r, it.advance c = .ok r ∧ CacheServes t v r.2.2 ∧ Located t v r.2.1 := by
  obtain ⟨L, cb, hL, hcb, hplaced⟩ := h.block
  obtain ⟨j, hbefore⟩ : ∃ j, BlockIter.Before L j cb := by
    cases p with
    | none => exact ⟨0, BlockIter.Unplaced.before hplaced⟩
    | some j =>
        obtain ⟨s, hat⟩ := hplaced
        exact ⟨j + 1, hat.before⟩
  unfold TableIterator.advance
  rcases Nat.lt_or_ge j L.slots.length with hmore | hend
  · obtain ⟨cb', hadvance, hat⟩ :=
      BlockIter.advance_of_before hbefore (List.getElem?_eq_getElem hmore)
    refine ⟨(true, { it with currentBlock := some cb' }, c), ?_, hserves,
      .stalled (p := some j) ⟨h.table_eq, h.index, h.entry_eq, L, cb', hL, rfl, _, hat⟩⟩
    apply loop_succ_done
    simp [advanceStep, hcb, hadvance]
  · have hstep : it.advanceStep c = ({ it with currentBlock := none } :
        TableIterator).nextBlock c := by
      simp [advanceStep, hcb, BlockIter.advance_of_end hbefore hend]
    rcases nextBlock_spec { it with currentBlock := none } hshows hord hserves h.table_eq
      h.index.before rfl with ⟨it', c', hnext, hserves', hready, -, -⟩ | ⟨it', hnext, hreset, -⟩
    · have hbody := v.index.body_le_contents
      have hblock := h.index.block_eq
      obtain ⟨r, hrun, hadvanced⟩ := advanceLoop_spec (it.indexBlock.block.length + 1)
        hshows hord hserves' hready (by rw [hblock]; omega)
      refine ⟨r, ?_, hadvanced.1, hadvanced.located⟩
      rw [loop_succ_next _ (hstep.trans hnext)]
      exact hrun
    · exact ⟨_, loop_succ_done _ (hstep.trans hnext), hserves, .reset hreset⟩

/-- Advancing never fails. -/
theorem Located.advance (hshows : t.Shows v) (hord : v.Ordered) (hserves : CacheServes t v c)
    (h : Located t v it) :
    ∃ r, it.advance c = .ok r ∧ CacheServes t v r.2.2 ∧ Located t v r.2.1 := by
  have hready : ∀ {k}, Ready t v k it →
      ∃ r, it.advance c = .ok r ∧ CacheServes t v r.2.2 ∧ Located t v r.2.1 := by
    intro k hready
    obtain ⟨r, hadvance, hadvanced⟩ := advance_spec hshows hord hserves hready
    exact ⟨r, hadvance, hadvanced.1, hadvanced.located⟩
  cases h with
  | reset h => exact hready h.ready
  | on h => exact hready h.ready
  | parked h => exact hready h.ready
  | stalled h => exact h.advance hshows hord hserves

/-- Behind the first entry of the table, an iterator stays behind it. -/
theorem Stalled.prev {j : Nat} (h : Stalled t v (some j) it) :
    ∃ it', it.prev c = .ok (decide (0 < j), it', c) ∧
      Stalled t v (if j = 0 then none else some (j - 1)) it' := by
  obtain ⟨L, cb, hL, hcb, s, hat⟩ := h.block
  cases j with
  | zero =>
      refine ⟨{ it with indexBlock := it.indexBlock.reset, currentBlock := some cb.reset }, ?_,
        h.table_eq, h.index.toOver.reset, h.entry_eq, L, _, hL, rfl, hat.toOver.reset⟩
      have hindex : it.indexBlock.prev = .ok (false, it.indexBlock.reset) := by
        simp [BlockIter.prev, h.entry_eq]
      simp [TableIterator.prev, prevBlock, hcb, BlockIter.prev_of_at_zero hat, hindex]
  | succ j =>
      obtain ⟨cb', s', hprev, hat'⟩ := BlockIter.prev_of_at hat
      refine ⟨{ it with currentBlock := some cb' }, ?_, h.table_eq, h.index, h.entry_eq, L, cb', hL,
        rfl, s', hat'⟩
      simp [TableIterator.prev, hcb, hprev]

/-- Going back from the first entry of all. -/
theorem stalled_of_prev (h : On t v 0 0 it) :
    ∃ it', it.prev c = .ok (false, it', c) ∧ Stalled t v none it' := by
  obtain ⟨s, hindex⟩ := h.index
  obtain ⟨L, cb, s', hL, hcb, hat⟩ := h.block
  refine ⟨{ it with indexBlock := it.indexBlock.reset, currentBlock := some cb.reset }, ?_,
    h.table_eq, hindex.toOver.reset, ?_, L, _, hL, rfl, hat.toOver.reset⟩
  · simp [TableIterator.prev, prevBlock, hcb, BlockIter.prev_of_at_zero hat,
      BlockIter.prev_of_at_zero hindex]
  · exact hindex.entry_eq.trans v.index.offsetOf_zero

/-- The block in front of the one an iterator is on. -/
theorem On.exists_block {i j : Nat} (h : On t v (i + 1) j it) : ∃ b, v.blocks[i]? = some b := by
  obtain ⟨s, hindex⟩ := h.index
  have hlt := hindex.lt_length
  rw [v.slots_length, ← v.length_eq] at hlt
  exact ⟨_, List.getElem?_eq_getElem (Nat.lt_of_succ_lt hlt)⟩

/-- Going back from an entry, if it does not fail. -/
theorem On.prev_located {i j : Nat} {more : Bool} (hshows : t.Shows v) (hord : v.Ordered)
    (hserves : CacheServes t v c) (h : On t v i j it) (hprev : it.prev c = .ok (more, it', c')) :
    CacheServes t v c' ∧ Located t v it' := by
  cases j with
  | succ j =>
      obtain ⟨it₁, hrun, hon⟩ := prev_within h (c := c)
      rw [hrun, Except.ok.injEq, Prod.mk.injEq, Prod.mk.injEq] at hprev
      obtain ⟨-, rfl, rfl⟩ := hprev
      exact ⟨hserves, .on hon⟩
  | zero =>
      cases i with
      | zero =>
          obtain ⟨it₁, hrun, hstalled⟩ := stalled_of_prev h (c := c)
          rw [hrun, Except.ok.injEq, Prod.mk.injEq, Prod.mk.injEq] at hprev
          obtain ⟨-, rfl, rfl⟩ := hprev
          exact ⟨hserves, .stalled hstalled⟩
      | succ i =>
          obtain ⟨b, hb⟩ := h.exists_block
          have hacross := prev_across hshows hord hserves h hb
          cases b with
          | none =>
              obtain ⟨it₁, c₁, hrun, hserves₁, hreset⟩ := hacross
              rw [hrun, Except.ok.injEq, Prod.mk.injEq, Prod.mk.injEq] at hprev
              obtain ⟨-, rfl, rfl⟩ := hprev
              exact ⟨hserves₁, .reset hreset⟩
          | some L =>
              by_cases hnil : L.slots = []
              · simp only [if_pos hnil] at hacross
                exact absurd ⟨_, hprev⟩ hacross
              · simp only [if_neg hnil] at hacross
                obtain ⟨it₁, c₁, hrun, hserves₁, hon⟩ := hacross
                rw [hrun, Except.ok.injEq, Prod.mk.injEq, Prod.mk.injEq] at hprev
                obtain ⟨-, rfl, rfl⟩ := hprev
                exact ⟨hserves₁, .on hon⟩

/-- Seeking never fails, and ends without a position or in the block it has looked into. -/
theorem Located.seek (hshows : t.Shows v) (hord : v.Ordered) (hserves : CacheServes t v c)
    (h : Located t v it) (target : Bytes) :
    ∃ it' c', it.seek target c = .ok (it', c') ∧ CacheServes t v c' ∧ Located t v it' := by
  obtain ⟨it', c', hseek, hserves', hsought⟩ :=
    seek_spec hshows hord hserves h.table_eq h.rewound target
  refine ⟨it', c', hseek, hserves', ?_⟩
  unfold Sought at hsought
  split at hsought
  · exact .reset hsought
  · split at hsought
    · split at hsought
      · exact .on hsought
      · exact .parked hsought
    · exact .reset hsought

/-- Going back while the iterator is valid, if it does not fail. -/
theorem Located.prev {more : Bool} (hshows : t.Shows v) (hord : v.Ordered)
    (hserves : CacheServes t v c) (h : Located t v it) (hvalid : it.valid = true)
    (hprev : it.prev c = .ok (more, it', c')) : CacheServes t v c' ∧ Located t v it' := by
  rcases h.of_valid hvalid with ⟨i, j, hon⟩ | ⟨j, hstalled⟩
  · exact hon.prev_located hshows hord hserves hprev
  · obtain ⟨it₁, hrun, hstalled'⟩ := hstalled.prev (c := c)
    rw [hrun, Except.ok.injEq, Prod.mk.injEq, Prod.mk.injEq] at hprev
    obtain ⟨-, rfl, rfl⟩ := hprev
    exact ⟨hserves, .stalled hstalled'⟩

/-- The states are closed under the operations. -/
theorem Located.step {op : TableOp} (hshows : t.Shows v) (hord : v.Ordered)
    (hserves : CacheServes t v c) (h : Located t v it) (hvalid : op = .prev → it.valid = true)
    (hstep : op.run it c = .ok (it', c')) : CacheServes t v c' ∧ Located t v it' := by
  cases op with
  | advance =>
      obtain ⟨r, hadvance, hserves', hlocated⟩ := h.advance hshows hord hserves
      simp only [TableOp.run, hadvance, ok_bind, pure_eq_ok, Except.ok.injEq] at hstep
      obtain ⟨rfl, rfl⟩ := Prod.mk.inj hstep
      exact ⟨hserves', hlocated⟩
  | seek target =>
      obtain ⟨it₁, c₁, hseek, hserves', hlocated⟩ := h.seek hshows hord hserves target
      simp only [TableOp.run, hseek, Except.ok.injEq] at hstep
      obtain ⟨rfl, rfl⟩ := Prod.mk.inj hstep
      exact ⟨hserves', hlocated⟩
  | reset =>
      simp only [TableOp.run, pure_eq_ok, Except.ok.injEq] at hstep
      obtain ⟨rfl, rfl⟩ := Prod.mk.inj hstep
      exact ⟨hserves, .reset (reset_spec h.table_eq h.over)⟩
  | prev =>
      simp only [TableOp.run, bind_eq_ok_iff] at hstep
      obtain ⟨⟨more, it₁, c₁⟩, hprev, hstep⟩ := hstep
      simp only [pure_eq_ok, Except.ok.injEq] at hstep
      obtain ⟨rfl, rfl⟩ := Prod.mk.inj hstep
      exact h.prev hshows hord hserves (hvalid rfl) hprev

end TableIterator

open TableIterator

/-- Every state that is reached is one of them. -/
theorem Used.located {t : Table} {v : TableView} {it₀ it : TableIterator} {c₀ c : BlockCache}
    (hshows : t.Shows v) (hord : v.Ordered) (hserves : CacheServes t v c₀)
    (hlocated : Located t v it₀) (hused : Used t v.handles it₀ c₀ it c) :
    CacheServes t v c ∧ Located t v it := by
  induction hused with
  | begin => exact ⟨hserves, hlocated⟩
  | others _ hrun ih => exact ⟨ih.1.run hshows hrun, ih.2⟩
  | step _ hvalid hstep ih => exact ih.2.step hshows hord ih.1 hvalid hstep

end SSTable
