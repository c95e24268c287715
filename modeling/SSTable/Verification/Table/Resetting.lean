import SSTable.Verification.Table.RoundTrip
import SSTable.Verification.Table.Trails

/-!
# Resetting and leaving a table

An iterator that is reset keeps the last position of its index, and one that goes back beyond the
first entry keeps its block.  Both can be seen later on.

Main results:

- Theorem {lit}`reset_fresh_iff`: when a reset iterator, over a block or over a table, shows what
  a fresh one shows.
- Theorem {lit}`front_repeats`: behind the front of a table, the first block is read twice.
-/

namespace SSTable

open Foundation Foundation.Exec Foundation.Bytes

section

variable [Crates]

/-! ## Resetting -/

/-- A table trail without a position whose index has been on an entry is told from one whose index
has not by going back at once, and by nothing else. -/
theorem observe_tableTrail_iff {v : TableView} {l : Nat}
    (hread : ∀ b ∈ v.blocks, ∃ L, b = some L) (hl : l = 0 ∨ l < v.blocks.length)
    (ops : List TableOp) :
    observe (tableTrailStep v) ⟨⟨none, l⟩, none⟩ ops = observe (tableTrailStep v) .start ops ↔
      l = 0 ∨ ops.find? (· ≠ .reset) ≠ some .prev := by
  cases l with
  | zero => simp [TableTrail.start, Trail.start]
  | succ l =>
      refine (observe_eq_iff (fun op => op = .reset) (fun op => op ≠ .prev) ?_ ?_ ?_ ops).trans ?_
      · intro op hop
        obtain rfl : op = .reset := by simpa using hop
        exact ⟨_, rfl, rfl⟩
      · intro op hop hsame
        cases op with
        | advance => rfl
        | seek target => rfl
        | reset => simp at hop
        | prev => exact absurd rfl hsame
      · intro op _ hprev
        obtain rfl : op = .prev := by simpa using hprev
        have hlt : l < v.blocks.length := by omega
        obtain ⟨L, hL⟩ := hread _ (List.getElem_mem hlt)
        have hget : v.blocks[l]? = some (some L) := by rw [List.getElem?_eq_getElem hlt, hL]
        have hfresh : (observe (tableTrailStep v) .start [.prev]).head? =
            some (some (.of (some false) none)) := rfl
        rw [hfresh]
        -- Going back moves to the end of a block, or fails if the block has no entry.
        by_cases hpos : 0 < L.slots.length
        · simp [observe, tableTrailStep, TableOp.onTrail, TableTrail.prev, TableTrail.prevBlock, hget,
            ensure_of_true hpos, Observation.of]
        · simp [observe, tableTrailStep, TableOp.onTrail, TableTrail.prev, TableTrail.prevBlock, hget,
            ensure_of_false hpos]
      · simp only [Nat.succ_ne_zero, false_or]
        constructor
        · intro h hprev
          exact h .prev (by simpa using hprev) rfl
        · rintro h op hop rfl
          exact h (by simpa using hop)

namespace TableIterator

variable {t : Table} {v : TableView} {σ : TableTrail} {it it₀ : TableIterator}
  {c c₀ : BlockCache}

theorem Fresh.trailed (h : Fresh t v it) : Trailed t v .start it :=
  ⟨h.table_eq, ⟨h.index, h.entry_eq.trans v.index.offsetOf_zero.symm, Or.inl rfl⟩, h.block_eq⟩

/-- A reset iterator shows what a fresh one shows, unless its index remembers an entry other than
the first one and it goes back before it moves in another way. -/
theorem Trailed.observe_reset_iff (hshows : t.Shows v) (hord : v.Ordered)
    (hread : ∀ b ∈ v.blocks, ∃ L, b = some L) (hserves : CacheServes t v c) (h : Trailed t v σ it)
    (hserves₀ : CacheServes t v c₀) (hfresh : Fresh t v it₀) (ops : List TableOp) :
    observe TableIterator.step (it.reset, c) ops = observe TableIterator.step (it₀, c₀) ops ↔
      it.indexBlock.currentEntryOffset = 0 ∨ ops.find? (· ≠ .reset) ≠ some .prev := by
  have hmirror : ∀ (s : TableIterator × BlockCache) (σ : TableTrail) (op : TableOp),
      Followed t v s σ → Mirrors (Followed t v) (TableIterator.step s op) (tableTrailStep v σ op) :=
    fun s σ op h => h.step hshows hord op
  have hreset : Followed t v (it.reset, c) σ.clear := ⟨h.reset, hserves⟩
  have hstart : Followed t v (it₀, c₀) .start := ⟨hfresh.trailed, hserves₀⟩
  rw [observe_mirrors hmirror hreset ops, observe_mirrors hmirror hstart ops, h.index.entry_zero_iff]
  apply observe_tableTrail_iff hread
  rw [v.length_eq, ← v.slots_length]
  exact h.index.last_lt

end TableIterator

end

/-- Whatever was done with an iterator, it shows after it was reset what a fresh iterator shows
exactly if it was last on the first entry of its block (a table iterator: on the first entry of
the index), or on none, or does not go back before it moves in another way. -/
theorem reset_fresh_iff [Crates] :
    (∀ (opt ropt : Options) (es : List Entry), opt.cmp = DefaultCmp → ropt.cmp = DefaultCmp →
      1 ≤ opt.blockRestartInterval → Increasing es → NonEmptyKeys es →
      ∃ b, (BlockBuilder.new opt).addAll es = .ok b ∧
        (b.finish.length < 2 ^ 32 →
          ∃ block it₀, Block.new ropt b.finish = .ok block ∧ block.iter = .ok it₀ ∧
            ∀ it, BlockIter.Driven it₀ it → ∀ ops,
              (observe BlockIter.step it.reset ops = observe BlockIter.step it₀ ops ↔
                it.currentEntryOffset = 0 ∨ ops.find? (· ≠ .reset) ≠ some .prev))) ∧
    (∀ (opt ropt : Options) (es : List Entry) (n : Nat) (img : Bytes) (f : RandomAccess)
      (c : BlockCache), opt.cmp = DefaultCmp → ropt.cmp = DefaultCmp → Increasing es →
      NonEmptyKeys es → BlockLimits opt es →
      TableBuilder.writeTable opt [] es = .ok (.ok n, img) → img.length ≤ maxAllocation →
      DefectiveData opt ropt (cuts opt es) img (fun _ => false) f → c.Reachable →
      c.id + 1 < wordLimit →
      ∃ t c₀ it₀, Table.new ropt f n c = .ok (.ok t, c₀) ∧ t.iter = .ok it₀ ∧
        ∀ it c₁ c₂, Driven t (dataHandles opt es) (it₀, c₀) (it, c₁) →
          CacheRun t (dataHandles opt es) c₁ c₂ → ∀ ops,
          (observe TableIterator.step (it.reset, c₁) ops =
              observe TableIterator.step (it₀, c₂) ops ↔
            it.indexBlock.currentEntryOffset = 0 ∨ ops.find? (· ≠ .reset) ≠ some .prev)) := by
  constructor
  · intro opt ropt es hcmp hrcmp hr hinc hkeys
    refine ⟨_, BlockBuilder.addAll_new hcmp hr hinc, ?_⟩
    intro hsmall
    obtain ⟨L, rfl, hfinish⟩ := BlockBuilder.exists_layout opt es
    rw [hfinish] at hsmall ⊢
    obtain ⟨it₀, hiter, hfresh⟩ := BlockIter.tracked_iter
      (b := { block := L.contents, opt := ropt }) hsmall hrcmp rfl
    refine ⟨_, it₀, Block.new_contents L ropt, hiter, ?_⟩
    intro it hdriven ops
    have hord := BlockLayout.ordered_of_entries hinc hkeys
    obtain ⟨τ, htracked⟩ := hdriven.tracked hord hfresh
    exact htracked.observe_reset_iff hord hfresh ops
  · intro opt ropt es n img f c hcmp hrcmp hinc hkeys hlimits hwrite hsize hf hc hid
    obtain ⟨fb, hs, t, reader, -, hnew, -, hshows, hserves, -⟩ :=
      open_written hcmp hrcmp hlimits hwrite hsize hf hc hid
    obtain ⟨it₀, hiter, hfresh⟩ := TableIterator.iter_spec hshows
    have hord := hs.view_ordered (fun _ => false) hinc hkeys
    refine ⟨t, _, it₀, hnew, hiter, ?_⟩
    intro it c₁ c₂ hdriven hrun ops
    obtain ⟨σ, htrailed, hserves₁⟩ := hdriven.followed hshows hord ⟨hfresh.trailed, hserves⟩
    exact htrailed.observe_reset_iff hshows hord hs.view_readable hserves₁
      (hserves₁.run hshows hrun) hfresh ops

/-- Reset iterators over the block of the three keys and over their table. -/
theorem reset_fresh_iff_neighbours : letI := referenceCrates
    (∃ b, (BlockBuilder.new .default).addAll neighbours = .ok b ∧
      (b.finish.length < 2 ^ 32 →
        ∃ block it₀, Block.new .default b.finish = .ok block ∧ block.iter = .ok it₀ ∧
          ∀ it, BlockIter.Driven it₀ it → ∀ ops,
            (observe BlockIter.step it.reset ops = observe BlockIter.step it₀ ops ↔
              it.currentEntryOffset = 0 ∨ ops.find? (· ≠ .reset) ≠ some .prev))) ∧
    ∃ t c₀ it₀, Table.new .default (BufferBackedFile neighboursImage) 211 smallCache =
        .ok (.ok t, c₀) ∧ t.iter = .ok it₀ ∧
      ∀ it c₁ c₂, Driven t (dataHandles tinyBlocks neighbours) (it₀, c₀) (it, c₁) →
        CacheRun t (dataHandles tinyBlocks neighbours) c₁ c₂ → ∀ ops,
        (observe TableIterator.step (it.reset, c₁) ops =
            observe TableIterator.step (it₀, c₂) ops ↔
          it.indexBlock.currentEntryOffset = 0 ∨ ops.find? (· ≠ .reset) ≠ some .prev) :=
  letI := referenceCrates
  ⟨reset_fresh_iff.1 .default .default neighbours rfl rfl (by decide) (by decide) (by decide),
    reset_fresh_iff.2 tinyBlocks .default neighbours 211 neighboursImage
      (BufferBackedFile neighboursImage) smallCache rfl rfl (by decide) (by decide)
      neighbours_blockLimits neighboursImage_eq neighboursImage_small
      (defectiveData_none _ _ _ _) smallCache_reachable (by decide)⟩

/-- Open a table, do something with an iterator over it, and reset it; the result is what it shows
from then on, and what a fresh iterator shows. -/
def resetOpened [Crates] (opt : Options) (f : RandomAccess) (size : Nat) (c : BlockCache)
    (history ops : List TableOp) :
    Exec (Result (List (Option Observation) × List (Option Observation))) := do
  let (opened, c) ← Table.new opt f size c
  match opened with
  | .error e => pure (.error e)
  | .ok t => do
      let it₀ ← t.iter
      let (_, it, c) ← runOps TableIterator.step (it₀, c) history
      pure (.ok (observe TableIterator.step (it.reset, c) ops,
        observe TableIterator.step (it₀, c) ops))

/-- Open a table, advance to the first entry and go back; the result is that entry, whether the
iterator moved and is valid, and what the advances that follow yield. -/
def leftOpened [Crates] (opt : Options) (f : RandomAccess) (size : Nat) (c : BlockCache)
    (calls : Nat) : Exec (Result (Option Entry × Bool × Bool × List Entry)) := do
  let (opened, c) ← Table.new opt f size c
  match opened with
  | .error e => pure (.error e)
  | .ok t => do
      let it ← t.iter
      let (_, it, c) ← runOps TableIterator.step (it, c) [.advance]
      let entry ← it.current
      let (moved, it, c) ← it.prev c
      let (rest, _) ← TableIterator.collect calls it c
      pure (.ok (entry, moved, it.valid, rest))

set_option maxRecDepth 10000 in
set_option synthInstance.maxSize 1000 in
/-- What there is to compute about two iterators over the table of three keys. -/
theorem neighbours_opened : letI := referenceCrates
    resetOpened .default (BufferBackedFile neighboursImage) 211 smallCache
        [.advance, .advance] [.prev] =
      .ok (.ok ([some ⟨some true, true, some ([97], [1]), some [97]⟩],
        [some ⟨some false, false, none, none⟩])) ∧
    leftOpened .default (BufferBackedFile neighboursImage) 211 smallCache 5 =
      .ok (.ok (some ([97], [1]), false, false, ([97], [1]) :: neighbours)) := by
  decide +kernel

/-- An iterator that was on the second entry of a table can go back after it was reset, and is
valid then; a fresh one cannot. -/
theorem reset_remembers : letI := referenceCrates
    Increasing neighbours ∧ NonEmptyKeys neighbours ∧
      TableBuilder.writeTable tinyBlocks ([] : Bytes) neighbours = .ok (.ok 211, neighboursImage) ∧
      ∃ t c₀ it₀ it c₁,
        Table.new .default (BufferBackedFile neighboursImage) 211 smallCache = .ok (.ok t, c₀) ∧
        t.iter = .ok it₀ ∧ Driven t (dataHandles tinyBlocks neighbours) (it₀, c₀) (it, c₁) ∧
        observe TableIterator.step (it.reset, c₁) [.prev] =
          [some ⟨some true, true, some ([97], [1]), some [97]⟩] ∧
        observe TableIterator.step (it₀, c₁) [.prev] = [some ⟨some false, false, none, none⟩] := by
  let := referenceCrates
  refine ⟨by decide, by decide, neighboursImage_eq, ?_⟩
  have hrun := neighbours_opened.1
  simp only [resetOpened, bind_eq_ok_iff] at hrun
  obtain ⟨⟨opened, c₀⟩, hnew, hrun⟩ := hrun
  cases opened with
  | error e => simp at hrun
  | ok t =>
      simp only [bind_eq_ok_iff, pure_eq_ok, Except.ok.injEq, Prod.mk.injEq] at hrun
      obtain ⟨it₀, hiter, ⟨ws, it, c₁⟩, hhistory, hreset, hfresh⟩ := hrun
      exact ⟨t, c₀, it₀, it, c₁, hnew, hiter, driven_of_runOps hhistory, hreset, hfresh⟩

/-! ## Leaving a table at its front -/

section

variable [Crates]

namespace TableIterator

variable {t : Table} {v : TableView} {σ : TableTrail} {it it' : TableIterator}
  {c c' : BlockCache}

/-- Collecting does not depend on the number of calls, if there are enough of them. -/
theorem collect_succ {calls : Nat} {es : List Entry} (h : collect calls it c = .ok (es, it', c')) :
    collect (calls + 1) it c = .ok (es, it', c') := by
  induction calls generalizing it c es with
  | zero => simp [collect] at h
  | succ calls ih =>
      rw [collect, bind_eq_ok_iff] at h
      obtain ⟨⟨more, it₁, c₁⟩, hadvance, hrest⟩ := h
      rw [collect, hadvance, ok_bind]
      cases more with
      | false => exact hrest
      | true =>
          simp only [if_true, bind_eq_ok_iff] at hrest ⊢
          obtain ⟨entry, hcurrent, e, hentry, ⟨rest, it₂, c₂⟩, hcollect, hdone⟩ := hrest
          simp only [pure_eq_ok, Except.ok.injEq, Prod.mk.injEq] at hdone
          obtain ⟨rfl, rfl, rfl⟩ := hdone
          exact ⟨entry, hcurrent, e, hentry, _, ih hcollect, rfl⟩

theorem collect_of_le {calls calls' : Nat} {es : List Entry} (hle : calls ≤ calls')
    (h : collect calls it c = .ok (es, it', c')) : collect calls' it c = .ok (es, it', c') := by
  induction hle with
  | refl => exact h
  | step _ ih => exact collect_succ ih

/-- What is collected is determined. -/
theorem collect_unique {calls calls' : Nat} {es es' : List Entry} {it'' : TableIterator}
    {c'' : BlockCache} (h : collect calls it c = .ok (es, it', c'))
    (h' : collect calls' it c = .ok (es', it'', c'')) : es = es' := by
  have hmax := collect_of_le (Nat.le_max_left calls calls') h
  rw [collect_of_le (Nat.le_max_right calls calls') h', Except.ok.injEq, Prod.mk.injEq] at hmax
  exact hmax.1.symm

/-- An iterator that has left the table at its front has lost its place in the index, and is before
the first entry of the block it was in. -/
theorem Trailed.left_front (hshows : t.Shows v) (hord : v.Ordered)
    (hread : ∀ b ∈ v.blocks, ∃ L, b = some L) (hserves : CacheServes t v c) (h : Trailed t v σ it)
    {e : Entry} (hcurrent : it.current = .ok (some e))
    (hprev : it.prev c = .ok (false, it', c')) :
    ∃ i L, v.blocks[i]? = some (some L) ∧ e ∈ L.entries ∧
      Trailed t v ⟨.start, some (i, .start)⟩ it' ∧ CacheServes t v c' := by
  have hmirror := h.prev hshows hord hserves
  rw [hprev] at hmirror
  obtain ⟨σ', hσ', htrailed, hserves'⟩ := hmirror.of_ok
  have hentry : σ.entry v = some e :=
    Except.ok.inj ((h.observed hord).1.symm.trans hcurrent)
  have hblock := h.block
  cases hb : σ.block with
  | none => simp [TableTrail.entry, hb] at hentry
  | some iβ =>
      obtain ⟨i, β⟩ := iβ
      rw [hb] at hblock
      obtain ⟨L, cb, hL, -, -⟩ := hblock
      have hmem : e ∈ L.entries := by
        simp only [TableTrail.entry, hb, Option.bind_some, Option.bind_eq_some_iff,
          v.entriesAt_of_some hL] at hentry
        obtain ⟨j, -, hget⟩ := hentry
        exact List.mem_of_getElem? hget
      refine ⟨i, L, hL, hmem, ?_, hserves'⟩
      -- Everywhere but at the first entry of the first block, going back returns true or fails.
      simp only [TableTrail.prev, hb] at hσ'
      cases hβ : β.last with
      | succ j => simp [hβ] at hσ'
      | zero =>
          simp only [hβ, TableTrail.prevBlock] at hσ'
          cases hindex : σ.index.last with
          | zero =>
              simp only [hindex, pure_eq_ok, Except.ok.injEq, Prod.mk.injEq, true_and] at hσ'
              exact hσ' ▸ htrailed
          | succ k =>
              have hlt : k < v.blocks.length := by
                have hbound := h.index.last_lt
                rw [hindex, v.slots_length, ← v.length_eq] at hbound
                omega
              obtain ⟨L', hL'⟩ := hread _ (List.getElem_mem hlt)
              have hget : v.blocks[k]? = some (some L') := by
                rw [List.getElem?_eq_getElem hlt, hL']
              simp [hindex, hget, bind_eq_ok_iff] at hσ'

/-- Advancing from a position in a block without a place in the index reads what is left of the
block, and then the whole table. -/
theorem Trailed.collect_from {i j : Nat} {β : Trail} {L : BlockLayout} (hshows : t.Shows v)
    (hord : v.Ordered) (hserves : CacheServes t v c) (hL : v.blocks[i]? = some (some L))
    (h : Trailed t v ⟨.start, some (i, β)⟩ it)
    (hj : Cursor.next β.pos = j) (hle : j ≤ L.slots.length) :
    ∃ it' c', collect (L.slots.length - j + v.entries.length + 1) it c =
      .ok (L.entries.drop j ++ v.entries, it', c') := by
  obtain ⟨m, hm⟩ : ∃ m, m = L.slots.length - j := ⟨_, rfl⟩
  rw [← hm]
  induction m generalizing j β it c with
  | zero =>
      obtain ⟨L', cb, hL', hcb, htracked⟩ := h.block
      obtain rfl : L = L' := by
        rw [hL, Option.some.injEq, Option.some.injEq] at hL'
        exact hL'
      have hend : Cursor.advance L.slots.length β.pos = none :=
        Cursor.advance_eq_none_iff.mpr (by omega)
      have hsame := advance_of_exhausted (c := c) hcb (htracked.advance_of_end hend)
      have hindex : BlockIter.Unplaced v.index it.indexBlock := h.index.placed
      have hready : Ready t v (v.start 0) { it with currentBlock := none } :=
        .load h.table_eq hindex.before rfl rfl
      obtain ⟨it', c', hcollect, -⟩ := collect_spec hshows hord hserves hready (Nat.zero_le _)
      refine ⟨it', c', ?_⟩
      rw [List.drop_of_length_le (by rw [L.entries_length]; omega), List.nil_append, Nat.zero_add]
      rw [v.start_zero, Nat.sub_zero, List.drop_zero] at hcollect
      rw [← hcollect]
      simp only [collect, hsame]
  | succ m ih =>
      have hcursor : Cursor.advance (v.entriesAt i).length β.pos = some j := by
        rw [v.entriesAt_of_some hL, L.entries_length, Cursor.advance_eq, hj, if_pos (by omega)]
      have htrail : TableTrail.advance v ⟨.start, some (i, β)⟩ = ⟨.start, some (i, .on j)⟩ := by
        simp only [TableTrail.advance, hcursor]
      obtain ⟨it₁, c₁, hadvance, htrailed, hserves₁⟩ := h.advance hshows hord hserves
      rw [htrail] at hadvance htrailed
      have hlt : j < L.entries.length := by
        rw [L.entries_length]
        omega
      have hentry : TableTrail.entry v ⟨.start, some (i, .on j)⟩ = some L.entries[j] := by
        simp [TableTrail.entry, Trail.on, v.entriesAt_of_some hL]
      have hcurrent := (htrailed.observed hord).1
      rw [hentry] at hadvance hcurrent
      obtain ⟨it', c', hrest⟩ := ih hserves₁ htrailed (j := j + 1) rfl (by omega) (by omega)
      refine ⟨it', c', ?_⟩
      rw [List.drop_eq_getElem_cons hlt, Nat.add_right_comm m 1]
      rw [collect]
      simp only [hadvance, Option.isSome_some, ok_bind, if_true, hcurrent, unwrap_some, hrest,
        pure_eq_ok, List.cons_append]

end TableIterator

end

/-- An iterator that goes back beyond the first entry of a table is invalid, but does not start
over: the advances that follow yield the entries of the first block, and then the whole table.
So they never yield every entry exactly once. -/
theorem front_repeats [Crates] (opt ropt : Options) (es : List Entry) (n : Nat) (img : Bytes)
    (f : RandomAccess) (c : BlockCache) (hcmp : opt.cmp = DefaultCmp)
    (hrcmp : ropt.cmp = DefaultCmp) (hinc : Increasing es) (hkeys : NonEmptyKeys es)
    (hlimits : BlockLimits opt es) (hwrite : TableBuilder.writeTable opt [] es = .ok (.ok n, img))
    (hsize : img.length ≤ maxAllocation)
    (hf : DefectiveData opt ropt (cuts opt es) img (fun _ => false) f)
    (hc : c.Reachable) (hid : c.id + 1 < wordLimit) :
    ∃ t c₀ it₀, Table.new ropt f n c = .ok (.ok t, c₀) ∧ t.iter = .ok it₀ ∧
      ∀ it c₁ e it' c₂, Driven t (dataHandles opt es) (it₀, c₀) (it, c₁) → es.head? = some e →
        it.current = .ok (some e) → it.prev c₁ = .ok (false, it', c₂) →
        it'.valid = false ∧
        ∀ c₃, CacheRun t (dataHandles opt es) c₂ c₃ →
          (¬ ∃ calls it'' c₄, TableIterator.collect calls it' c₃ = .ok (es, it'', c₄)) ∧
          ∃ b ∈ cuts opt es, e ∈ b.entries ∧ ∃ it'' c₄,
            TableIterator.collect (b.entries.length + es.length + 1) it' c₃ =
              .ok (b.entries ++ es, it'', c₄) := by
  obtain ⟨fb, hs, t, reader, -, hnew, -, hshows, hserves, -⟩ :=
    open_written hcmp hrcmp hlimits hwrite hsize hf hc hid
  obtain ⟨it₀, hiter, hfresh⟩ := TableIterator.iter_spec hshows
  have hord := hs.view_ordered (fun _ => false) hinc hkeys
  have hentries : (hs.view fun _ => false).entries = es := by
    rw [hs.view_entries, readable_none, flatten_cuts]
  refine ⟨t, _, it₀, hnew, hiter, ?_⟩
  intro it c₁ e it' c₂ hdriven _ hcurrent hprev
  obtain ⟨σ, htrailed, hserves₁⟩ := hdriven.followed hshows hord ⟨hfresh.trailed, hserves⟩
  obtain ⟨i, L, hL, hmem, htrailed', hserves₂⟩ :=
    htrailed.left_front hshows hord hs.view_readable hserves₁ hcurrent hprev
  have hblock : ∃ b, (cuts opt es)[i]? = some b ∧ layoutOf opt b.entries = L := by
    simpa [hs.view_blocks] using hL
  obtain ⟨b, hb, rfl⟩ := hblock
  rw [layoutOf_entries] at hmem
  refine ⟨(htrailed'.observed hord).2.1, ?_⟩
  intro c₃ hrun
  obtain ⟨it'', c₄, hcollect⟩ := htrailed'.collect_from hshows hord (hserves₂.run hshows hrun) hL rfl
    (Nat.zero_le _)
  rw [hentries, layoutOf_slots_length, layoutOf_entries] at hcollect
  refine ⟨?_, b, List.mem_of_getElem? hb, hmem, it'', c₄, hcollect⟩
  rintro ⟨calls, it₁, c₅, honce⟩
  have heq := congrArg List.length (TableIterator.collect_unique honce hcollect)
  have hpos := List.length_pos_of_mem hmem
  simp only [Cursor.next, List.drop_zero, List.length_append, Trail.start] at heq
  omega

/-- Leaving the table of three keys at its front. -/
theorem front_repeats_neighbours : letI := referenceCrates
    ∃ t c₀ it₀, Table.new .default (BufferBackedFile neighboursImage) 211 smallCache =
        .ok (.ok t, c₀) ∧ t.iter = .ok it₀ ∧
      ∀ it c₁ e it' c₂, Driven t (dataHandles tinyBlocks neighbours) (it₀, c₀) (it, c₁) →
        neighbours.head? = some e → it.current = .ok (some e) →
        it.prev c₁ = .ok (false, it', c₂) →
        it'.valid = false ∧
        ∀ c₃, CacheRun t (dataHandles tinyBlocks neighbours) c₂ c₃ →
          (¬ ∃ calls it'' c₄, TableIterator.collect calls it' c₃ = .ok (neighbours, it'', c₄)) ∧
          ∃ b ∈ cuts tinyBlocks neighbours, e ∈ b.entries ∧ ∃ it'' c₄,
            TableIterator.collect (b.entries.length + neighbours.length + 1) it' c₃ =
              .ok (b.entries ++ neighbours, it'', c₄) :=
  letI := referenceCrates
  front_repeats tinyBlocks .default neighbours 211 neighboursImage
    (BufferBackedFile neighboursImage) smallCache rfl rfl (by decide) (by decide)
    neighbours_blockLimits neighboursImage_eq neighboursImage_small
    (defectiveData_none _ _ _ _) smallCache_reachable (by decide)

/-- After an iterator has left the table of three keys at its front, the first key is read twice. -/
theorem front_twice : letI := referenceCrates
    Increasing neighbours ∧ NonEmptyKeys neighbours ∧
      TableBuilder.writeTable tinyBlocks ([] : Bytes) neighbours = .ok (.ok 211, neighboursImage) ∧
      ∃ t c₀ it₀ it c₁ it' c₂ it'' c₃,
        Table.new .default (BufferBackedFile neighboursImage) 211 smallCache = .ok (.ok t, c₀) ∧
        t.iter = .ok it₀ ∧ Driven t (dataHandles tinyBlocks neighbours) (it₀, c₀) (it, c₁) ∧
        it.current = .ok (some ([97], [1])) ∧ it.prev c₁ = .ok (false, it', c₂) ∧
        it'.valid = false ∧
        TableIterator.collect 5 it' c₂ = .ok (([97], [1]) :: neighbours, it'', c₃) := by
  let := referenceCrates
  refine ⟨by decide, by decide, neighboursImage_eq, ?_⟩
  have hrun := neighbours_opened.2
  simp only [leftOpened, bind_eq_ok_iff] at hrun
  obtain ⟨⟨opened, c₀⟩, hnew, hrun⟩ := hrun
  cases opened with
  | error e => simp at hrun
  | ok t =>
      simp only [bind_eq_ok_iff, pure_eq_ok, Except.ok.injEq, Prod.mk.injEq] at hrun
      obtain ⟨it₀, hiter, ⟨ws, it, c₁⟩, hhistory, entry, hcurrent, ⟨moved, it', c₂⟩, hprev,
        ⟨rest, it'', c₃⟩, hcollect, rfl, rfl, hvalid, rfl⟩ := hrun
      exact ⟨t, c₀, it₀, it, c₁, it', c₂, it'', c₃, hnew, hiter, driven_of_runOps hhistory, hcurrent,
        hprev, hvalid, hcollect⟩

end SSTable
