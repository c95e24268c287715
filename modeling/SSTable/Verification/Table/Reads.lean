import SSTable.Foundation.Calls
import SSTable.Verification.Table.Trails

/-!
# Lookups and iterators as programs that read blocks

Between two reads through the block cache, a lookup and an operation on an iterator touch nothing
that others can see.  Each of them is a program that asks for blocks, and asks for those blocks
only whose handles an iterator over the table's index can be on.

Main results:

- Theorem {lit}`Table.get_eq` and Theorem {lit}`TableOp.onIter_eq`: run on the block cache, the
  programs are the functions of the table.
- Theorem {lit}`Table.getReads_all` and Theorem {lit}`TableOp.reads_all`: the programs ask for
  blocks of the index only.
-/

namespace SSTable

open Foundation Foundation.Exec Foundation.Bytes Foundation.Calls

variable [Crates]

/-- A program that asks for blocks of tables. -/
abbrev BlockReads (α : Type) := Calls (Table × BlockHandle) (Result Block) α

/-- The answer of the block cache. -/
def cachedRead (read : Table × BlockHandle) (c : BlockCache) : Exec (Result Block × BlockCache) :=
  read.1.readBlock read.2 c

/-- A table that is read from another source. -/
def Table.onFile (t : Table) (φ : Table → RandomAccess) : Table := { t with file := φ t }

/-- An iterator over such a table. -/
def TableIterator.onFile (it : TableIterator) (φ : Table → RandomAccess) : TableIterator :=
  { it with table := it.table.onFile φ }

/-- The answer of the block cache of such tables. -/
def fileRead (φ : Table → RandomAccess) (read : Table × BlockHandle) (c : BlockCache) :
    Exec (Result Block × BlockCache) :=
  (read.1.onFile φ).readBlock read.2 c

/-! ## The programs -/

/-- Look a key up in a table. -/
def Table.getReads (t : Table) (key : Bytes) : BlockReads (Result (Option Bytes)) := do
  match ← ofExec (t.findBlock key) with
  | none => pure (.ok none)
  | some handle => do
      if ← ofExec (t.filterAdmits handle key) then
        match ← ask (t, handle) with
        | .error e => pure (.error e)
        | .ok tb => do
            let found ← ofExec (t.searchBlock tb key)
            pure (.ok found)
      else
        pure (.ok none)

namespace TableIterator

/-- Load the block at an encoded handle as the current block. -/
def loadReads (it : TableIterator) (handle : Bytes) : BlockReads (Result Unit × TableIterator) := do
  let (newBlockHandle, _) ← ofExec (BlockHandle.decode handle)
  match ← ask (it.table, newBlockHandle) with
  | .error e => pure (.error e, it)
  | .ok block => do
      let blockIter ← ofExec block.iter
      pure (.ok (),
        { it with currentBlock := some blockIter, currentBlockOff := newBlockHandle.offset })

/-- Load the block of the next index entry. -/
def skipReads (it : TableIterator) : BlockReads (Result Bool × TableIterator) := do
  let (entry, indexBlock) ← ofExec it.indexBlock.next
  let it := { it with indexBlock := indexBlock }
  match entry with
  | some (_, val) => do
      let (loaded, it) ← it.loadReads val
      pure (loaded.map fun _ => true, it)
  | none => pure (.ok false, it)

/-- Load the next block and go on with it. -/
def nextReads (it : TableIterator) : BlockReads (LoopStep TableIterator (Bool × TableIterator)) := do
  match ← it.skipReads with
  | (.ok true, it) => pure (.next it)
  | (.ok false, it) => pure (.done (false, it.reset))
  | (.error _, it) => pure (.next it)

/-- One call of the recursion in {lit}`advance`. -/
def stepReads (it : TableIterator) : BlockReads (LoopStep TableIterator (Bool × TableIterator)) :=
  match it.currentBlock with
  | none => it.nextReads
  | some cb => do
      let (more, cb) ← ofExec cb.advance
      if more then
        pure (.done (true, { it with currentBlock := some cb }))
      else
        let it := { it with currentBlock := none }
        it.nextReads

/-- Move to the next entry. -/
def advanceReads (it : TableIterator) : BlockReads (Bool × TableIterator) :=
  Calls.loop stepReads (it.indexBlock.block.length + 2) it

/-- Move to the first entry whose key is not below the target. -/
def seekReads (it : TableIterator) (target : Bytes) : BlockReads TableIterator := do
  let indexBlock ← ofExec (it.indexBlock.seek target)
  let it := { it with indexBlock := indexBlock }
  match ← ofExec it.indexBlock.current with
  | some (pastBlock, handle) =>
      if it.table.opt.cmp.cmp target pastBlock = .gt then
        pure it.reset
      else
        match ← it.loadReads handle with
        | (.ok (), it) => do
            let cb ← ofExec (unwrap it.currentBlock)
            let cb ← ofExec (cb.seek target)
            pure { it with currentBlock := some cb }
        | (.error _, it) => pure it.reset
  | none => pure it.reset

/-- Go back one block and to its last entry. -/
def prevBlockReads (it : TableIterator) : BlockReads (Bool × TableIterator) := do
  let (moved, indexBlock) ← ofExec it.indexBlock.prev
  let it := { it with indexBlock := indexBlock }
  if moved then
    match ← ofExec it.indexBlock.current with
    | some (_, handle) =>
        match ← it.loadReads handle with
        | (.ok (), it) => do
            let cb ← ofExec (unwrap it.currentBlock)
            let cb ← ofExec cb.seekToLast
            pure (cb.valid, { it with currentBlock := some cb })
        | (.error _, it) => pure (false, it.reset)
    | none => pure (false, it)
  else
    pure (false, it)

/-- Move to the previous entry. -/
def prevReads (it : TableIterator) : BlockReads (Bool × TableIterator) :=
  match it.currentBlock with
  | some cb => do
      let (moved, cb) ← ofExec cb.prev
      let it := { it with currentBlock := some cb }
      if moved then
        pure (true, it)
      else
        it.prevBlockReads
  | none => it.prevBlockReads

end TableIterator

/-- An operation on a table iterator. -/
def TableOp.reads (it : TableIterator) : TableOp → BlockReads (Option Bool × TableIterator)
  | .advance => do
      let (moved, it) ← it.advanceReads
      pure (some moved, it)
  | .seek target => do
      let it ← it.seekReads target
      pure (none, it)
  | .reset => pure (none, it.reset)
  | .prev => do
      let (moved, it) ← it.prevReads
      pure (some moved, it)

/-! ## The programs are the functions of the table -/

/-- Run on the block cache, with the tables read from other sources, the program of a lookup is the
lookup in the table read from there. -/
theorem Table.get_onFile (t : Table) (φ : Table → RandomAccess) (key : Bytes) (c : BlockCache) :
    (t.onFile φ).get key c = (t.getReads key).run (fileRead φ) c := by
  have hfind : (t.onFile φ).findBlock key = t.findBlock key := rfl
  have hadmits : ∀ handle, (t.onFile φ).filterAdmits handle key = t.filterAdmits handle key :=
    fun _ => rfl
  have hsearch : ∀ tb, (t.onFile φ).searchBlock tb key = t.searchBlock tb key := fun _ => rfl
  unfold Table.get Table.getReads
  rw [run_bind, run_ofExec, hfind]
  rcases t.findBlock key with e | _ | handle
  · rfl
  · rfl
  · simp only [ok_bind, pure_eq_ok, run_bind, run_ofExec, hadmits]
    rcases t.filterAdmits handle key with e | _ | _
    · rfl
    · rfl
    · simp only [ok_bind, if_true, run_bind, run_ask, fileRead]
      rcases (t.onFile φ).readBlock handle c with e | ⟨e | tb, c'⟩
      · rfl
      · rfl
      · simp only [ok_bind, run_bind, run_ofExec, hsearch]
        rcases t.searchBlock tb key with e | found
        · rfl
        · rfl

/-- Run on the block cache, the program of a lookup is the lookup. -/
theorem Table.get_eq (t : Table) (key : Bytes) (c : BlockCache) :
    t.get key c = (t.getReads key).run cachedRead c :=
  t.get_onFile Table.file key c

namespace TableIterator

section

variable (it : TableIterator) (φ : Table → RandomAccess) (c : BlockCache)

theorem loadBlock_onFile (handle : Bytes) : (it.onFile φ).loadBlock handle c =
    (it.loadReads handle).run (fileRead φ) c >>= fun r => pure (r.1.1, r.1.2.onFile φ, r.2) := by
  unfold loadBlock loadReads
  rw [run_bind, run_ofExec]
  rcases BlockHandle.decode handle with e | ⟨h, n⟩
  · rfl
  · simp only [ok_bind, pure_eq_ok, run_bind, run_ask, fileRead]
    have htable : (it.onFile φ).table = it.table.onFile φ := rfl
    rw [htable]
    rcases (it.table.onFile φ).readBlock h c with e | ⟨e | block, c'⟩
    · rfl
    · rfl
    · simp only [ok_bind, run_bind, run_ofExec]
      rcases block.iter with e | blockIter
      · rfl
      · rfl

theorem skipToNextEntry_onFile : (it.onFile φ).skipToNextEntry c =
    it.skipReads.run (fileRead φ) c >>= fun r => pure (r.1.1, r.1.2.onFile φ, r.2) := by
  have hindex : (it.onFile φ).indexBlock = it.indexBlock := rfl
  unfold skipToNextEntry skipReads
  rw [run_bind, run_ofExec, hindex]
  rcases it.indexBlock.next with e | ⟨_ | ⟨k, val⟩, indexBlock⟩
  · rfl
  · rfl
  · have hmove : { it.onFile φ with indexBlock := indexBlock } =
        ({ it with indexBlock := indexBlock } : TableIterator).onFile φ := rfl
    simp only [ok_bind, pure_eq_ok, run_bind, hmove, loadBlock_onFile]
    rcases Calls.run (fileRead φ) (loadReads { it with indexBlock := indexBlock } val) c with
      e | ⟨⟨loaded, it'⟩, c'⟩
    · rfl
    · rfl

theorem nextBlock_onFile : (it.onFile φ).nextBlock c = it.nextReads.run (fileRead φ) c >>= fun r =>
    pure (packStep (onFile · φ) (fun a c => (a.1, a.2.onFile φ, c)) r) := by
  unfold nextBlock nextReads
  rw [run_bind, skipToNextEntry_onFile]
  rcases it.skipReads.run (fileRead φ) c with e | ⟨⟨e | _ | _, it'⟩, c'⟩
  · rfl
  · rfl
  · rfl
  · rfl

theorem advanceStep_onFile : (it.onFile φ).advanceStep c =
    it.stepReads.run (fileRead φ) c >>= fun r =>
      pure (packStep (onFile · φ) (fun a c => (a.1, a.2.onFile φ, c)) r) := by
  have hblock : (it.onFile φ).currentBlock = it.currentBlock := rfl
  unfold advanceStep stepReads
  rw [hblock]
  cases it.currentBlock with
  | none => exact nextBlock_onFile it φ c
  | some cb =>
      simp only [run_bind, run_ofExec]
      rcases cb.advance with e | ⟨_ | _, cb'⟩
      · rfl
      · exact nextBlock_onFile { it with currentBlock := none } φ c
      · rfl

/-- Run on the block cache, with the tables read from other sources, the program of the recursion is
the recursion over the table read from there. -/
theorem advance_onFile : (it.onFile φ).advance c =
    it.advanceReads.run (fileRead φ) c >>= fun r => pure (r.1.1, r.1.2.onFile φ, r.2) :=
  run_loop (onFile · φ) (fun (a : Bool × TableIterator) c => (a.1, a.2.onFile φ, c))
    (fun it c => advanceStep_onFile it φ c) _ it

end

variable (it : TableIterator) (c : BlockCache)

theorem loadBlock_eq (handle : Bytes) : it.loadBlock handle c =
    (it.loadReads handle).run cachedRead c >>= fun r => pure (r.1.1, r.1.2, r.2) :=
  loadBlock_onFile it Table.file c handle

/-- Run on the block cache, the program of the recursion is the recursion. -/
theorem advance_eq : it.advance c =
    it.advanceReads.run cachedRead c >>= fun r => pure (r.1.1, r.1.2, r.2) :=
  advance_onFile it Table.file c

theorem seek_eq (target : Bytes) :
    it.seek target c = (it.seekReads target).run cachedRead c := by
  unfold seek seekReads
  rw [run_bind, run_ofExec]
  rcases it.indexBlock.seek target with e | indexBlock
  · rfl
  · simp only [ok_bind, pure_eq_ok, run_bind, run_ofExec]
    rcases indexBlock.current with e | _ | ⟨pastBlock, handle⟩
    · rfl
    · rfl
    · simp only [ok_bind]
      split
      · rfl
      · rw [run_bind, loadBlock_eq]
        rcases Calls.run cachedRead (loadReads { it with indexBlock := indexBlock } handle) c with
          e | ⟨⟨e | _, it'⟩, c'⟩
        · rfl
        · rfl
        · simp only [ok_bind, pure_eq_ok, run_bind, run_ofExec]
          rcases unwrap it'.currentBlock with e | cb
          · rfl
          · simp only [ok_bind]
            rcases cb.seek target with e | cb'
            · rfl
            · rfl

theorem prevBlock_eq : it.prevBlock c =
    it.prevBlockReads.run cachedRead c >>= fun r => pure (r.1.1, r.1.2, r.2) := by
  unfold prevBlock prevBlockReads
  rw [run_bind, run_ofExec]
  rcases it.indexBlock.prev with e | ⟨_ | _, indexBlock⟩
  · rfl
  · rfl
  · simp only [ok_bind, pure_eq_ok, if_true, run_bind, run_ofExec]
    rcases indexBlock.current with e | _ | ⟨k, handle⟩
    · rfl
    · rfl
    · simp only [ok_bind, run_bind, loadBlock_eq]
      rcases Calls.run cachedRead (loadReads { it with indexBlock := indexBlock } handle) c with
        e | ⟨⟨e | _, it'⟩, c'⟩
      · rfl
      · rfl
      · simp only [ok_bind, pure_eq_ok, run_bind, run_ofExec]
        rcases unwrap it'.currentBlock with e | cb
        · rfl
        · simp only [ok_bind]
          rcases cb.seekToLast with e | cb'
          · rfl
          · rfl

theorem prev_eq : it.prev c =
    it.prevReads.run cachedRead c >>= fun r => pure (r.1.1, r.1.2, r.2) := by
  unfold prev prevReads
  cases it.currentBlock with
  | none => exact prevBlock_eq it c
  | some cb =>
      simp only [run_bind, run_ofExec]
      rcases cb.prev with e | ⟨_ | _, cb'⟩
      · rfl
      · exact prevBlock_eq _ c
      · rfl

end TableIterator

/-- Run on the block cache, the program of an operation is the operation. -/
theorem TableOp.onIter_eq (it : TableIterator) (op : TableOp) (c : BlockCache) :
    op.onIter it c = (op.reads it).run cachedRead c >>= fun r => pure (r.1.1, r.1.2, r.2) := by
  cases op with
  | advance =>
      simp only [TableOp.onIter, TableOp.reads, run_bind, it.advance_eq]
      rcases it.advanceReads.run cachedRead c with e | ⟨⟨moved, it'⟩, c'⟩
      · rfl
      · rfl
  | seek target =>
      simp only [TableOp.onIter, TableOp.reads, run_bind, it.seek_eq]
      rcases (it.seekReads target).run cachedRead c with e | ⟨it', c'⟩
      · rfl
      · rfl
  | reset => rfl
  | prev =>
      simp only [TableOp.onIter, TableOp.reads, run_bind, it.prev_eq]
      rcases it.prevReads.run cachedRead c with e | ⟨⟨moved, it'⟩, c'⟩
      · rfl
      · rfl

/-! ## The blocks that are asked for -/

/-- A handle in a block is one whose encoding an iterator over the block can show as a value. -/
def Block.Lists (b : Block) (h : BlockHandle) : Prop :=
  ∃ it₀ it k val n, b.iter = .ok it₀ ∧ BlockIter.Driven it₀ it ∧
    it.current = .ok (some (k, val)) ∧ BlockHandle.decode val = .ok (h, n)

/-- A block of the table is asked for. -/
def Asked (t : Table) (read : Table × BlockHandle) : Prop :=
  read.1 = t ∧ t.indexBlock.Lists read.2

/-- A lookup asks for a block of its table. -/
theorem Table.getReads_all (t : Table) (key : Bytes) :
    (t.getReads key).All (Asked t) fun _ => True := by
  refine all_exec_bind fun found hfound => ?_
  cases found with
  | none => trivial
  | some handle =>
      have hlists : t.indexBlock.Lists handle := by
        simp only [Table.findBlock, bind_eq_ok_iff] at hfound
        obtain ⟨it₀, hiter, it, hseek, entry, hcurrent, hfound⟩ := hfound
        have hdriven : BlockIter.Driven it₀ it :=
          .single ⟨.seek key, none, by simp [BlockOp.onIter, hseek]⟩
        rcases entry with _ | ⟨k, val⟩
        · simp at hfound
        · simp only at hfound
          split at hfound
          · simp only [bind_eq_ok_iff, pure_eq_ok, Except.ok.injEq, Option.some.injEq] at hfound
            obtain ⟨⟨h, n⟩, hdecode, rfl⟩ := hfound
            exact ⟨it₀, it, k, val, n, hiter, hdriven, hcurrent, hdecode⟩
          · simp at hfound
      refine all_exec_bind fun admits _ => ?_
      split
      · refine all_ask_bind ⟨rfl, hlists⟩ fun r => ?_
        cases r with
        | error e => trivial
        | ok tb => exact all_exec_bind fun _ _ => trivial
      · trivial

namespace TableIterator

/-- The iterator over the index of a table may have been moved in any way. -/
structure Belongs (t : Table) (it : TableIterator) : Prop where
  table_eq : it.table = t
  index : ∃ it₀, t.indexBlock.iter = .ok it₀ ∧ BlockIter.Driven it₀ it.indexBlock

variable {t : Table} {it : TableIterator}

theorem belongs_iter (h : t.iter = .ok it) : Belongs t it := by
  simp only [Table.iter, bind_eq_ok_iff, pure_eq_ok, Except.ok.injEq] at h
  obtain ⟨it₀, hiter, rfl⟩ := h
  exact ⟨rfl, it₀, hiter, .refl⟩

/-- Moving the iterator over the index, and loading and dropping blocks. -/
theorem Belongs.move (h : Belongs t it) {op : BlockOp} {moved : Option Bool} {indexBlock : BlockIter}
    (hop : op.onIter it.indexBlock = .ok (moved, indexBlock)) (currentBlock : Option BlockIter)
    (currentBlockOff : Nat) : Belongs t
      { table := it.table
        currentBlock := currentBlock
        currentBlockOff := currentBlockOff
        indexBlock := indexBlock } := by
  obtain ⟨it₀, hiter, hdriven⟩ := h.index
  exact ⟨h.table_eq, it₀, hiter, hdriven.tail ⟨op, moved, hop⟩⟩

theorem Belongs.load (h : Belongs t it) (currentBlock : Option BlockIter) (currentBlockOff : Nat) :
    Belongs t { it with currentBlock := currentBlock, currentBlockOff := currentBlockOff } :=
  ⟨h.table_eq, h.index⟩

theorem Belongs.reset (h : Belongs t it) : Belongs t it.reset := by
  have hop : BlockOp.reset.onIter it.indexBlock = .ok (none, it.indexBlock.reset) := rfl
  exact h.move hop none it.currentBlockOff

/-- A block is loaded whose handle the index iterator shows. -/
theorem loadReads_all (h : Belongs t it) {k handle : Bytes}
    (hcurrent : it.indexBlock.current = .ok (some (k, handle))) :
    (it.loadReads handle).All (Asked t) fun r => Belongs t r.2 := by
  obtain ⟨it₀, hiter, hdriven⟩ := h.index
  refine all_exec_bind ?_
  rintro ⟨hd, n⟩ hdecode
  have hlists : t.indexBlock.Lists hd :=
    ⟨it₀, it.indexBlock, k, handle, n, hiter, hdriven, hcurrent, hdecode⟩
  refine all_ask_bind ⟨h.table_eq, hlists⟩ fun r => ?_
  cases r with
  | error e => exact h
  | ok block =>
      refine all_exec_bind fun cb _ => ?_
      exact h.load (some cb) hd.offset

theorem skipReads_all (h : Belongs t it) :
    it.skipReads.All (Asked t) fun r => Belongs t r.2 := by
  refine all_exec_bind ?_
  rintro ⟨entry, indexBlock⟩ hnext
  simp only [BlockIter.next, bind_eq_ok_iff] at hnext
  obtain ⟨⟨more, indexBlock'⟩, hadvance, hnext⟩ := hnext
  have hop : BlockOp.advance.onIter it.indexBlock = .ok (some more, indexBlock') := by
    simp [BlockOp.onIter, hadvance]
  have hmove : Belongs t { it with indexBlock := indexBlock' } := h.move hop _ _
  cases more with
  | false =>
      simp only [Bool.false_eq_true, if_false, pure_eq_ok, Except.ok.injEq, Prod.mk.injEq] at hnext
      obtain ⟨rfl, rfl⟩ := hnext
      exact hmove
  | true =>
      simp only [if_true, bind_eq_ok_iff, pure_eq_ok, Except.ok.injEq, Prod.mk.injEq] at hnext
      obtain ⟨entry', hcurrent, rfl, rfl⟩ := hnext
      rcases entry' with _ | ⟨k, val⟩
      · exact hmove
      · exact (loadReads_all hmove hcurrent).bind fun r hr => hr

/-- The iterator of a loop step belongs to a table. -/
def StepBelongs (t : Table) : LoopStep TableIterator (Bool × TableIterator) → Prop
  | .next it => Belongs t it
  | .done r => Belongs t r.2

theorem nextReads_all (h : Belongs t it) : it.nextReads.All (Asked t) (StepBelongs t) := by
  refine (skipReads_all h).bind ?_
  rintro ⟨e | _ | _, it'⟩ hit'
  · exact hit'
  · exact hit'.reset
  · exact hit'

theorem stepReads_all (h : Belongs t it) : it.stepReads.All (Asked t) (StepBelongs t) := by
  unfold stepReads
  cases it.currentBlock with
  | none => exact nextReads_all h
  | some cb =>
      refine all_exec_bind ?_
      rintro ⟨_ | _, cb'⟩ _
      · exact nextReads_all (h.load none it.currentBlockOff)
      · exact h.load (some cb') it.currentBlockOff

theorem advanceReads_all (h : Belongs t it) :
    it.advanceReads.All (Asked t) fun r => Belongs t r.2 :=
  All.loop (Belongs t) (fun _ hit => (stepReads_all hit).mono fun
    | .next _, hstep => hstep
    | .done _, hstep => hstep) _ h

theorem seekReads_all (h : Belongs t it) (target : Bytes) :
    (it.seekReads target).All (Asked t) fun it => Belongs t it := by
  refine all_exec_bind fun indexBlock hseek => ?_
  have hop : (BlockOp.seek target).onIter it.indexBlock = .ok (none, indexBlock) := by
    simp [BlockOp.onIter, hseek]
  have hmove : Belongs t { it with indexBlock := indexBlock } := h.move hop _ _
  refine all_exec_bind ?_
  rintro (_ | ⟨pastBlock, handle⟩) hcurrent
  · exact hmove.reset
  · dsimp only
    split
    · exact hmove.reset
    · refine (loadReads_all hmove hcurrent).bind ?_
      rintro ⟨e | _, it'⟩ hit'
      · exact hit'.reset
      · refine all_exec_bind fun cb _ => ?_
        refine all_exec_bind fun cb' _ => ?_
        exact hit'.load (some cb') it'.currentBlockOff

theorem prevBlockReads_all (h : Belongs t it) :
    it.prevBlockReads.All (Asked t) fun r => Belongs t r.2 := by
  refine all_exec_bind ?_
  rintro ⟨moved, indexBlock⟩ hprev
  have hop : BlockOp.prev.onIter it.indexBlock = .ok (some moved, indexBlock) := by
    simp [BlockOp.onIter, hprev]
  have hmove : Belongs t { it with indexBlock := indexBlock } := h.move hop _ _
  cases moved with
  | false => exact hmove
  | true =>
      refine all_exec_bind ?_
      rintro (_ | ⟨k, handle⟩) hcurrent
      · exact hmove
      · refine (loadReads_all hmove hcurrent).bind ?_
        rintro ⟨e | _, it'⟩ hit'
        · exact hit'.reset
        · refine all_exec_bind fun cb _ => ?_
          refine all_exec_bind fun cb' _ => ?_
          exact hit'.load (some cb') it'.currentBlockOff

theorem prevReads_all (h : Belongs t it) :
    it.prevReads.All (Asked t) fun r => Belongs t r.2 := by
  unfold prevReads
  cases it.currentBlock with
  | none => exact prevBlockReads_all h
  | some cb =>
      refine all_exec_bind ?_
      rintro ⟨_ | _, cb'⟩ _
      · exact prevBlockReads_all (h.load (some cb') it.currentBlockOff)
      · exact h.load (some cb') it.currentBlockOff

end TableIterator

open TableIterator

/-- An operation on an iterator asks for blocks of its table. -/
theorem TableOp.reads_all {t : Table} {it : TableIterator} (h : Belongs t it) (op : TableOp) :
    (op.reads it).All (Asked t) fun r => Belongs t r.2 := by
  cases op with
  | advance => exact (advanceReads_all h).bind fun r hr => hr
  | seek target => exact (seekReads_all h target).bind fun it hit => hit
  | reset => exact h.reset
  | prev => exact (prevReads_all h).bind fun r hr => hr

end SSTable
