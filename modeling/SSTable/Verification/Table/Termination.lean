import Mathlib.Order.WellFounded
import SSTable.Verification.Block.Termination
import SSTable.Verification.Table.Locking

/-!
# Calls on any files come to an end

A table that is opened on a damaged file may have any bytes as its index, and any blocks may be
read from it.  Whatever the files hold, and whatever the tables' other users do, no call on a table
goes on for ever, and no scan shows entries for ever.

Main results:

- Theorem {lit}`TableOp.settles`: every operation on an iterator comes to an end, whatever its reads
  are answered with.
- Theorem {lit}`nothing_diverges`: so does every call in every run.
- Theorem {lit}`scans_end`: an iterator can only be moved on a finite number of times.
-/

namespace SSTable

open Foundation Foundation.Exec Foundation.Bytes

/-! ## Filters -/

/-- A policy that comes to an answer. -/
def FilterPolicy.Decides (p : FilterPolicy) : Prop :=
  ∀ key filter, Settles (fun _ => True) (p.keyMayMatch key filter)

theorem NoFilterPolicy.decides : NoFilterPolicy.Decides := fun _ _ => trivial

theorem BloomPolicy.settles_bloomHash (key : Bytes) : Settles (fun _ => True) (bloomHash key) :=
  (settles_wordMul _ _).bind fun _ _ => trivial

theorem BloomPolicy.settles_testProbes (bits : Nat) (d : UInt32) (filter : Bytes) (n : Nat)
    (h : UInt32) : Settles (fun _ => True) (testProbes bits d filter n h) := by
  induction n generalizing h with
  | zero => trivial
  | succ n ih =>
      refine Settles.bind (Q := fun _ => True) ?_ fun pos _ => ?_
      · unfold bitPos
        split <;> simp
      · refine Settles.bind (Q := fun _ => True) ?_ fun set _ => ?_
        · unfold testBit
          split <;> simp
        · cases set with
          | true => exact ih _
          | false => trivial

theorem BloomPolicy.decides (p : BloomPolicy) : p.toFilterPolicy.Decides := by
  intro key filter
  change Settles _ (keyMayMatch key filter)
  unfold keyMayMatch
  cases filter.getLast? with
  | none => trivial
  | some k =>
      dsimp only
      split
      · exact settles_error.mpr (by decide)
      · split
        · trivial
        · exact (settles_bloomHash key).bind fun h _ => settles_testProbes _ _ _ _ h

namespace FilterBlockReader

theorem settles_getFilterIndex (offset baseLg2 : Nat) :
    Settles (fun _ => True) (getFilterIndex offset baseLg2) := by
  unfold getFilterIndex
  split <;> simp

theorem settles_offsetOf (r : FilterBlockReader) (i : Nat) :
    Settles (fun _ => True) (r.offsetOf i) :=
  (settles_slice _ _ _).bind fun _ _ => trivial

theorem settles_keyMayMatch {r : FilterBlockReader} (h : r.policy.Decides) (blkOffset : Nat)
    (key : Bytes) : Settles (fun _ => True) (r.keyMayMatch blkOffset key) := by
  refine (settles_getFilterIndex _ _).bind fun ix _ => ?_
  refine Settles.bind (Q := fun _ => True) ?_ fun n _ => ?_
  · exact (settles_wordSub _ _).bind fun _ _ => (settles_wordSub _ _).bind fun _ _ => trivial
  · split
    · trivial
    · refine (settles_offsetOf r ix).bind fun _ _ => ?_
      refine Settles.bind (Q := fun _ => True) ?_ fun next _ => ?_
      · unfold addU32
        split <;> simp
      · refine (settles_offsetOf r next).bind fun _ _ => ?_
        exact settles_ensure.bind fun _ _ => settles_ensure.bind fun _ _ =>
          (settles_slice _ _ _).bind fun filter _ => h key filter

theorem settles_new (pol : FilterPolicy) (data : Bytes) :
    Settles (fun r => r.policy = pol) (new pol data) :=
  settles_ensure.bind fun _ _ => settles_unwrap.bind fun _ _ =>
    (settles_slice _ _ _).bind fun _ _ => rfl

end FilterBlockReader

/-! ## Reading -/

theorem settles_readBytes (f : RandomAccess) (h : BlockHandle) :
    Settles (fun _ => True) (readBytes f h) := by
  unfold readBytes
  dsimp only
  split
  · exact settles_error.mpr (by decide)
  · cases f.readAt h.offset (List.replicate h.size 0) with
    | error e => trivial
    | ok r => trivial

theorem Block.settles_new (opt : Options) (contents : Bytes) :
    Settles (fun _ => True) (Block.new opt contents) :=
  settles_ensure.bind fun _ _ => trivial

namespace TableIterator

/-- The iterators over the index and over the block that is loaded are over any bytes. -/
structure Sane (it : TableIterator) : Prop where
  index : it.indexBlock.Sane
  block : ∀ cb, it.currentBlock = some cb → cb.Sane

/-- The answers to the reads may be anything. -/
abbrev Any (_ : Table × BlockHandle) (_ : Result Block) : Prop := True

variable {it : TableIterator}

theorem Sane.reset (h : it.Sane) : it.reset.Sane := ⟨h.index.reset, by simp [TableIterator.reset]⟩

theorem Sane.moveIndex (h : it.Sane) {indexBlock : BlockIter} (hindex : indexBlock.Sane) :
    ({ it with indexBlock := indexBlock } : TableIterator).Sane := ⟨hindex, h.block⟩

theorem Sane.load (h : it.Sane) {cb : BlockIter} (hcb : cb.Sane) (off : Nat) :
    ({ it with currentBlock := some cb, currentBlockOff := off } : TableIterator).Sane :=
  ⟨h.index, fun _ hcb' => Option.some.inj hcb' ▸ hcb⟩

theorem sane_iter (t : Table) : Settles (fun it => it.Sane) t.iter :=
  t.indexBlock.settles_iter.bind fun _ h => ⟨h.1, by simp⟩

end TableIterator

/-! ## The cache -/

namespace LRUList

variable {T : Type} (l : LRUList T)

theorem settles_read (p : LRUHandle) : Settles (fun _ => True) (l.read p) := by
  unfold read
  split <;> simp

theorem settles_setNext (p : LRUHandle) (q : Option LRUHandle) :
    Settles (fun _ => True) (l.setNext p q) :=
  (settles_read l p).bind fun _ _ => trivial

theorem settles_setPrev (p : LRUHandle) (q : Option LRUHandle) :
    Settles (fun _ => True) (l.setPrev p q) :=
  (settles_read l p).bind fun _ _ => trivial

theorem settles_swapNext (p q : LRUHandle) : Settles (fun _ => True) (l.swapNext p q) :=
  (settles_read l p).bind fun _ _ => (settles_read l q).bind fun _ _ =>
    (settles_setNext l p _).bind fun _ _ => settles_setNext _ q _

theorem settles_insert (elem : T) : Settles (fun _ => True) (l.insert elem) := by
  refine (settles_read _ _).bind fun headNode _ => ?_
  cases headNode.next with
  | some first =>
      exact (settles_setPrev _ _ _).bind fun _ _ => (settles_setNext _ _ _).bind fun _ _ =>
        (settles_setNext _ _ _).bind fun _ _ => trivial
  | none =>
      exact (settles_setPrev _ _ _).bind fun _ _ => (settles_setNext _ _ _).bind fun _ _ => trivial

theorem settles_removeLast : Settles (fun _ => True) l.removeLast := by
  refine (settles_read _ _).bind fun headNode _ => ?_
  cases headNode.prev with
  | none => trivial
  | some tail =>
      refine (settles_read _ _).bind fun tailNode _ => settles_unwrap.bind fun before _ => ?_
      refine (settles_read _ _).bind fun beforeNode _ => ?_
      refine (settles_setNext _ _ _).bind fun l' _ => ?_
      cases beforeNode.next with
      | none => trivial
      | some last =>
          exact (settles_read _ _).bind fun _ _ => (settles_setPrev _ _ _).bind fun _ _ =>
            (settles_wordSub _ _).bind fun _ _ => trivial

theorem settles_reinsertFront (p : LRUHandle) : Settles (fun _ => True) (l.reinsertFront p) := by
  have hbehind : ∀ (l : LRUList T) next q, Settles (fun _ => True) (l.setPrevBehind next q) := by
    intro l next q
    cases next with
    | some next => exact settles_setPrev _ _ _
    | none => exact settles_setPrev _ _ _
  have hlink : ∀ l : LRUList T, Settles (fun _ => True) (l.linkFirst p) := by
    intro l
    refine (settles_read _ _).bind fun node _ => ?_
    cases node.next with
    | some newnext =>
        exact (settles_read _ _).bind fun _ _ => (settles_setPrev _ _ _).bind fun _ _ =>
          settles_setPrev _ _ _
    | none => exact settles_setPrev _ _ _
  exact (settles_read _ _).bind fun _ _ => settles_unwrap.bind fun _ _ =>
    (hbehind _ _ _).bind fun _ _ => (settles_swapNext _ _ _).bind fun _ _ =>
    (settles_swapNext _ _ _).bind fun _ _ => (hlink _).bind fun _ _ =>
    (settles_read _ _).bind fun _ _ => settles_ensure.bind fun _ _ =>
    settles_ensure.bind fun _ _ => trivial

end LRUList

namespace Cache

variable {T : Type} (c : Cache T)

theorem settles_get (key : CacheKey) : Settles (fun _ => True) (c.get key) := by
  unfold get
  split
  · trivial
  · exact (LRUList.settles_reinsertFront _ _).bind fun _ _ => trivial

theorem settles_insert (key : CacheKey) (elem : T) :
    Settles (fun _ => True) (c.insert key elem) := by
  refine Settles.bind (Q := fun _ => True) ?_ fun c' _ => ?_
  · unfold evict
    split
    · refine (LRUList.settles_removeLast _).bind ?_
      rintro ⟨removed, list⟩ -
      cases removed with
      | some removedKey => exact settles_ensure.bind fun _ _ => trivial
      | none => simp
    · trivial
  · exact (LRUList.settles_insert _ _).bind fun _ _ => trivial

end Cache

section

variable [Crates]

theorem BlockHandle.settles_decode (b : Bytes) : Settles (fun _ => True) (decode b) :=
  settles_unwrap.bind fun _ _ => (settles_sliceFrom _ _).bind fun _ _ =>
    settles_unwrap.bind fun _ _ => trivial

theorem settles_readTableBlock (opt : Options) (f : RandomAccess) (h : BlockHandle) :
    Settles (fun _ => True) (readTableBlock opt f h) := by
  refine (settles_wordAdd _ _).bind fun size _ => ?_
  refine (settles_readBytes _ _).bind ?_
  rintro (e | buf) -
  · trivial
  · refine settles_unwrap.bind fun compress _ => ?_
    dsimp only
    split
    · trivial
    · split
      · exact (Block.settles_new _ _).bind fun _ _ => trivial
      · split
        · trivial
        · exact (Block.settles_new _ _).bind fun _ _ => trivial
      · trivial

theorem settles_readFooter (f : RandomAccess) (size : Nat) :
    Settles (fun _ => True) (readFooter f size) := by
  refine (settles_wordSub _ _).bind fun off _ => ?_
  rcases f.readAt off (List.replicate fullFooterLength 0) with e | ⟨n, buf⟩
  · trivial
  · refine Settles.bind (Q := fun _ => True) ?_ fun _ _ => trivial
    exact settles_ensure.bind fun _ _ => settles_ensure.bind fun _ _ =>
      (BlockHandle.settles_decode _).bind fun _ _ => (settles_sliceFrom _ _).bind fun _ _ =>
      (BlockHandle.settles_decode _).bind fun _ _ => trivial

namespace Table

/-- A filter block that is opened is one of the policy. -/
theorem settles_readFilterBlock (metaix : Block) (file : RandomAccess) (opt : Options) :
    Settles (fun r => ∀ reader, r = .ok (some reader) → reader.policy = opt.filterPolicy)
      (readFilterBlock metaix file opt) := by
  refine metaix.settles_iter.bind fun it h => ?_
  refine (BlockIter.settles_seek h.1 _).bind fun it' _ => ?_
  refine (BlockIter.settles_current it').bind ?_
  rintro (_ | ⟨k, val⟩) -
  · simp
  · refine (BlockHandle.settles_decode val).bind ?_
    rintro ⟨location, n⟩ -
    dsimp only
    split
    · unfold SSTable.readFilterBlock
      split
      · simp
      · refine Settles.bind (Q := fun r => ∀ reader, r = .ok reader →
          reader.policy = opt.filterPolicy) ?_ ?_
        · refine (settles_readBytes _ _).bind ?_
          rintro (e | buf) -
          · simp
          · refine (FilterBlockReader.settles_new _ _).bind fun reader hreader => ?_
            simpa using hreader
        · rintro (e | reader) hreader
          · simp
          · simpa using hreader
    · simp

/-- The policy of a table's filters comes to an answer. -/
def Decides (t : Table) : Prop := ∀ reader, t.filters = some reader → reader.policy.Decides

theorem settles_prepare {opt : Options} (h : opt.filterPolicy.Decides) (file : RandomAccess)
    (size : Nat) :
    Settles (fun r => ∀ parts, r = .ok parts → ∀ id, (parts id).Decides)
      (prepare opt file size) := by
  refine (settles_readFooter _ _).bind ?_
  rintro (e | footer) -
  · simp
  · refine (settles_readTableBlock _ _ _).bind ?_
    rintro (e | index) -
    · simp
    · refine (settles_readTableBlock _ _ _).bind ?_
      rintro (e | metaindex) -
      · simp
      · refine (settles_readFilterBlock _ _ _).bind ?_
        rintro (e | filters) hfilters
        · simp
        · rintro parts ⟨⟩ id reader hreader
          obtain rfl : filters = some reader := hreader
          exact hfilters reader rfl ▸ h

theorem settles_findBlock (t : Table) (key : Bytes) :
    Settles (fun _ => True) (t.findBlock key) := by
  refine t.indexBlock.settles_iter.bind fun it h => ?_
  refine (BlockIter.settles_seek h.1 key).bind fun it' _ => ?_
  refine (BlockIter.settles_current it').bind ?_
  rintro (_ | ⟨k, val⟩) -
  · trivial
  · dsimp only
    split
    · exact (BlockHandle.settles_decode val).bind fun _ _ => trivial
    · trivial

theorem settles_searchBlock (t : Table) (tb : Block) (key : Bytes) :
    Settles (fun _ => True) (t.searchBlock tb key) := by
  refine tb.settles_iter.bind fun it h => ?_
  refine (BlockIter.settles_seek h.1 key).bind fun it' _ => ?_
  refine (BlockIter.settles_current it').bind ?_
  rintro (_ | ⟨k, val⟩) -
  · trivial
  · dsimp only
    split
    · trivial
    · trivial

/-- A lookup comes to an end, whatever its read is answered with. -/
theorem settles_getReads {t : Table} (h : t.Decides) (key : Bytes) :
    (t.getReads key).Settles (fun _ _ => True) fun _ => True := by
  refine (settles_findBlock t key).ofExec_bind ?_
  rintro (_ | handle) -
  · trivial
  · refine Settles.ofExec_bind (Q := fun _ => True) ?_ fun admits _ => ?_
    · unfold filterAdmits
      cases hfilters : t.filters with
      | none => trivial
      | some reader => exact FilterBlockReader.settles_keyMayMatch (h reader hfilters) _ _
    · cases admits with
      | false => trivial
      | true =>
          refine Calls.Settles.ask_bind fun r _ => ?_
          cases r with
          | error e => trivial
          | ok tb => exact (settles_searchBlock t tb key).ofExec_bind fun _ _ => trivial

end Table

namespace TableIterator

variable {it : TableIterator}

theorem settles_loadReads (h : it.Sane) (handle : Bytes) :
    (it.loadReads handle).Settles Any fun r => r.2.Sane ∧ r.2.indexBlock = it.indexBlock := by
  refine (BlockHandle.settles_decode handle).ofExec_bind ?_
  rintro ⟨hd, n⟩ -
  refine Calls.Settles.ask_bind fun r _ => ?_
  cases r with
  | error e => exact ⟨h, rfl⟩
  | ok block => exact block.settles_iter.ofExec_bind fun cb hcb => ⟨h.load hcb.1 _, rfl⟩

/-- The iterator has used up an entry of the index. -/
def Consumes (it it' : TableIterator) : Prop :=
  BlockIter.Same it.indexBlock it'.indexBlock ∧
    it.indexBlock.offset < it.indexBlock.restartsOff ∧
    it.indexBlock.offset < it'.indexBlock.offset

theorem settles_skipReads (h : it.Sane) :
    it.skipReads.Settles Any fun r => r.2.Sane ∧ (r.1 = .ok false ∨ Consumes it r.2) := by
  refine (BlockIter.settles_next h.index).ofExec_bind ?_
  rintro ⟨_ | ⟨k, val⟩, indexBlock⟩ ⟨hindex, hsame, hmore⟩
  · exact ⟨h.moveIndex hindex, Or.inl rfl⟩
  · refine (settles_loadReads (h.moveIndex hindex) val).bind ?_
    rintro ⟨loaded, it'⟩ ⟨hsane, heq⟩
    refine ⟨hsane, Or.inr ?_⟩
    dsimp only at heq
    rw [Consumes, heq]
    exact ⟨hsame, hmore _ rfl⟩

/-- A pass of the recursion in {lit}`advance` ends it or uses up an entry of the index. -/
def Passes (it : TableIterator) : LoopStep TableIterator (Bool × TableIterator) → Prop
  | .next it' => it'.Sane ∧ Consumes it it'
  | .done r => r.2.Sane ∧ r.1 = false

theorem settles_nextReads (h : it.Sane) : it.nextReads.Settles Any (Passes it) := by
  refine (settles_skipReads h).bind ?_
  rintro ⟨e | _ | _, it'⟩ ⟨hsane, hconsumes⟩
  · exact ⟨hsane, hconsumes.resolve_left (by simp)⟩
  · exact ⟨hsane.reset, rfl⟩
  · exact ⟨hsane, hconsumes.resolve_left (by simp)⟩

/-- The iterator over the block has moved forward. -/
def MovesOn (it it' : TableIterator) : Prop :=
  it'.indexBlock = it.indexBlock ∧ ∃ cb cb', it.currentBlock = some cb ∧
    it'.currentBlock = some cb' ∧ BlockIter.Same cb cb' ∧ cb.offset < cb.restartsOff ∧
    cb.offset < cb'.offset

theorem settles_stepReads (h : it.Sane) : it.stepReads.Settles Any fun
    | .next it' => it'.Sane ∧ Consumes it it'
    | .done r => r.2.Sane ∧ (r.1 = true → MovesOn it r.2) := by
  have hnext : ∀ it₁ : TableIterator, it₁.Sane → it₁.indexBlock = it.indexBlock →
      it₁.nextReads.Settles Any fun
        | .next it' => it'.Sane ∧ Consumes it it'
        | .done r => r.2.Sane ∧ (r.1 = true → MovesOn it r.2) := by
    intro it₁ h₁ hindex
    refine (settles_nextReads h₁).mono ?_
    rintro (it' | r) hpass
    · rw [Passes, Consumes, hindex] at hpass
      exact hpass
    · exact ⟨hpass.1, fun hmoved => absurd hmoved (by simp [hpass.2])⟩
  unfold stepReads
  cases hcb : it.currentBlock with
  | none => exact hnext it h rfl
  | some cb =>
      refine (BlockIter.settles_advance (h.block cb hcb)).ofExec_bind ?_
      rintro ⟨_ | _, cb'⟩ ⟨hsane, hsame, hmore, -⟩
      · exact hnext _ ⟨h.index, by simp⟩ rfl
      · exact ⟨⟨h.index, fun _ hcb' => Option.some.inj hcb' ▸ hsane⟩,
          fun _ => ⟨rfl, cb, cb', hcb, rfl, hsame, hmore rfl⟩⟩

/-- Moving on uses up entries of the index or moves on within the block. -/
theorem settles_advanceReads (h : it.Sane) : it.advanceReads.Settles Any fun r =>
    r.2.Sane ∧ (r.1 = true → Consumes it r.2 ∨ MovesOn it r.2) := by
  refine Calls.Settles.loop
    (fun it' => it'.Sane ∧ BlockIter.Same it.indexBlock it'.indexBlock ∧
      (it' = it ∨ Consumes it it'))
    (fun it' => it'.indexBlock.restartsOff - it'.indexBlock.offset) ?_
    ⟨h, BlockIter.Same.refl _, Or.inl rfl⟩ ?_
  · rintro it' ⟨hsane, hsame, hreached⟩
    refine (settles_stepReads hsane).mono ?_
    rintro (it'' | r) hpass
    · obtain ⟨hsane', hsame', hlt, hforward⟩ := hpass
      have hrestarts := hsame'.2
      refine ⟨⟨hsane', hsame.trans hsame', Or.inr ?_⟩, by omega⟩
      rcases hreached with rfl | ⟨-, hlt', hforward'⟩
      · exact ⟨hsame', hlt, hforward⟩
      · exact ⟨hsame.trans hsame', hlt', hforward'.trans hforward⟩
    · refine ⟨hpass.1, fun hmoved => ?_⟩
      have hon := hpass.2 hmoved
      rcases hreached with rfl | hconsumes
      · exact Or.inr hon
      · rw [Consumes, hon.1]
        exact Or.inl hconsumes
  · have hle := h.index.restartsOff_le
    omega

theorem settles_seekReads (h : it.Sane) (target : Bytes) :
    (it.seekReads target).Settles Any fun it => it.Sane := by
  refine (BlockIter.settles_seek h.index target).ofExec_bind fun indexBlock hindex => ?_
  have hmove := h.moveIndex hindex.1
  refine (BlockIter.settles_current indexBlock).ofExec_bind ?_
  rintro (_ | ⟨pastBlock, handle⟩) -
  · exact hmove.reset
  · dsimp only
    split
    · exact hmove.reset
    · refine (settles_loadReads hmove handle).bind ?_
      rintro ⟨e | _, it'⟩ ⟨hsane, -⟩
      · exact hsane.reset
      · refine settles_unwrap.ofExec_bind fun cb hcb => ?_
        refine (BlockIter.settles_seek (hsane.block cb hcb) target).ofExec_bind fun cb' hcb' => ?_
        exact hsane.load hcb'.1 it'.currentBlockOff

theorem settles_prevBlockReads (h : it.Sane) :
    it.prevBlockReads.Settles Any fun r => r.2.Sane := by
  refine (BlockIter.settles_prev h.index).ofExec_bind ?_
  rintro ⟨moved, indexBlock⟩ ⟨hindex, -⟩
  have hmove := h.moveIndex hindex
  cases moved with
  | false => exact hmove
  | true =>
      refine (BlockIter.settles_current indexBlock).ofExec_bind ?_
      rintro (_ | ⟨k, handle⟩) -
      · exact hmove
      · refine (settles_loadReads hmove handle).bind ?_
        rintro ⟨e | _, it'⟩ ⟨hsane, -⟩
        · exact hsane.reset
        · refine settles_unwrap.ofExec_bind fun cb hcb => ?_
          refine (BlockIter.settles_seekToLast (hsane.block cb hcb)).ofExec_bind fun cb' hcb' => ?_
          exact hsane.load hcb'.1 it'.currentBlockOff

theorem settles_prevReads (h : it.Sane) : it.prevReads.Settles Any fun r => r.2.Sane := by
  unfold prevReads
  cases hcb : it.currentBlock with
  | none => exact settles_prevBlockReads h
  | some cb =>
      refine (BlockIter.settles_prev (h.block cb hcb)).ofExec_bind ?_
      rintro ⟨_ | _, cb'⟩ ⟨hsane, -⟩
      · exact settles_prevBlockReads (h.load hsane it.currentBlockOff)
      · exact h.load hsane it.currentBlockOff

end TableIterator

open TableIterator

/-- Every operation on an iterator comes to an end, whatever its reads are answered with. -/
theorem TableOp.settles {it : TableIterator} (h : it.Sane) (op : TableOp) :
    (op.reads it).Settles Any fun r => r.2.Sane := by
  cases op with
  | advance => exact (settles_advanceReads h).bind fun r hr => hr.1
  | seek target => exact (settles_seekReads h target).bind fun it hit => hit
  | reset => exact h.reset
  | prev => exact (settles_prevReads h).bind fun r hr => hr

/-! ## Users of one cache -/

theorem settles_cachedRead (i : Table × BlockHandle) (c : BlockCache) :
    Settles (fun _ => True) (cachedRead i c) := by
  refine (c.settles_get _).bind ?_
  rintro ⟨_ | block, c'⟩ -
  · refine (settles_readTableBlock _ _ _).bind ?_
    rintro (e | b) -
    · trivial
    · exact (c'.settles_insert _ _).bind fun _ _ => trivial
  · trivial

/-- So does every operation that reads through a cache. -/
theorem TableOp.settles_onIter {it : TableIterator} (h : it.Sane) (op : TableOp) (c : BlockCache) :
    Settles (fun r => r.2.1.Sane) (op.onIter it c) := by
  rw [TableOp.onIter_eq]
  have hservice : ∀ i c, Settles (fun r => Any i r.1) (cachedRead i c) := settles_cachedRead
  exact ((op.settles h).run hservice c).bind fun r hr => hr

theorem TableIterator.settles_advance {it : TableIterator} (h : it.Sane) (c : BlockCache) :
    Settles (fun r => r.1 = true → Consumes it r.2.1 ∨ MovesOn it r.2.1) (it.advance c) := by
  rw [TableIterator.advance_eq]
  have hservice : ∀ i c, Settles (fun r => Any i r.1) (cachedRead i c) := settles_cachedRead
  exact ((settles_advanceReads h).run hservice c).bind fun r hr => hr.2

end

open TableIterator

/-- A section that comes to an end does so under the lock. -/
theorem SharedCache.settles_write {α : Type} {Q : α → Prop} {s : SharedCache}
    {f : BlockCache → Exec (Result α × BlockCache)}
    (h : Settles (fun r => ∀ a, r.1 = .ok a → Q a) (f s.cache)) :
    Settles (fun r => ∀ a, r = .ok a → Q a) (s.write f).1 := by
  unfold write
  split
  · simp
  · cases hf : f s.cache with
    | ok r =>
        rw [hf] at h
        exact h
    | error e =>
        rw [hf] at h
        exact h

namespace LockedTables

/-- What comes to an end. -/
structure Running (s : LockedTables) : Prop where
  tables : ∀ t ∈ s.tables, t.Decides
  iters : ∀ it, some it ∈ s.iters → it.Sane
  calls : ∀ p, some p ∈ s.calls → p.Settles Any fun out =>
    ∀ j moved it, out = .moved j moved it → it.Sane

variable {s : LockedTables}

/-- A call goes on or ends. -/
theorem Running.call (h : s.Running) {lock : SharedCache} {k : Nat}
    {q : Option (BlockReads Outcome)} (hq : ∀ p, q = some p → p.Settles Any fun out =>
      ∀ j moved it, out = .moved j moved it → it.Sane) :
    Running { s with lock := lock, calls := s.calls.set k q } where
  tables := h.tables
  iters := h.iters
  calls p hp := by
    rcases List.mem_or_eq_of_mem_set hp with hold | hnew
    · exact h.calls p hold
    · exact hq p hnew.symm

/-- A call begins. -/
theorem Running.begin (h : s.Running) {p : BlockReads Outcome}
    (hp : p.Settles Any fun out => ∀ j moved it, out = .moved j moved it → it.Sane) :
    Running { s with calls := s.calls ++ [some p] } where
  tables := h.tables
  iters := h.iters
  calls p' hp' := by
    rcases List.mem_append.mp hp' with hold | hnew
    · exact h.calls p' hold
    · exact Option.some.inj (List.mem_singleton.mp hnew) ▸ hp

/-- An iterator comes back or is lent to a call. -/
theorem Running.iterate (h : s.Running) {iters : List (Option TableIterator)}
    (hiters : ∀ it, some it ∈ iters → some it ∈ s.iters ∨ it.Sane) :
    Running { s with iters := iters } where
  tables := h.tables
  iters it hit := (hiters it hit).elim (h.iters it) id
  calls := h.calls

/-- Every step comes to an end. -/
theorem Running.step [Crates] (h : s.Running) (op : SharedOp)
    (hop : ∀ opt file size, op = .openTable opt file size → opt.filterPolicy.Decides) :
    (s.step cachedRead op).1 ≠ .error .divergence ∧ (s.step cachedRead op).2.Running := by
  cases op with
  | openTable opt file size =>
      have hprepare := Table.settles_prepare (hop opt file size rfl) file size
      have hnew : Settles (fun r => ∀ t, r = .ok t → t.Decides)
          (Table.newLocked opt file size s.lock).1 := by
        unfold Table.newLocked
        rcases hparts : Table.prepare opt file size with e | e | parts
        · rw [hparts] at hprepare
          exact hprepare
        · simp
        · rw [hparts] at hprepare
          refine SharedCache.settles_write ?_
          have hid : Settles (fun _ => True) s.lock.cache.newCacheId :=
            (settles_wordAdd _ _).bind fun _ _ => trivial
          refine hid.bind fun r _ => ?_
          rintro t ⟨⟩
          exact hprepare parts rfl r.1
      unfold LockedTables.step
      dsimp only
      generalize Table.newLocked opt file size s.lock = r at hnew
      obtain ⟨e | e | t, lock⟩ := r
      · exact ⟨fun heq => hnew (Except.error.inj heq), ⟨h.tables, h.iters, h.calls⟩⟩
      · exact ⟨by simp, ⟨h.tables, h.iters, h.calls⟩⟩
      · refine ⟨by simp, ⟨fun t' ht' => ?_, h.iters, h.calls⟩⟩
        rcases List.mem_append.mp ht' with hold | hadded
        · exact h.tables t' hold
        · exact List.mem_singleton.mp hadded ▸ hnew t rfl
  | cloneTable i =>
      unfold LockedTables.step
      dsimp only
      cases hi : s.tables[i]? with
      | none => exact ⟨by simp, h⟩
      | some t =>
          refine ⟨by simp, ⟨fun t' ht' => ?_, h.iters, h.calls⟩⟩
          rcases List.mem_append.mp ht' with hold | hadded
          · exact h.tables t' hold
          · exact h.tables t' (List.mem_singleton.mp hadded ▸ List.mem_of_getElem? hi)
  | iterate i =>
      unfold LockedTables.step
      dsimp only
      cases s.tables[i]? with
      | none => exact ⟨by simp, h⟩
      | some t =>
          have hiter := sane_iter t
          dsimp only
          cases ht : t.iter with
          | error e =>
              rw [ht] at hiter
              exact ⟨fun heq => hiter (Except.error.inj heq), h⟩
          | ok it =>
              rw [ht] at hiter
              refine ⟨by simp, h.iterate fun it' hit' => ?_⟩
              rcases List.mem_append.mp hit' with hold | hadded
              · exact Or.inl hold
              · obtain rfl := Option.some.inj (List.mem_singleton.mp hadded)
                exact Or.inr hiter
  | get i key =>
      unfold LockedTables.step
      dsimp only
      cases hi : s.tables[i]? with
      | none => exact ⟨by simp, h⟩
      | some t =>
          refine ⟨by simp, h.begin ?_⟩
          exact (Table.settles_getReads (h.tables t (List.mem_of_getElem? hi)) key).bind
            fun _ _ => by simp
  | move j op =>
      unfold LockedTables.step
      dsimp only
      rcases hj : s.iters[j]? with _ | _ | it
      · exact ⟨by simp, h⟩
      · exact ⟨by simp, h⟩
      · refine ⟨by simp, (h.begin ?_).iterate fun it' hit' => ?_⟩
        · refine (op.settles (h.iters it (List.mem_of_getElem? hj))).bind fun r hr => ?_
          rintro j' moved it' ⟨⟩
          exact hr
        · rcases List.mem_or_eq_of_mem_set hit' with hold | hadded
          · exact Or.inl hold
          · cases hadded
  | work k =>
      unfold LockedTables.step
      dsimp only
      rcases hk : s.calls[k]? with _ | _ | out | e | ⟨i, next⟩
      · exact ⟨by simp, h⟩
      · exact ⟨by simp, h⟩
      · have hout := h.calls _ (List.mem_of_getElem? hk)
        have hended : Running { s with calls := s.calls.set k none } := h.call (by simp)
        cases out with
        | found r => exact ⟨by simp [finish], hended⟩
        | moved j moved it =>
            have hsane : it.Sane := hout j moved it rfl
            dsimp only [finish]
            cases hcurrent : it.current with
            | error e =>
                refine ⟨fun heq => ?_, hended⟩
                obtain rfl := Except.error.inj heq
                unfold TableIterator.current at hcurrent
                cases hcb : it.currentBlock with
                | none => simp [hcb] at hcurrent
                | some cb =>
                    rw [hcb] at hcurrent
                    exact (BlockIter.settles_current cb).ne hcurrent
            | ok entry =>
                refine ⟨by simp, hended.iterate fun it' hit' => ?_⟩
                rcases List.mem_or_eq_of_mem_set hit' with hold | hadded
                · exact Or.inl hold
                · exact Or.inr (Option.some.inj hadded ▸ hsane)
      · have hstop : e ≠ .divergence := h.calls _ (List.mem_of_getElem? hk)
        exact ⟨fun heq => hstop (Except.error.inj heq), h.call (by simp)⟩
      · have hnext := h.calls _ (List.mem_of_getElem? hk)
        have hread : Settles (fun r => ∀ b, r = .ok b → True) (s.lock.write (cachedRead i)).1 :=
          SharedCache.settles_write ((settles_cachedRead i _).mono fun _ _ _ _ => trivial)
        dsimp only
        generalize s.lock.write (cachedRead i) = r at hread
        obtain ⟨e | r, lock⟩ := r
        · exact ⟨fun heq => hread (Except.error.inj heq), h.call (by simp)⟩
        · refine ⟨by simp, h.call fun p hp => ?_⟩
          obtain rfl := Option.some.inj hp
          exact hnext r trivial

end LockedTables

/-- What is left of the index, and of the block that is loaded. -/
def left (it : TableIterator) : Nat × Nat :=
  (it.indexBlock.restartsOff - it.indexBlock.offset,
    match it.currentBlock with
    | some cb => cb.restartsOff - cb.offset
    | none => 0)

theorem left_lt {it it' : TableIterator} (h : Consumes it it' ∨ MovesOn it it') :
    Prod.Lex (· < ·) (· < ·) (left it') (left it) := by
  rcases h with ⟨hsame, hlt, hforward⟩ | ⟨hindex, cb, cb', hcb, hcb', hsame, hlt, hforward⟩
  · have hrestarts := hsame.2
    refine Prod.Lex.left _ _ ?_
    omega
  · have hrestarts := hsame.2
    unfold left
    rw [hindex, hcb, hcb']
    refine Prod.Lex.right _ ?_
    dsimp only
    omega

open LockedTables

/-- Whatever the files hold, no call in any run goes on for ever. -/
theorem nothing_diverges [Crates] (lock : SharedCache) (ops : List SharedOp)
    (hpolicies : ∀ opt file size, .openTable opt file size ∈ ops → opt.filterPolicy.Decides) :
    ∀ shown ∈ (traceOps (step cachedRead) (start lock) ops).1, shown ≠ .error .divergence := by
  have hstart : (start lock).Running := ⟨by simp [start], by simp [start], by simp [start]⟩
  refine (traceOps_keeps Running (fun shown : Exec Shown => shown ≠ .error .divergence) ?_ hstart).1
  exact fun s op hop hs => hs.step op fun opt file size heq => hpolicies opt file size (heq ▸ hop)

/-- A table with a block that is too short to be one. -/
theorem nothing_diverges_short_block : letI := referenceCrates
    .error .divergence ∉ (traceOps (step cachedRead) (start (share smallCache)) shortBlockOps).1 := by
  let := referenceCrates
  intro hmem
  refine nothing_diverges (share smallCache) shortBlockOps ?_ _ hmem rfl
  intro opt file size hopen
  simp only [shortBlockOps, List.mem_cons, SharedOp.openTable.injEq, reduceCtorEq,
    List.not_mem_nil, or_false] at hopen
  obtain ⟨rfl, -, -⟩ := hopen
  exact BloomPolicy.decides _

/-- Whatever the file of a table holds, and whatever the other users of the cache do: an iterator
that is moved on again and again is told the end again and again. -/
theorem scans_end [Crates] (t : Table) (its : Nat → TableIterator) (ops : Nat → TableOp)
    (moved : Nat → Option Bool) :
    ¬ (t.iter = .ok (its 0) ∧
      (∀ n, ∃ c c', (ops n).onIter (its n) c = .ok (moved n, its (n + 1), c')) ∧
      ∃ n, ∀ m, n ≤ m → ops m = .advance ∧ moved m = some true) := by
  rintro ⟨hiter, hops, n, hscan⟩
  have hsane : ∀ m, (its m).Sane := by
    intro m
    induction m with
    | zero =>
        have hstart := sane_iter t
        rw [hiter] at hstart
        exact hstart
    | succ m ih =>
        obtain ⟨c, c', hop⟩ := hops m
        have hsettles := TableOp.settles_onIter ih (ops m) c
        rw [hop] at hsettles
        exact hsettles
  have hless : ∀ m, Prod.Lex (· < ·) (· < ·) (left (its (n + (m + 1)))) (left (its (n + m))) := by
    intro m
    obtain ⟨hadvance, hmoved⟩ := hscan (n + m) (Nat.le_add_right n m)
    obtain ⟨c, c', hop⟩ := hops (n + m)
    rw [hadvance, hmoved] at hop
    simp only [TableOp.onIter, bind_eq_ok_iff, pure_eq_ok, Except.ok.injEq, Prod.mk.injEq,
      Option.some.injEq] at hop
    obtain ⟨r, hrun, hr, hit, -⟩ := hop
    have hsettles := TableIterator.settles_advance (hsane (n + m)) c
    rw [hrun] at hsettles
    exact hit ▸ left_lt (hsettles hr)
  have hwf : IsWellFounded (Nat × Nat) (Prod.Lex (· < ·) (· < ·)) :=
    ⟨(Prod.lex Nat.lt_wfRel Nat.lt_wfRel).wf⟩
  obtain ⟨m, hm⟩ := WellFounded.not_rel_apply_succ (r := Prod.Lex (· < ·) (· < ·))
    fun m => left (its (n + m))
  exact hm (hless m)

end SSTable
