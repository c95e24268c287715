import SSTable.Verification.Table.Locking

/-!
# The blocks that iterators show entries of

An iterator shows the entries of the block that it has loaded last.  It loads what its reads are
answered with, so a condition on the answers carries over to everything it shows.  Where several
tables share a cache, everything that is shown goes back to a block that was read from the table's
own file before; once a panic has poisoned the lock, that was before the panic.

Main results:

- Theorem {lit}`TableOp.reads_within`: an operation keeps an iterator within the blocks that its
  reads are answered with.
- Theorem {lit}`shown_was_read`: what is shown was read from the files.
- Theorem {lit}`poisoned_forever`: behind a poisoned lock, nothing is read or opened any more.
-/

namespace SSTable

open Foundation Foundation.Exec Foundation.Bytes Foundation.Calls

section

variable [Crates]

/-- An entry is shown by an iterator over the block. -/
def Block.Contains (b : Block) (e : Entry) : Prop :=
  ∃ cb₀ cb, b.iter = .ok cb₀ ∧ BlockIter.Driven cb₀ cb ∧ cb.current = .ok (some e)

/-- Every block that a read is answered with satisfies a condition. -/
def Supplies (X : Table → Block → Prop) (read : Table × BlockHandle) (r : Result Block) : Prop :=
  ∀ b, r = .ok b → X read.1 b

namespace TableIterator

/-- The block that is loaded satisfies a condition, and the iterator over it has been moved in any
way. -/
def Within (X : Table → Block → Prop) (it : TableIterator) : Prop :=
  ∀ cb, it.currentBlock = some cb →
    ∃ b cb₀, X it.table b ∧ b.iter = .ok cb₀ ∧ BlockIter.Driven cb₀ cb

variable {X : Table → Block → Prop} {it : TableIterator}

theorem within_none (h : it.currentBlock = none) : Within X it := by
  intro cb hcb
  rw [h] at hcb
  cases hcb

/-- What is shown is an entry of a block that satisfies the condition. -/
theorem Within.current (h : Within X it) {e : Entry} (hcurrent : it.current = .ok (some e)) :
    ∃ b, X it.table b ∧ b.Contains e := by
  unfold TableIterator.current at hcurrent
  cases hcb : it.currentBlock with
  | none => simp [hcb] at hcurrent
  | some cb =>
      rw [hcb] at hcurrent
      obtain ⟨b, cb₀, hX, hiter, hdriven⟩ := h cb hcb
      exact ⟨b, hX, cb₀, cb, hiter, hdriven, hcurrent⟩

theorem Within.mono {X' : Table → Block → Prop} (h : Within X it) (hX : X ≤ X') : Within X' it := by
  intro cb hcb
  obtain ⟨b, cb₀, hb, hiter, hdriven⟩ := h cb hcb
  exact ⟨b, cb₀, hX _ _ hb, hiter, hdriven⟩

/-- An iterator begins without a block. -/
theorem within_iter {t : Table} (h : t.iter = .ok it) : Within X it := by
  simp only [Table.iter, bind_eq_ok_iff, pure_eq_ok, Except.ok.injEq] at h
  obtain ⟨indexBlock, -, rfl⟩ := h
  exact within_none rfl

/-- The index does not matter. -/
theorem Within.moveIndex (h : Within X it) (indexBlock : BlockIter) :
    Within X { it with indexBlock := indexBlock } := h

/-- Moving the iterator over the block. -/
theorem Within.move (h : Within X it) {cb cb' : BlockIter} {op : BlockOp} {moved : Option Bool}
    (hcb : it.currentBlock = some cb) (hop : op.onIter cb = .ok (moved, cb')) :
    Within X { it with currentBlock := some cb' } := by
  obtain ⟨b, cb₀, hX, hiter, hdriven⟩ := h cb hcb
  intro cb'' hcb''
  obtain rfl := Option.some.inj hcb''
  exact ⟨b, cb₀, hX, hiter, hdriven.tail ⟨op, moved, hop⟩⟩

theorem loadReads_within (h : Within X it) (handle : Bytes) :
    (it.loadReads handle).Ensures (Supplies X) fun r => Within X r.2 := by
  refine ensures_exec_bind ?_
  rintro ⟨hd, n⟩ -
  refine ensures_ask_bind fun r hr => ?_
  cases r with
  | error e => exact h
  | ok b =>
      refine ensures_exec_bind fun cb hiter => ?_
      intro cb' hcb'
      obtain rfl := Option.some.inj hcb'
      exact ⟨b, cb, hr b rfl, hiter, .refl⟩

theorem skipReads_within (h : Within X it) :
    it.skipReads.Ensures (Supplies X) fun r => Within X r.2 := by
  refine ensures_exec_bind ?_
  rintro ⟨_ | ⟨k, val⟩, indexBlock⟩ -
  · exact h
  · exact (loadReads_within (h.moveIndex indexBlock) val).bind fun r hr => hr

/-- The iterator of a loop step stays within the blocks. -/
def StepWithin (X : Table → Block → Prop) : LoopStep TableIterator (Bool × TableIterator) → Prop
  | .next it => Within X it
  | .done r => Within X r.2

theorem nextReads_within (h : Within X it) :
    it.nextReads.Ensures (Supplies X) (StepWithin X) := by
  refine (skipReads_within h).bind ?_
  rintro ⟨e | _ | _, it'⟩ hit'
  · exact hit'
  · exact within_none rfl
  · exact hit'

theorem stepReads_within (h : Within X it) :
    it.stepReads.Ensures (Supplies X) (StepWithin X) := by
  unfold stepReads
  cases hcb : it.currentBlock with
  | none => exact nextReads_within h
  | some cb =>
      refine ensures_exec_bind ?_
      rintro ⟨_ | _, cb'⟩ hadvance
      · exact nextReads_within (within_none rfl)
      · have hop : BlockOp.advance.onIter cb = .ok (some true, cb') := by
          simp [BlockOp.onIter, hadvance]
        exact h.move hcb hop

theorem advanceReads_within (h : Within X it) :
    it.advanceReads.Ensures (Supplies X) fun r => Within X r.2 := by
  refine Ensures.loop (Within X) (fun it hit => ?_) _ h
  have hstep := stepReads_within hit
  exact (hstep.mono fun
    | .next _, h => h
    | .done _, h => h)

theorem seekReads_within (h : Within X it) (target : Bytes) :
    (it.seekReads target).Ensures (Supplies X) fun it => Within X it := by
  refine ensures_exec_bind fun indexBlock _ => ?_
  refine ensures_exec_bind ?_
  rintro (_ | ⟨pastBlock, handle⟩) -
  · exact within_none rfl
  · dsimp only
    split
    · exact within_none rfl
    · refine (loadReads_within (h.moveIndex indexBlock) handle).bind ?_
      rintro ⟨e | _, it'⟩ hit'
      · exact within_none rfl
      · refine ensures_exec_bind fun cb hcb => ?_
        refine ensures_exec_bind fun cb' hseek => ?_
        have hop : (BlockOp.seek target).onIter cb = .ok (none, cb') := by
          simp [BlockOp.onIter, hseek]
        exact Within.move hit' (unwrap_eq_ok_iff.mp hcb) hop

theorem prevBlockReads_within (h : Within X it) :
    it.prevBlockReads.Ensures (Supplies X) fun r => Within X r.2 := by
  refine ensures_exec_bind ?_
  rintro ⟨moved, indexBlock⟩ -
  cases moved with
  | false => exact h
  | true =>
      refine ensures_exec_bind ?_
      rintro (_ | ⟨k, handle⟩) -
      · exact h
      · refine (loadReads_within (h.moveIndex indexBlock) handle).bind ?_
        rintro ⟨e | _, it'⟩ hit'
        · exact within_none rfl
        · refine ensures_exec_bind fun cb hcb => ?_
          refine ensures_exec_bind fun cb' hlast => ?_
          have hop : BlockOp.seekToLast.onIter cb = .ok (none, cb') := by
            simp [BlockOp.onIter, hlast]
          exact Within.move hit' (unwrap_eq_ok_iff.mp hcb) hop

theorem prevReads_within (h : Within X it) :
    it.prevReads.Ensures (Supplies X) fun r => Within X r.2 := by
  unfold prevReads
  cases hcb : it.currentBlock with
  | none => exact prevBlockReads_within h
  | some cb =>
      refine ensures_exec_bind ?_
      rintro ⟨moved, cb'⟩ hprev
      have hop : BlockOp.prev.onIter cb = .ok (some moved, cb') := by
        simp [BlockOp.onIter, hprev]
      cases moved with
      | false => exact prevBlockReads_within (h.move hcb hop)
      | true => exact h.move hcb hop

end TableIterator

open TableIterator

/-- An operation keeps an iterator within the blocks that its reads are answered with. -/
theorem TableOp.reads_within {X : Table → Block → Prop} {it : TableIterator} (h : Within X it)
    (op : TableOp) : (op.reads it).Ensures (Supplies X) fun r => Within X r.2 := by
  cases op with
  | advance => exact (advanceReads_within h).bind fun r hr => hr
  | seek target => exact (seekReads_within h target).bind fun it hit => hit
  | reset => exact within_none rfl
  | prev => exact (prevReads_within h).bind fun r hr => hr

/-- A lookup finds values of the blocks that its reads are answered with. -/
theorem Table.getReads_within (X : Table → Block → Prop) (t : Table) (key : Bytes) :
    (t.getReads key).Ensures (Supplies X) fun r =>
      ∀ v, r = .ok (some v) → ∃ b k, X t b ∧ b.Contains (k, v) := by
  refine ensures_exec_bind ?_
  rintro (_ | handle) -
  · simp
  · refine ensures_exec_bind ?_
    rintro (_ | _) -
    · simp
    · refine ensures_ask_bind fun r hr => ?_
      cases r with
      | error e => simp
      | ok b =>
          refine ensures_exec_bind fun found hfound => ?_
          rw [ensures_pure]
          rintro v ⟨⟩
          simp only [Table.searchBlock, bind_eq_ok_iff] at hfound
          obtain ⟨it₀, hiter, it, hseek, entry, hcurrent, hfound⟩ := hfound
          rcases entry with _ | ⟨k, val⟩
          · simp at hfound
          · dsimp only at hfound
            split at hfound
            · obtain rfl := Option.some.inj (Except.ok.inj hfound)
              have hdriven : BlockIter.Driven it₀ it :=
                .single ⟨.seek key, none, by simp [BlockOp.onIter, hseek]⟩
              exact ⟨b, k, hr b rfl, it₀, it, hiter, hdriven, hcurrent⟩
            · simp at hfound

/-! ## Users of one cache -/

/-- What a call returns comes from blocks that satisfy a condition. -/
def Outcome.Within (X : Table → Block → Prop) : Outcome → Prop
  | .found r => ∀ v, r = .ok (some v) → ∃ t b k, X t b ∧ b.Contains (k, v)
  | .moved _ _ it => TableIterator.Within X it

namespace LockedTables

/-- The iterators and calls have blocks that satisfy a condition, and go on to show such blocks as
long as they are given no others. -/
structure Holds (X : Table → Block → Prop) (s : LockedTables) : Prop where
  iters : ∀ it, some it ∈ s.iters → Within X it
  calls : ∀ p, some p ∈ s.calls → ∀ X', X ≤ X' → p.Ensures (Supplies X') (Outcome.Within X')

/-- A step reads a block of a table from the table's file. -/
def Reads (s : LockedTables) (op : SharedOp) (t : Table) (b : Block) : Prop :=
  s.lock.poisoned = false ∧ ∃ k h next, op = .work k ∧
    s.calls[k]? = some (some (.call (t, h) next)) ∧ t ∈ s.tables ∧ t.indexBlock.Lists h ∧
    readTableBlock t.opt t.file h = .ok (.ok b)

/-- A run has read a block of a table from the table's file. -/
def ReadIn (lock : SharedCache) (ops : List SharedOp) (t : Table) (b : Block) : Prop :=
  ∃ before op after, ops = before ++ op :: after ∧ (reached lock before).Reads op t b

/-- What is shown comes from blocks that satisfy a condition. -/
def From (X : Table → Block → Prop) : Exec Shown → Prop
  | .ok (.found (.ok (some v))) => ∃ t b k, X t b ∧ b.Contains (k, v)
  | .ok (.moved o) => ∀ e, o.current = some e → ∃ t b, X t b ∧ b.Contains e
  | _ => True

variable {cap : Nat} {s : LockedTables} {X Y : Table → Block → Prop}

theorem Holds.mono (h : Holds X s) (hX : X ≤ Y) : Holds Y s where
  iters it hit := (h.iters it hit).mono hX
  calls p hp Z hZ := h.calls p hp Z (hX.trans hZ)

/-- Calls come and go. -/
theorem Holds.call (h : Holds X s) {calls : List (Option (BlockReads Outcome))}
    (hcalls : ∀ p, some p ∈ calls →
      some p ∈ s.calls ∨ ∀ Y, X ≤ Y → p.Ensures (Supplies Y) (Outcome.Within Y)) :
    Holds X { s with calls := calls } where
  iters := h.iters
  calls p hp := (hcalls p hp).elim (h.calls p) id

/-- So do iterators. -/
theorem Holds.iterate (h : Holds X s) {iters : List (Option TableIterator)}
    (hiters : ∀ it, some it ∈ iters → some it ∈ s.iters ∨ Within X it) :
    Holds X { s with iters := iters } where
  iters it hit := (hiters it hit).elim (h.iters it) id
  calls := h.calls

/-- The end of a call. -/
theorem Holds.finish (h : Holds X s) (k : Nat) {out : Outcome} (hout : out.Within X) :
    Holds X (s.finish k out).2 ∧ From X (s.finish k out).1 := by
  have hended : Holds X { s with calls := s.calls.set k none } := h.call fun p hp => by
    rcases List.mem_or_eq_of_mem_set hp with hold | hnew
    · exact Or.inl hold
    · cases hnew
  cases out with
  | found r =>
      refine ⟨hended, ?_⟩
      rcases r with e | _ | v
      · trivial
      · trivial
      · exact hout v rfl
  | moved j moved it =>
      dsimp only [LockedTables.finish]
      cases hcurrent : it.current with
      | error e => exact ⟨hended, trivial⟩
      | ok entry =>
          refine ⟨hended.iterate fun it' hit' => ?_, ?_⟩
          · rcases List.mem_or_eq_of_mem_set hit' with hold | hnew
            · exact Or.inl hold
            · obtain rfl := Option.some.inj hnew
              exact Or.inr hout
          · rintro e rfl
            obtain ⟨b, hX, hcontains⟩ := Within.current hout hcurrent
            exact ⟨it.table, b, hX, hcontains⟩

/-- A step shows what was read before, and the users have what was read up to this step. -/
theorem Holds.step (h : Holds X s) (hsound : s.shared.Sound cap) (op : SharedOp) (hX : X ≤ Y)
    (hread : ∀ t b, s.Reads op t b → Y t b) :
    Holds Y (s.step cachedRead op).2 ∧ From X (s.step cachedRead op).1 := by
  have hmono := h.mono hX
  have hbegin : ∀ p : BlockReads Outcome,
      (∀ Z, Y ≤ Z → p.Ensures (Supplies Z) (Outcome.Within Z)) →
      Holds Y { s with calls := s.calls ++ [some p] } := by
    refine fun p hp => hmono.call fun p' hp' => ?_
    rcases List.mem_append.mp hp' with hold | hnew
    · exact Or.inl hold
    · obtain rfl := Option.some.inj (List.mem_singleton.mp hnew)
      exact Or.inr hp
  cases op with
  | openTable opt file size =>
      unfold LockedTables.step
      dsimp only
      rcases Table.newLocked opt file size s.lock with ⟨e | e | t, lock⟩
      · exact ⟨⟨hmono.iters, hmono.calls⟩, trivial⟩
      · exact ⟨⟨hmono.iters, hmono.calls⟩, trivial⟩
      · exact ⟨⟨hmono.iters, hmono.calls⟩, trivial⟩
  | cloneTable i =>
      unfold LockedTables.step
      dsimp only
      cases s.tables[i]? with
      | none => exact ⟨hmono, trivial⟩
      | some t => exact ⟨⟨hmono.iters, hmono.calls⟩, trivial⟩
  | iterate i =>
      unfold LockedTables.step
      dsimp only
      cases s.tables[i]? with
      | none => exact ⟨hmono, trivial⟩
      | some t =>
          dsimp only
          cases hiter : t.iter with
          | error e => exact ⟨hmono, trivial⟩
          | ok it =>
              refine ⟨hmono.iterate fun it' hit' => ?_, trivial⟩
              rcases List.mem_append.mp hit' with hold | hnew
              · exact Or.inl hold
              · obtain rfl := Option.some.inj (List.mem_singleton.mp hnew)
                exact Or.inr (within_iter hiter)
  | get i key =>
      unfold LockedTables.step
      dsimp only
      cases s.tables[i]? with
      | none => exact ⟨hmono, trivial⟩
      | some t =>
          refine ⟨hbegin _ fun Z _ => ?_, trivial⟩
          refine (t.getReads_within Z key).bind fun r hr v hv => ?_
          obtain ⟨b, k, hb⟩ := hr v hv
          exact ⟨t, b, k, hb⟩
  | move j op =>
      unfold LockedTables.step
      dsimp only
      rcases hj : s.iters[j]? with _ | _ | it
      · exact ⟨hmono, trivial⟩
      · exact ⟨hmono, trivial⟩
      · have hwithin := hmono.iters it (List.mem_of_getElem? hj)
        refine ⟨(hbegin _ fun Z hZ => ?_).iterate fun it' hit' => ?_, trivial⟩
        · exact (op.reads_within (hwithin.mono hZ)).bind fun r hr => hr
        · rcases List.mem_or_eq_of_mem_set hit' with hold | hnew
          · exact Or.inl hold
          · cases hnew
  | work k =>
      have hset : ∀ {q : Option (BlockReads Outcome)} (lock : SharedCache),
          (∀ p, q = some p → ∀ Z, Y ≤ Z → p.Ensures (Supplies Z) (Outcome.Within Z)) →
          Holds Y { s with lock := lock, calls := s.calls.set k q } := by
        intro q lock hq
        refine Holds.call (s := { s with lock := lock }) ⟨hmono.iters, hmono.calls⟩ fun p hp => ?_
        rcases List.mem_or_eq_of_mem_set hp with hold | hnew
        · exact Or.inl hold
        · exact Or.inr (hq p hnew.symm)
      unfold LockedTables.step
      dsimp only
      rcases hk : s.calls[k]? with _ | _ | out | e | ⟨i, next⟩
      · exact ⟨hmono, trivial⟩
      · exact ⟨hmono, trivial⟩
      · have hout := h.calls _ (List.mem_of_getElem? hk)
        exact ⟨(hmono.finish k (hout Y hX)).1, (h.finish k (hout X le_rfl)).2⟩
      · exact ⟨hset s.lock (by simp), trivial⟩
      · have hnext := h.calls _ (List.mem_of_getElem? hk)
        obtain ⟨t, ht, ⟨htable, hlists⟩, -⟩ := hsound.calls _ (List.mem_of_getElem? hk)
        obtain ⟨t', hd⟩ := i
        obtain rfl : t' = t := htable
        dsimp only
        cases hpoisoned : s.lock.poisoned with
        | true =>
            rw [SharedCache.write_of_poisoned hpoisoned]
            refine ⟨hset _ ?_, trivial⟩
            rintro p hp Z hZ
            obtain rfl := Option.some.inj hp
            exact hnext Z (hX.trans hZ) _ (by rintro b ⟨⟩)
        | false =>
            have hanswer := hsound.serves.readBlock hsound.distinct ht hlists
            cases hstored : storedRead (t', hd) with
            | error e =>
                rw [hstored] at hanswer
                have hcached : cachedRead (t', hd) s.lock.cache = .error e := hanswer
                rw [SharedCache.write_of_error hpoisoned hcached]
                exact ⟨hset _ (by simp), trivial⟩
            | ok r =>
                rw [hstored] at hanswer
                obtain ⟨c', hcached, -, -⟩ := hanswer
                have hcached : cachedRead (t', hd) s.lock.cache = .ok (r, c') := hcached
                rw [SharedCache.write_of_ok hpoisoned hcached]
                refine ⟨hset _ ?_, trivial⟩
                rintro p hp Z hZ
                obtain rfl := Option.some.inj hp
                refine hnext Z (hX.trans hZ) _ fun b hb => hZ _ _ (hread _ _ ?_)
                exact ⟨hpoisoned, k, hd, next, rfl, hk, ht, hlists, hb ▸ hstored⟩

/-! ## Runs -/

theorem readIn_append {lock : SharedCache} {ops : List SharedOp} {op : SharedOp} {t : Table}
    {b : Block} : ReadIn lock (ops ++ [op]) t b ↔
      ReadIn lock ops t b ∨ (reached lock ops).Reads op t b := by
  constructor
  · rintro ⟨before, op', after, heq, hread⟩
    rcases List.eq_nil_or_concat after with rfl | ⟨after', op'', rfl⟩
    · obtain ⟨rfl, hop⟩ := List.append_inj' heq rfl
      obtain rfl := List.singleton_injective hop
      exact Or.inr hread
    · rw [List.concat_eq_append, ← List.cons_append, ← List.append_assoc] at heq
      obtain ⟨rfl, -⟩ := List.append_inj' heq rfl
      exact Or.inl ⟨before, op', after', rfl, hread⟩
  · rintro (⟨before, op', after, rfl, hread⟩ | hread)
    · exact ⟨before, op', after ++ [op], by simp, hread⟩
    · exact ⟨ops, op, [], rfl, hread⟩

/-- The users have what was read. -/
theorem holds_reached {lock : SharedCache} (h : withCacheCapacity cap = .ok lock)
    (ops : List SharedOp)
    (hfiles : ∀ opt file size, .openTable opt file size ∈ ops → Unambiguous opt file size) :
    Holds (ReadIn lock ops) (reached lock ops) := by
  induction ops using List.reverseRecOn with
  | nil => exact ⟨by simp [reached, start, traceOps], by simp [reached, start, traceOps]⟩
  | append_singleton ops op ih =>
      have hbefore : ∀ opt file size, .openTable opt file size ∈ ops →
          Unambiguous opt file size := fun opt file size hmem =>
        hfiles opt file size (List.mem_append_left _ hmem)
      rw [reached_append]
      refine ((ih hbefore).step (sound_reached h ops hbefore) op ?_ ?_).1
      · exact fun t b hread => readIn_append.mpr (Or.inl hread)
      · exact fun t b hread => readIn_append.mpr (Or.inr hread)

/-! ## Behind a poisoned lock -/

/-- A read that is refused. -/
def Refusal (_ : Table × BlockHandle) (r : Result Block) : Prop :=
  r = .error Status.ofPoisonError

/-- A lookup that reads nothing, and a seek that ends nowhere. -/
def Refused : Outcome → Prop
  | .found r => r = .ok none ∨ r = .error Status.ofPoisonError
  | .moved _ moved it => moved = none → it.currentBlock = none

end LockedTables

open LockedTables

theorem Table.getReads_refused (t : Table) (key : Bytes) :
    (t.getReads key).Ensures Refusal fun r => r = .ok none ∨ r = .error Status.ofPoisonError := by
  refine ensures_exec_bind ?_
  rintro (_ | handle) -
  · exact Or.inl rfl
  · refine ensures_exec_bind ?_
    rintro (_ | _) -
    · exact Or.inl rfl
    · refine ensures_ask_bind fun r hr => ?_
      obtain rfl := hr
      exact Or.inr rfl

theorem TableIterator.loadReads_refused (it : TableIterator) (handle : Bytes) :
    (it.loadReads handle).Ensures Refusal fun r => r.1 = .error Status.ofPoisonError := by
  refine ensures_exec_bind ?_
  rintro ⟨hd, n⟩ -
  refine ensures_ask_bind fun r hr => ?_
  obtain rfl := hr
  exact rfl

/-- A seek gives up its block for one that it is refused. -/
theorem TableIterator.seekReads_refused (it : TableIterator) (target : Bytes) :
    (it.seekReads target).Ensures Refusal fun it => it.currentBlock = none := by
  refine ensures_exec_bind fun indexBlock _ => ?_
  refine ensures_exec_bind ?_
  rintro (_ | ⟨pastBlock, handle⟩) -
  · exact rfl
  · dsimp only
    split
    · exact rfl
    · refine (loadReads_refused _ handle).bind ?_
      rintro ⟨r, it'⟩ hr
      obtain rfl : r = .error Status.ofPoisonError := hr
      exact rfl

theorem TableOp.reads_refused (it : TableIterator) (op : TableOp) :
    (op.reads it).Ensures Refusal fun r => r.1 = none → r.2.currentBlock = none := by
  cases op with
  | advance => exact (ensures_of_forall (fun _ => trivial) _).bind fun r (_ : True) => by simp
  | seek target => exact (seekReads_refused it target).bind fun it hit _ => hit
  | reset => exact fun _ => rfl
  | prev => exact (ensures_of_forall (fun _ => trivial) _).bind fun r (_ : True) => by simp

end

namespace LockedTables

/-- The lock is poisoned, and all calls but the first ones are refused what they read. -/
structure Closed (s₀ s : LockedTables) : Prop where
  poisoned : s₀.lock.poisoned = true
  lock_eq : s.lock = s₀.lock
  tables : ∀ t ∈ s.tables, t ∈ s₀.tables
  length_le : s₀.calls.length ≤ s.calls.length
  calls : ∀ k p, s₀.calls.length ≤ k → s.calls[k]? = some (some p) → p.Ensures Refusal Refused

/-- What is seen behind a poisoned lock: no table is opened, and the calls that have begun behind it
find nothing or an error, and seek nothing. -/
def ShowsRefused (s₀ : LockedTables) (op : SharedOp) : Exec Shown → Prop
  | .ok (.opened e) => e ≠ none
  | .ok (.found r) => (∀ k, s₀.calls.length ≤ k → op = .work k →
      r = .ok none ∨ r = .error Status.ofPoisonError)
  | .ok (.moved o) => ∀ k, s₀.calls.length ≤ k → op = .work k → o.moved = none → o.valid = false
  | _ => True

variable {cap : Nat} {s₀ s : LockedTables}

theorem closed_refl (h : s.lock.poisoned = true) : Closed s s where
  poisoned := h
  lock_eq := rfl
  tables _ ht := ht
  length_le := le_rfl
  calls _ _ hk hp := absurd (List.getElem?_eq_some_iff.mp hp).1 (not_lt.mpr hk)

/-- A call begins behind the lock. -/
theorem Closed.begin (h : Closed s₀ s) {p : BlockReads Outcome} (hp : p.Ensures Refusal Refused) :
    Closed s₀ { s with calls := s.calls ++ [some p] } where
  poisoned := h.poisoned
  lock_eq := h.lock_eq
  tables := h.tables
  length_le := by simpa using Nat.le_succ_of_le h.length_le
  calls k p' hk hp' := by
    rcases lt_or_ge k s.calls.length with hold | hnew
    · rw [List.getElem?_append_left hold] at hp'
      exact h.calls k p' hk hp'
    · rw [List.getElem?_append_right hnew, List.getElem?_singleton] at hp'
      split at hp'
      · obtain rfl := Option.some.inj (Option.some.inj hp')
        exact hp
      · cases hp'

/-- A call goes on behind the lock or ends. -/
theorem Closed.call (h : Closed s₀ s) (k : Nat) {q : Option (BlockReads Outcome)}
    (hq : ∀ p, q = some p → s₀.calls.length ≤ k → p.Ensures Refusal Refused) :
    Closed s₀ { s with calls := s.calls.set k q } where
  poisoned := h.poisoned
  lock_eq := h.lock_eq
  tables := h.tables
  length_le := by simpa using h.length_le
  calls k' p hk hp := by
    rw [List.getElem?_set] at hp
    split at hp
    · subst_vars
      split at hp
      · exact hq p (Option.some.inj hp) hk
      · cases hp
    · exact h.calls k' p hk hp

/-- The iterators do not matter. -/
theorem Closed.iterate (h : Closed s₀ s) (iters : List (Option TableIterator)) :
    Closed s₀ { s with iters := iters } where
  poisoned := h.poisoned
  lock_eq := h.lock_eq
  tables := h.tables
  length_le := h.length_le
  calls := h.calls

variable [Crates]

/-- The lock stays closed. -/
theorem Closed.step (h : Closed s₀ s) (op : SharedOp) :
    Closed s₀ (s.step cachedRead op).2 ∧ ShowsRefused s₀ op (s.step cachedRead op).1 := by
  have hpoisoned : s.lock.poisoned = true := h.lock_eq ▸ h.poisoned
  have hsame : ({ cache := s.lock.cache, poisoned := true } : SharedCache) = s.lock := by
    rw [← hpoisoned]
  cases op with
  | openTable opt file size =>
      unfold LockedTables.step Table.newLocked
      dsimp only
      rcases Table.prepare opt file size with e | e | parts
      · exact ⟨h, trivial⟩
      · exact ⟨h, by simp [ShowsRefused]⟩
      · dsimp only
        rw [SharedCache.write_of_poisoned hpoisoned, hsame]
        exact ⟨h, by simp [ShowsRefused]⟩
  | cloneTable i =>
      unfold LockedTables.step
      dsimp only
      cases hi : s.tables[i]? with
      | none => exact ⟨h, trivial⟩
      | some t =>
          refine ⟨{ h with tables := fun t' ht' => ?_ }, trivial⟩
          rcases List.mem_append.mp ht' with hold | hnew
          · exact h.tables t' hold
          · exact h.tables t' (List.mem_singleton.mp hnew ▸ List.mem_of_getElem? hi)
  | iterate i =>
      unfold LockedTables.step
      dsimp only
      cases s.tables[i]? with
      | none => exact ⟨h, trivial⟩
      | some t =>
          dsimp only
          cases t.iter with
          | error e => exact ⟨h, trivial⟩
          | ok it => exact ⟨h.iterate _, trivial⟩
  | get i key =>
      unfold LockedTables.step
      dsimp only
      cases s.tables[i]? with
      | none => exact ⟨h, trivial⟩
      | some t => exact ⟨h.begin ((t.getReads_refused key).bind fun r hr => hr), trivial⟩
  | move j op =>
      unfold LockedTables.step
      dsimp only
      rcases s.iters[j]? with _ | _ | it
      · exact ⟨h, trivial⟩
      · exact ⟨h, trivial⟩
      · refine ⟨(h.begin ?_).iterate _, trivial⟩
        refine (op.reads_refused it).bind ?_
        rintro ⟨moved, it'⟩ hit'
        exact hit'
  | work k =>
      unfold LockedTables.step
      dsimp only
      rcases hk : s.calls[k]? with _ | _ | out | e | ⟨i, next⟩
      · exact ⟨h, trivial⟩
      · exact ⟨h, trivial⟩
      · have hend := h.call k (q := none) (by simp)
        cases out with
        | found r =>
            refine ⟨hend, fun k' hk' heq => ?_⟩
            obtain rfl := SharedOp.work.inj heq
            exact h.calls k _ hk' hk
        | moved j moved it =>
            dsimp only [LockedTables.finish]
            cases hcurrent : it.current with
            | error e => exact ⟨hend, trivial⟩
            | ok entry =>
                refine ⟨hend.iterate _, fun k' hk' heq hnone => ?_⟩
                obtain rfl := SharedOp.work.inj heq
                have hcb : it.currentBlock = none := h.calls k _ hk' hk hnone
                simp [TableIterator.valid, hcb]
      · exact ⟨h.call k (by simp), trivial⟩
      · dsimp only
        rw [SharedCache.write_of_poisoned hpoisoned, hsame]
        refine ⟨h.call k fun p hp hk' => ?_, trivial⟩
        obtain rfl := Option.some.inj hp
        exact h.calls k _ hk' hk _ rfl

theorem reached_run (lock : SharedCache) (before after : List SharedOp) :
    reached lock (before ++ after) = (traceOps (step cachedRead) (reached lock before) after).2 := by
  rw [reached, traceOps_append]
  rfl

theorem closed_reached {lock : SharedCache} {before : List SharedOp}
    (h : (reached lock before).lock.poisoned = true) (after : List SharedOp) :
    Closed (reached lock before) (reached lock (before ++ after)) := by
  rw [reached_run]
  exact (traceOps_keeps (Closed (reached lock before)) (fun _ => True)
    (fun s op _ hs => ⟨trivial, (hs.step op).1⟩) (closed_refl h)).2

/-- Nothing is read behind a poisoned lock. -/
theorem readIn_of_poisoned {lock : SharedCache} {before : List SharedOp}
    (h : (reached lock before).lock.poisoned = true) (after : List SharedOp) {t : Table} {b : Block} :
    ReadIn lock (before ++ after) t b ↔ ReadIn lock before t b := by
  induction after using List.reverseRecOn with
  | nil => rw [List.append_nil]
  | append_singleton after op ih =>
      have hclosed := closed_reached h after
      rw [← List.append_assoc, readIn_append, ih, or_iff_left]
      rintro ⟨hfree, -⟩
      rw [hclosed.lock_eq, h] at hfree
      cases hfree

end LockedTables

open LockedTables

/-- Whoever shares the cache, and whoever panics: a value that is found and an entry that an
iterator shows is in a block that was read before from the file of one of the tables, where the
table's index lists it. -/
theorem shown_was_read [Crates] {cap : Nat} {lock : SharedCache}
    (h : withCacheCapacity cap = .ok lock) (ops : List SharedOp)
    (hfiles : ∀ opt file size, .openTable opt file size ∈ ops → Unambiguous opt file size)
    (op : SharedOp) : From (ReadIn lock ops) ((reached lock ops).step cachedRead op).1 := by
  refine ((holds_reached h ops hfiles).step (sound_reached h ops hfiles) op
    (Y := fun _ _ => True) ?_ ?_).2
  · exact fun _ _ _ => trivial
  · exact fun _ _ _ => trivial

set_option maxRecDepth 20000 in
/-- A lookup finds a value. -/
theorem shown_was_read_short_block : letI := referenceCrates
    ∃ t b k, ReadIn (share smallCache) (shortBlockOps.take 3) t b ∧ b.Contains (k, [1]) := by
  let := referenceCrates
  have hlock : withCacheCapacity 4 = .ok (share smallCache) := rfl
  have hfrom := shown_was_read hlock (shortBlockOps.take 3)
    (fun opt file size hmem => shortBlockOps_files opt file size
      (List.mem_append_left _ (List.mem_of_mem_take hmem))) (.work 0)
  have hshown : ((reached (share smallCache) (shortBlockOps.take 3)).step cachedRead (.work 0)).1 =
      .ok (.found (.ok (some [1]))) := rfl
  rw [hshown] at hfrom
  exact hfrom

/-- Once a panic has poisoned the lock, it stays so: the cache does not change any more, no table is
opened, a lookup that begins finds nothing or returns the error of the lock, a seek that begins
leaves its iterator invalid, and whatever else is found or shown is in a block that was read before
the panic. -/
theorem poisoned_forever [Crates] {cap : Nat} {lock : SharedCache}
    (h : withCacheCapacity cap = .ok lock) (before after : List SharedOp)
    (hfiles : ∀ opt file size, .openTable opt file size ∈ before ++ after →
      Unambiguous opt file size)
    (hpoisoned : (reached lock before).lock.poisoned = true) (op : SharedOp) :
    (reached lock (before ++ after)).lock = (reached lock before).lock ∧
    (∀ t ∈ (reached lock (before ++ after)).tables, t ∈ (reached lock before).tables) ∧
    ShowsRefused (reached lock before) op ((reached lock (before ++ after)).step cachedRead op).1 ∧
    From (ReadIn lock before) ((reached lock (before ++ after)).step cachedRead op).1 := by
  have hclosed := closed_reached hpoisoned after
  have hsame : ReadIn lock (before ++ after) = ReadIn lock before := by
    funext t b
    exact propext (readIn_of_poisoned hpoisoned after)
  refine ⟨hclosed.lock_eq, hclosed.tables, (hclosed.step op).2, ?_⟩
  rw [← hsame]
  refine ((holds_reached h _ hfiles).step (sound_reached h _ hfiles) op
    (Y := fun _ _ => True) ?_ ?_).2
  · exact fun _ _ _ => trivial
  · exact fun _ _ _ => trivial

set_option maxRecDepth 20000 in
/-- The value whose block was read before the panic is still found. -/
theorem poisoned_forever_short_block : letI := referenceCrates
    (reached (share smallCache) shortBlockOps).lock.poisoned = true ∧
      ((reached (share smallCache) (shortBlockOps ++ refusedOps)).step cachedRead (.work 0)).1 =
        .ok (.found (.ok (some [1]))) ∧
      ∃ t b k, ReadIn (share smallCache) shortBlockOps t b ∧ b.Contains (k, [1]) := by
  let := referenceCrates
  have hlock : withCacheCapacity 4 = .ok (share smallCache) := rfl
  have hpoisoned : (reached (share smallCache) shortBlockOps).lock.poisoned = true := rfl
  have hshown : ((reached (share smallCache) (shortBlockOps ++ refusedOps)).step cachedRead
      (.work 0)).1 = .ok (.found (.ok (some [1]))) := rfl
  have hfrom := (poisoned_forever hlock shortBlockOps refusedOps shortBlockOps_files hpoisoned
    (.work 0)).2.2.2
  rw [hshown] at hfrom
  exact ⟨hpoisoned, hshown, hfrom⟩

end SSTable
