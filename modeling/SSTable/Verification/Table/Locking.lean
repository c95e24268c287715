import SSTable.Model.Lock
import SSTable.Verification.Table.Sharing

/-!
# Panics under the lock of the cache

A call that panics ends, and the other users of the tables go on.  If it panicked while it held the
lock of the block cache, all of them are affected: no block is read any more, and no table opened.

Main results:

- Theorem {lit}`LockedTables.step_mirrors`: next to a cache of another size, every step shows the
  same, a panic included.
- Theorem {lit}`panics_transparent`: so does every run, and the lock is poisoned where the read of a
  block panics by itself.
-/

namespace SSTable

open Foundation Foundation.Exec Foundation.Bytes Foundation.Calls

/-! ## Sections under the lock -/

namespace SharedCache

variable {α : Type} {s : SharedCache} {f : BlockCache → Exec (Result α × BlockCache)}

theorem write_of_poisoned (h : s.poisoned = true) :
    s.write f = (.ok (.error Status.ofPoisonError), { cache := s.cache, poisoned := true }) := by
  rw [write, if_pos h, ← h]

theorem write_of_ok {r : Result α} {c : BlockCache} (h : s.poisoned = false)
    (hf : f s.cache = .ok (r, c)) : s.write f = (.ok r, { cache := c, poisoned := false }) := by
  rw [write, if_neg (by simp [h]), hf, ← h]

theorem write_of_error {e : Fault} (h : s.poisoned = false) (hf : f s.cache = .error e) :
    s.write f = (.error e, { cache := s.cache, poisoned := true }) := by
  rw [write, if_neg (by simp [h]), hf]

end SharedCache

/-! ## Opening tables -/

theorem Table.issue_of_lt (parts : CacheID → Table) {c : BlockCache} (h : c.id + 1 < wordLimit) :
    Table.issue parts c = .ok (.ok (parts (c.id + 1)), { c with id := c.id + 1 }) := by
  simp [Table.issue, Cache.newCacheId, wordAdd, h]

theorem Table.issue_of_le (parts : CacheID → Table) {c : BlockCache} (h : wordLimit ≤ c.id + 1) :
    Table.issue parts c = .error .arithmetic := by
  simp [Table.issue, Cache.newCacheId, wordAdd, not_lt.mpr h]

section

variable [Crates]

/-- A prepared table has the id that it is given, and the index of the file. -/
theorem Table.prepare_parts {opt : Options} {file : RandomAccess} {size : Nat}
    {parts : CacheID → Table} (h : Table.prepare opt file size = .ok (.ok parts)) (id : CacheID) :
    (parts id).cacheId = id ∧
      (Unambiguous opt file size → (parts id).indexBlock.Unambiguous) := by
  unfold Table.prepare at h
  rcases hfooter : readFooter file size with e | e | footer
  · simp [hfooter] at h
  · simp [hfooter] at h
  · rw [hfooter, ok_bind] at h
    dsimp only at h
    rcases hindex : readTableBlock opt file footer.index with e | e | index
    · simp [hindex] at h
    · simp [hindex] at h
    · rw [hindex, ok_bind] at h
      dsimp only at h
      rcases hmeta : readTableBlock opt file footer.metaIndex with e | e | metaindex
      · simp [hmeta] at h
      · simp [hmeta] at h
      · rw [hmeta, ok_bind] at h
        dsimp only at h
        rcases hfilters : readFilterBlock metaindex file opt with e | e | filters
        · simp [hfilters] at h
        · simp [hfilters] at h
        · rw [hfilters, ok_bind] at h
          obtain rfl := Except.ok.inj (Except.ok.inj h)
          exact ⟨rfl, fun hfile => hfile footer index hfooter hindex⟩

/-- What an ordered block lists is among its values. -/
theorem BlockLayout.Ordered.lists {L : BlockLayout} (hord : L.Ordered) (hsmall : L.Small) {b : Block}
    (hcmp : b.opt.cmp = DefaultCmp) (hblock : b.block = L.contents) {h : BlockHandle}
    (hlists : b.Lists h) : ∃ s ∈ L.slots, ∃ n, BlockHandle.decode s.val = .ok (h, n) := by
  obtain ⟨it₀, it, k, val, n, hiter, hdriven, hcurrent, hdecode⟩ := hlists
  obtain ⟨it₁, hiter₁, hstart⟩ := BlockIter.tracked_iter hsmall hcmp hblock
  obtain rfl : it₀ = it₁ := Except.ok.inj (hiter.symm.trans hiter₁)
  obtain ⟨τ, htracked⟩ := hdriven.tracked hord hstart
  have hplaced := htracked.placed
  cases hpos : τ.pos with
  | none =>
      rw [hpos] at hplaced
      have hun : BlockIter.Unplaced L it := hplaced
      rw [hun.current] at hcurrent
      cases hcurrent
  | some i =>
      rw [hpos] at hplaced
      obtain ⟨s, hat⟩ := hplaced
      have hmem := List.mem_of_getElem? hat.slot_eq
      rw [hat.current (hord.key_ne_nil s hmem)] at hcurrent
      obtain ⟨-, rfl⟩ := Prod.mk.inj (Option.some.inj (Except.ok.inj hcurrent))
      exact ⟨s, hmem, n, hdecode⟩

/-! ## Users that panic -/

/-- The way in which calls read blocks. -/
abbrev BlockRead := Table × BlockHandle → BlockCache → Exec (Result Block × BlockCache)

/-- Read a block from its file. -/
def plainRead : BlockRead := fun i c => storedRead i >>= fun r => pure (r, c)

/-- The tables that share a cache behind a lock, with their iterators and calls. -/
structure LockedTables where
  lock : SharedCache
  tables : List Table
  iters : List (Option TableIterator)
  calls : List (Option (BlockReads Outcome))

namespace LockedTables

/-- Begin with a lock and no tables. -/
def start (lock : SharedCache) : LockedTables where
  lock := lock
  tables := []
  iters := []
  calls := []

/-- The same tables without the lock. -/
def shared (s : LockedTables) : SharedTables where
  cache := s.lock.cache
  tables := s.tables
  iters := s.iters
  calls := s.calls

/-- A call returns.  An iterator whose entry cannot be shown is lost with its user. -/
def finish (s : LockedTables) (k : Nat) : Outcome → Exec Shown × LockedTables
  | .found r => (.ok (.found r), { s with calls := s.calls.set k none })
  | .moved j moved it =>
      match it.current with
      | .error e => (.error e, { s with calls := s.calls.set k none })
      | .ok entry =>
          (.ok (.moved
            { moved := moved, valid := it.valid, current := entry, currentKey := it.currentKey }),
            { s with calls := s.calls.set k none, iters := s.iters.set j (some it) })

/-- A step of the tables together.  A call that panics ends, with the iterator it was lent. -/
def step (read : BlockRead) (s : LockedTables) : SharedOp → Exec Shown × LockedTables
  | .openTable opt file size =>
      match Table.newLocked opt file size s.lock with
      | (.ok (.ok t), lock) =>
          (.ok (.opened none), { s with lock := lock, tables := s.tables ++ [t] })
      | (.ok (.error e), lock) => (.ok (.opened (some e)), { s with lock := lock })
      | (.error e, lock) => (.error e, { s with lock := lock })
  | .cloneTable i =>
      match s.tables[i]? with
      | some t => (.ok .nothing, { s with tables := s.tables ++ [t] })
      | none => (.ok .nothing, s)
  | .iterate i =>
      match s.tables[i]? with
      | some t =>
          match t.iter with
          | .ok it => (.ok .nothing, { s with iters := s.iters ++ [some it] })
          | .error e => (.error e, s)
      | none => (.ok .nothing, s)
  | .get i key =>
      match s.tables[i]? with
      | some t => (.ok .nothing, { s with calls := s.calls ++ [some do
          let r ← t.getReads key
          pure (.found r)] })
      | none => (.ok .nothing, s)
  | .move j op =>
      match s.iters[j]? with
      | some (some it) => (.ok .nothing, { s with
          iters := s.iters.set j none
          calls := s.calls ++ [some do
            let (moved, it) ← op.reads it
            pure (.moved j moved it)] })
      | _ => (.ok .nothing, s)
  | .work k =>
      match s.calls[k]? with
      | some (some (.call i next)) =>
          match s.lock.write (read i) with
          | (.ok r, lock) =>
              (.ok .nothing, { s with lock := lock, calls := s.calls.set k (some (next r)) })
          | (.error e, lock) => (.error e, { s with lock := lock, calls := s.calls.set k none })
      | some (some (.stop e)) => (.error e, { s with calls := s.calls.set k none })
      | some (some (.done out)) => s.finish k out
      | _ => (.ok .nothing, s)

/-- The section under the lock that a step runs panics. -/
def Poisons (s : LockedTables) : SharedOp → Prop
  | .openTable opt file size =>
      (∃ parts, Table.prepare opt file size = .ok (.ok parts)) ∧ wordLimit ≤ s.lock.cache.id + 1
  | .work k => ∃ i next e, s.calls[k]? = some (some (.call i next)) ∧ storedRead i = .error e
  | _ => False

/-- The same tables, iterators and calls behind a lock in the same state, with caches that have
given out the same ids. -/
def Beside (cap : Nat) (s a : LockedTables) : Prop :=
  s.shared.Sound cap ∧ a.lock.cache.id = s.lock.cache.id ∧
    a = { s with lock := { s.lock with cache := a.lock.cache } }

variable {cap : Nat} {s : LockedTables} {c : BlockCache}

theorem sound_start {lock : SharedCache} (h : withCacheCapacity cap = .ok lock) :
    (start lock).shared.Sound cap ∧ lock.poisoned = false ∧ lock.cache.id = 0 := by
  simp only [withCacheCapacity, bind_eq_ok_iff, pure_eq_ok, Except.ok.injEq] at h
  obtain ⟨c, hc, rfl⟩ := h
  exact ⟨SharedTables.sound_start hc, rfl, (Cache.models_new hc).2.2⟩

theorem beside_start {cap' : Nat} {lock lock' : SharedCache}
    (h : withCacheCapacity cap = .ok lock) (h' : withCacheCapacity cap' = .ok lock') :
    Beside cap (start lock) (start lock') := by
  obtain ⟨hsound, hfree, hid⟩ := sound_start h
  obtain ⟨-, hfree', hid'⟩ := sound_start h'
  refine ⟨hsound, hid'.trans hid.symm, ?_⟩
  simp only [start, hfree, ← hfree']

/-! ## One step -/

/-- A call goes on or ends. -/
theorem sound_set (h : s.shared.Sound cap) {k : Nat} {q : Option (BlockReads Outcome)}
    (hq : ∀ p, q = some p → ∃ t ∈ s.tables, p.All (Asked t) (SharedTables.Belongs t)) :
    ({ s with calls := s.calls.set k q } : LockedTables).shared.Sound cap := by
  apply SharedTables.Sound.call h h.serves
  intro p hp
  rcases List.mem_or_eq_of_mem_set hp with hold | hnew
  · exact Or.inl hold
  · exact Or.inr (hq p hnew.symm)

/-- Opening a table shows the same next to another cache. -/
theorem step_openTable (h : s.shared.Sound cap) (hid : c.id = s.lock.cache.id) {opt : Options}
    {file : RandomAccess} {size : Nat} (hfile : Unambiguous opt file size) :
    (s.step cachedRead (.openTable opt file size)).1 =
      (({ s with lock := { s.lock with cache := c } } : LockedTables).step plainRead
        (.openTable opt file size)).1 ∧
    Beside cap (s.step cachedRead (.openTable opt file size)).2
      (({ s with lock := { s.lock with cache := c } } : LockedTables).step plainRead
        (.openTable opt file size)).2 := by
  unfold step Table.newLocked
  dsimp only
  rcases hprepare : Table.prepare opt file size with e | e | parts
  · exact ⟨rfl, h, hid, rfl⟩
  · exact ⟨rfl, h, hid, rfl⟩
  · obtain ⟨hcacheId, hindex⟩ := Table.prepare_parts hprepare (s.lock.cache.id + 1)
    dsimp only
    cases hpoisoned : s.lock.poisoned with
    | true =>
        rw [SharedCache.write_of_poisoned hpoisoned, SharedCache.write_of_poisoned rfl]
        exact ⟨rfl, h, hid, rfl⟩
    | false =>
        by_cases hlimit : s.lock.cache.id + 1 < wordLimit
        · rw [SharedCache.write_of_ok hpoisoned (Table.issue_of_lt parts hlimit),
            SharedCache.write_of_ok rfl (Table.issue_of_lt parts (hid ▸ hlimit))]
          dsimp only
          rw [hid]
          exact ⟨rfl, SharedTables.Sound.openTable h hcacheId hlimit (hindex hfile), rfl, rfl⟩
        · rw [SharedCache.write_of_error hpoisoned (Table.issue_of_le parts (not_lt.mp hlimit)),
            SharedCache.write_of_error rfl (Table.issue_of_le parts (hid ▸ not_lt.mp hlimit))]
          exact ⟨rfl, h, hid, rfl⟩

/-- A call reads the next block, returns or panics, and shows the same next to another cache. -/
theorem step_work (h : s.shared.Sound cap) (hid : c.id = s.lock.cache.id) (k : Nat) :
    (s.step cachedRead (.work k)).1 =
      (({ s with lock := { s.lock with cache := c } } : LockedTables).step plainRead (.work k)).1 ∧
    Beside cap (s.step cachedRead (.work k)).2
      (({ s with lock := { s.lock with cache := c } } : LockedTables).step plainRead (.work k)).2 := by
  have hended : ({ s with calls := s.calls.set k none } : LockedTables).shared.Sound cap :=
    sound_set h (by simp)
  unfold step
  dsimp only
  rcases hk : s.calls[k]? with _ | _ | out | e | ⟨i, next⟩
  · exact ⟨rfl, h, hid, rfl⟩
  · exact ⟨rfl, h, hid, rfl⟩
  · cases out with
    | found r => exact ⟨rfl, hended, hid, rfl⟩
    | moved j moved it =>
        obtain ⟨t, ht, hall⟩ := h.calls _ (List.mem_of_getElem? hk)
        dsimp only [finish]
        cases it.current with
        | error e => exact ⟨rfl, hended, hid, rfl⟩
        | ok entry =>
            refine ⟨rfl, SharedTables.Sound.iterate hended ?_, hid, rfl⟩
            intro it' hit'
            rcases List.mem_or_eq_of_mem_set hit' with hold | hnew
            · exact Or.inl hold
            · obtain rfl := Option.some.inj hnew
              exact Or.inr ⟨t, ht, hall⟩
  · exact ⟨rfl, hended, hid, rfl⟩
  · obtain ⟨t, ht, ⟨htable, hlists⟩, hnext⟩ := h.calls _ (List.mem_of_getElem? hk)
    obtain ⟨t', hd⟩ := i
    obtain rfl : t' = t := htable
    dsimp only
    cases hpoisoned : s.lock.poisoned with
    | true =>
        rw [SharedCache.write_of_poisoned hpoisoned, SharedCache.write_of_poisoned rfl]
        refine ⟨rfl, sound_set h ?_, hid, rfl⟩
        rintro p hp
        obtain rfl := Option.some.inj hp
        exact ⟨t', ht, hnext _⟩
    | false =>
        have hanswer := h.serves.readBlock h.distinct ht hlists
        cases hread : storedRead (t', hd) with
        | error e =>
            rw [hread] at hanswer
            have hcached : cachedRead (t', hd) s.lock.cache = .error e := hanswer
            have hplain : plainRead (t', hd) c = .error e := by simp [plainRead, hread]
            rw [SharedCache.write_of_error hpoisoned hcached,
              SharedCache.write_of_error rfl hplain]
            exact ⟨rfl, hended, hid, rfl⟩
        | ok r =>
            rw [hread] at hanswer
            obtain ⟨c', hcached, hserves, hid'⟩ := hanswer
            have hcached : cachedRead (t', hd) s.lock.cache = .ok (r, c') := hcached
            have hplain : plainRead (t', hd) c = .ok (r, c) := by simp [plainRead, hread]
            rw [SharedCache.write_of_ok hpoisoned hcached, SharedCache.write_of_ok rfl hplain]
            refine ⟨rfl, SharedTables.Sound.call h hserves ?_, hid.trans hid'.symm, rfl⟩
            intro p hp
            rcases List.mem_or_eq_of_mem_set hp with hold | hnew
            · exact Or.inl hold
            · obtain rfl := Option.some.inj hnew
              exact Or.inr ⟨t', ht, hnext r⟩

/-- Every step shows the same next to another cache. -/
theorem step_mirrors (h : s.shared.Sound cap) (hid : c.id = s.lock.cache.id) (op : SharedOp)
    (hop : ∀ opt file size, op = .openTable opt file size → Unambiguous opt file size) :
    (s.step cachedRead op).1 =
      (({ s with lock := { s.lock with cache := c } } : LockedTables).step plainRead op).1 ∧
    Beside cap (s.step cachedRead op).2
      (({ s with lock := { s.lock with cache := c } } : LockedTables).step plainRead op).2 := by
  have hbegin : ∀ {p : BlockReads Outcome} {t : Table}, t ∈ s.tables →
      p.All (Asked t) (SharedTables.Belongs t) →
      ({ s with calls := s.calls ++ [some p] } : LockedTables).shared.Sound cap := by
    intro p t ht hall
    refine SharedTables.Sound.call h h.serves fun p' hp' => ?_
    rcases List.mem_append.mp hp' with hold | hnew
    · exact Or.inl hold
    · obtain rfl := Option.some.inj (List.mem_singleton.mp hnew)
      exact Or.inr ⟨t, ht, hall⟩
  cases op with
  | openTable opt file size => exact step_openTable h hid (hop opt file size rfl)
  | cloneTable i =>
      unfold step
      dsimp only
      cases hi : s.tables[i]? with
      | none => exact ⟨rfl, h, hid, rfl⟩
      | some t => exact ⟨rfl, SharedTables.Sound.cloneTable h (List.mem_of_getElem? hi), hid, rfl⟩
  | iterate i =>
      unfold step
      dsimp only
      cases hi : s.tables[i]? with
      | none => exact ⟨rfl, h, hid, rfl⟩
      | some t =>
          dsimp only
          cases hiter : t.iter with
          | error e => exact ⟨rfl, h, hid, rfl⟩
          | ok it =>
              refine ⟨rfl, SharedTables.Sound.iterate h ?_, hid, rfl⟩
              intro it' hit'
              rcases List.mem_append.mp hit' with hold | hnew
              · exact Or.inl hold
              · obtain rfl := Option.some.inj (List.mem_singleton.mp hnew)
                exact Or.inr ⟨t, List.mem_of_getElem? hi, TableIterator.belongs_iter hiter⟩
  | get i key =>
      unfold step
      dsimp only
      cases hi : s.tables[i]? with
      | none => exact ⟨rfl, h, hid, rfl⟩
      | some t =>
          have hall : (do
              let r ← t.getReads key
              pure (.found r) : BlockReads Outcome).All (Asked t) (SharedTables.Belongs t) :=
            (t.getReads_all key).bind fun _ _ => trivial
          exact ⟨rfl, hbegin (List.mem_of_getElem? hi) hall, hid, rfl⟩
  | move j op =>
      unfold step
      dsimp only
      rcases hj : s.iters[j]? with _ | _ | it
      · exact ⟨rfl, h, hid, rfl⟩
      · exact ⟨rfl, h, hid, rfl⟩
      · obtain ⟨t, ht, hbelongs⟩ := h.iters it (List.mem_of_getElem? hj)
        have hall : (do
            let (moved, it) ← op.reads it
            pure (.moved j moved it) : BlockReads Outcome).All (Asked t)
              (SharedTables.Belongs t) :=
          (op.reads_all hbelongs).bind fun _ hr => hr
        refine ⟨rfl, SharedTables.Sound.iterate (hbegin ht hall) ?_, hid, rfl⟩
        intro it' hit'
        rcases List.mem_or_eq_of_mem_set hit' with hold | hnew
        · exact Or.inl hold
        · cases hnew
  | work k => exact step_work h hid k

/-- A step poisons the lock exactly if the section it runs panics. -/
theorem step_poisoned_iff (h : s.shared.Sound cap) (op : SharedOp) :
    (s.step cachedRead op).2.lock.poisoned = true ↔
      s.lock.poisoned = true ∨ s.Poisons op := by
  unfold step Poisons
  cases op with
  | openTable opt file size =>
      dsimp only [Table.newLocked]
      rcases Table.prepare opt file size with e | e | parts
      · simp
      · simp
      · dsimp only
        cases hpoisoned : s.lock.poisoned with
        | true =>
            rw [SharedCache.write_of_poisoned hpoisoned]
            simp
        | false =>
            by_cases hlimit : s.lock.cache.id + 1 < wordLimit
            · rw [SharedCache.write_of_ok hpoisoned (Table.issue_of_lt parts hlimit)]
              simp [hlimit]
            · have hle := not_lt.mp hlimit
              rw [SharedCache.write_of_error hpoisoned (Table.issue_of_le parts hle)]
              simp [hle]
  | cloneTable i =>
      dsimp only
      cases s.tables[i]? <;> simp
  | iterate i =>
      dsimp only
      cases s.tables[i]? with
      | none => simp
      | some t =>
          dsimp only
          cases t.iter <;> simp
  | get i key =>
      dsimp only
      cases s.tables[i]? <;> simp
  | move j op =>
      dsimp only
      rcases s.iters[j]? with _ | _ | it <;> simp
  | work k =>
      dsimp only
      rcases hk : s.calls[k]? with _ | _ | out | e | ⟨i, next⟩
      · simp
      · simp
      · cases out with
        | found r => simp [finish]
        | moved j moved it =>
            dsimp only [finish]
            cases it.current <;> simp
      · simp
      · obtain ⟨t, ht, ⟨htable, hlists⟩, -⟩ := h.calls _ (List.mem_of_getElem? hk)
        obtain ⟨t', hd⟩ := i
        obtain rfl : t' = t := htable
        dsimp only
        cases hpoisoned : s.lock.poisoned with
        | true =>
            rw [SharedCache.write_of_poisoned hpoisoned]
            simp
        | false =>
            have hanswer := h.serves.readBlock h.distinct ht hlists
            cases hread : storedRead (t', hd) with
            | error e =>
                rw [hread] at hanswer
                have hcached : cachedRead (t', hd) s.lock.cache = .error e := hanswer
                rw [SharedCache.write_of_error hpoisoned hcached]
                simp [hread]
            | ok r =>
                rw [hread] at hanswer
                obtain ⟨c', hcached, -, -⟩ := hanswer
                have hcached : cachedRead (t', hd) s.lock.cache = .ok (r, c') := hcached
                rw [SharedCache.write_of_ok hpoisoned hcached]
                simp [hread]

/-- What is reached from a new lock. -/
def reached (lock : SharedCache) (ops : List SharedOp) : LockedTables :=
  (traceOps (step cachedRead) (start lock) ops).2

theorem reached_append (lock : SharedCache) (ops : List SharedOp) (op : SharedOp) :
    reached lock (ops ++ [op]) = ((reached lock ops).step cachedRead op).2 := by
  simp only [reached, traceOps_append, traceOps]

/-- Whoever panics, the tables stay sound. -/
theorem sound_reached {lock : SharedCache} (h : withCacheCapacity cap = .ok lock)
    (ops : List SharedOp)
    (hfiles : ∀ opt file size, .openTable opt file size ∈ ops → Unambiguous opt file size) :
    (reached lock ops).shared.Sound cap := by
  refine (traceOps_keeps (fun s : LockedTables => s.shared.Sound cap) (fun _ => True) ?_
    (sound_start h).1).2
  intro s op hop hs
  exact ⟨trivial, (step_mirrors hs rfl op fun opt file size heq =>
    hfiles opt file size (heq ▸ hop)).2.1⟩

end LockedTables

end

open LockedTables

/-- Whichever calls panic, and when, every call shows what it shows without a cache, and the lock is
poisoned by those whose section panics when it is run alone. -/
theorem panics_transparent [Crates] {cap cap' : Nat} {lock lock' : SharedCache}
    (h : withCacheCapacity cap = .ok lock) (h' : withCacheCapacity cap' = .ok lock')
    (ops : List SharedOp)
    (hfiles : ∀ opt file size, .openTable opt file size ∈ ops → Unambiguous opt file size) :
    (traceOps (step cachedRead) (start lock) ops).1 =
      (traceOps (step plainRead) (start lock') ops).1 ∧
    ∀ before op after, ops = before ++ op :: after →
      ((reached lock (before ++ [op])).lock.poisoned = true ↔
        (reached lock before).lock.poisoned = true ∨
          (traceOps (step plainRead) (start lock') before).2.Poisons op) := by
  have hmirrors : ∀ ops' : List SharedOp, (∀ op ∈ ops', op ∈ ops) →
      (traceOps (step cachedRead) (start lock) ops').1 =
        (traceOps (step plainRead) (start lock') ops').1 ∧
      Beside cap (reached lock ops') (traceOps (step plainRead) (start lock') ops').2 := by
    intro ops' hsub
    refine traceOps_mirrors (fun s a op hop hsa => ?_) (beside_start h h')
    obtain ⟨hs, hid, heq⟩ := hsa
    rw [heq]
    exact step_mirrors hs hid op fun opt file size heq =>
      hfiles opt file size (heq ▸ hsub op hop)
  refine ⟨(hmirrors ops fun _ hop => hop).1, ?_⟩
  rintro before op after rfl
  obtain ⟨hs, hid, heq⟩ := (hmirrors before fun _ hop => List.mem_append_left _ hop).2
  rw [reached_append, step_poisoned_iff hs, heq]
  have hsame : ({ reached lock before with
      lock := { (reached lock before).lock with
        cache := (traceOps (step plainRead) (start lock') before).2.lock.cache } } :
      LockedTables).Poisons op ↔ (reached lock before).Poisons op := by
    cases op with
    | openTable opt file size =>
        dsimp only [Poisons]
        rw [hid]
    | cloneTable i => exact Iff.rfl
    | iterate i => exact Iff.rfl
    | get i key => exact Iff.rfl
    | move j op => exact Iff.rfl
    | work k => exact Iff.rfl
  rw [hsame]

/-- The second data block of a table is too short to be one. -/
def shortBlockImage : Bytes :=
  letI := referenceCrates
  envelope .CompressionNone ([0, 1, 1, 97, 1] ++ ([0, 0, 0, 0] ++ [1, 0, 0, 0])) ++
    (envelope .CompressionNone [1] ++
      (envelope .CompressionNone
          [0, 1, 2, 98, 0, 13, 0, 1, 2, 100, 18, 1, 0, 0, 0, 0, 1, 0, 0, 0] ++
        (envelope .CompressionNone [0, 0, 0, 0, 1, 0, 0, 0] ++
          ({ metaIndex := ⟨49, 8⟩, index := ⟨24, 20⟩ } : Footer).bytes)))

/-- The entries of its index. -/
def shortBlockIndex : List Entry := [([98], [0, 13]), ([100], [18, 1])]

set_option maxRecDepth 20000 in
theorem shortBlockImage_unambiguous : letI := referenceCrates
    Unambiguous .default (BufferBackedFile shortBlockImage) 110 := by
  let := referenceCrates
  intro footer index hfooter hindex
  have hread : readFooter (BufferBackedFile shortBlockImage) 110 =
      .ok (.ok { metaIndex := ⟨49, 8⟩, index := ⟨24, 20⟩ }) := rfl
  obtain rfl := Except.ok.inj (Except.ok.inj (hread.symm.trans hfooter))
  have hcontents : (layoutOf .default shortBlockIndex).contents =
      [0, 1, 2, 98, 0, 13, 0, 1, 2, 100, 18, 1, 0, 0, 0, 0, 1, 0, 0, 0] := by
    rw [layoutOf_contents]
    decide
  have hread : readTableBlock .default (BufferBackedFile shortBlockImage) ⟨24, 20⟩ =
      .ok (.ok ⟨[0, 1, 2, 98, 0, 13, 0, 1, 2, 100, 18, 1, 0, 0, 0, 0, 1, 0, 0, 0],
        .default⟩) := rfl
  obtain rfl := Except.ok.inj (Except.ok.inj (hread.symm.trans hindex))
  have hentries := layoutOf_entries .default shortBlockIndex
  have hord : (layoutOf .default shortBlockIndex).Ordered :=
    BlockLayout.ordered_of_entries (by rw [hentries]; decide) (by rw [hentries]; decide)
  have hsmall : (layoutOf .default shortBlockIndex).Small := by
    rw [BlockLayout.Small, hcontents]
    decide
  have hhandles : ∀ h, (∃ s ∈ (layoutOf .default shortBlockIndex).slots, ∃ n,
      BlockHandle.decode s.val = .ok (h, n)) → h = ⟨0, 13⟩ ∨ h = ⟨18, 1⟩ := by
    rintro h ⟨s, hs, n, hdecode⟩
    have hmem : s.entry ∈ shortBlockIndex := hentries ▸ List.mem_map_of_mem hs
    simp only [shortBlockIndex, Slot.entry, List.mem_cons, Prod.mk.injEq, List.not_mem_nil,
      or_false] at hmem
    rcases hmem with ⟨-, hval⟩ | ⟨-, hval⟩
    · rw [hval] at hdecode
      exact Or.inl (congrArg Prod.fst (Except.ok.inj hdecode)).symm
    · rw [hval] at hdecode
      exact Or.inr (congrArg Prod.fst (Except.ok.inj hdecode)).symm
  intro h h' hh hh' hoff
  have hfirst := hhandles h (hord.lists hsmall rfl hcontents.symm hh)
  have hsecond := hhandles h' (hord.lists hsmall rfl hcontents.symm hh')
  rcases hfirst with rfl | rfl
  · rcases hsecond with rfl | rfl
    · rfl
    · cases hoff
  · rcases hsecond with rfl | rfl
    · cases hoff
    · rfl

/-- A lookup that has read its block, and one that panics. -/
def shortBlockOps : List SharedOp :=
  [.openTable .default (BufferBackedFile shortBlockImage) 110, .get 0 [97], .work 0, .get 0 [99],
    .work 1]

/-- What comes after the panic. -/
def refusedOps : List SharedOp :=
  [.get 0 [97], .work 2, .work 2, .openTable .default (BufferBackedFile shortBlockImage) 110]

theorem shortBlockOps_files : letI := referenceCrates
    ∀ opt file size, .openTable opt file size ∈ shortBlockOps ++ refusedOps →
      Unambiguous opt file size := by
  let := referenceCrates
  intro opt file size hmem
  simp only [shortBlockOps, refusedOps, List.cons_append, List.nil_append, List.mem_cons,
    SharedOp.openTable.injEq, reduceCtorEq, List.not_mem_nil, or_false, false_or] at hmem
  rcases hmem with ⟨rfl, rfl, rfl⟩ | ⟨rfl, rfl, rfl⟩
  · exact shortBlockImage_unambiguous
  · exact shortBlockImage_unambiguous

set_option maxRecDepth 20000 in
/-- The second lookup panics; what comes after it is refused. -/
theorem panics_transparent_short_block : letI := referenceCrates
    (traceOps (step cachedRead) (start (share smallCache)) (shortBlockOps ++ refusedOps)).1 =
        [.ok (.opened none), .ok .nothing, .ok .nothing, .ok .nothing, .error .assertion,
          .ok .nothing, .ok .nothing, .ok (.found (.error Status.ofPoisonError)),
          .ok (.opened (some Status.ofPoisonError))] ∧
      (traceOps (step cachedRead) (start (share smallCache)) (shortBlockOps ++ refusedOps)).1 =
        (traceOps (step plainRead) (start (share { smallCache with cap := 1 }))
          (shortBlockOps ++ refusedOps)).1 := by
  let := referenceCrates
  have hfour : withCacheCapacity 4 = .ok (share smallCache) := rfl
  have hsingle : withCacheCapacity 1 = .ok (share { smallCache with cap := 1 }) := rfl
  exact ⟨rfl, (panics_transparent hfour hsingle (shortBlockOps ++ refusedOps)
    shortBlockOps_files).1⟩

end SSTable
