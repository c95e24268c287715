import SSTable.Model.Display
import SSTable.Model.TableReader

/-!
# The lock around the block cache

The tables opened with the same options reach their block cache through a lock.  A call that
panics while it holds the lock leaves it poisoned, and a poisoned lock is refused to every later
call.  Every function returns the lock it leaves behind also when it panics, because the other
users of the lock go on.
-/

namespace SSTable

open Foundation Foundation.Exec Foundation.Bytes

/-- A block cache behind a lock. -/
structure SharedCache where
  cache : BlockCache
  poisoned : Bool

/-- Put a cache behind a new lock. -/
def share (c : BlockCache) : SharedCache where
  cache := c
  poisoned := false

/-- The cache of options that set its capacity. -/
def withCacheCapacity (capacity : Nat) : Exec SharedCache := do
  let c ← Cache.new capacity
  pure (share c)

/-- Run a section that holds the lock for writing.  What a panicking section leaves of the cache
cannot be seen any more. -/
def SharedCache.write {α : Type} (s : SharedCache)
    (f : BlockCache → Exec (Result α × BlockCache)) : Exec (Result α) × SharedCache :=
  if s.poisoned then
    (.ok (.error Status.ofPoisonError), s)
  else
    match f s.cache with
    | .ok (r, c) => (.ok r, { s with cache := c })
    | .error e => (.error e, { s with poisoned := true })

namespace Table

variable [Crates]

/-- Open a table up to the point where it takes the lock: what is left is to give it an id. -/
def prepare (opt : Options) (file : RandomAccess) (size : Nat) :
    Exec (Result (CacheID → Table)) := do
  match ← readFooter file size with
  | .error e => pure (.error e)
  | .ok footer => do
      match ← readTableBlock opt file footer.index with
      | .error e => pure (.error e)
      | .ok indexBlock => do
          match ← readTableBlock opt file footer.metaIndex with
          | .error e => pure (.error e)
          | .ok metaindexBlock => do
              match ← readFilterBlock metaindexBlock file opt with
              | .error e => pure (.error e)
              | .ok filterBlockReader =>
                  pure (.ok fun cacheId =>
                    { file := file
                      cacheId := cacheId
                      opt := opt
                      footer := footer
                      indexBlock := indexBlock
                      filters := filterBlockReader })

/-- Give a table that is opened the next id. -/
def issue (parts : CacheID → Table) (c : BlockCache) : Exec (Result Table × BlockCache) := do
  let (cacheId, c) ← c.newCacheId
  pure (.ok (parts cacheId), c)

/-- Open a table; only its id is taken under the lock. -/
def newLocked (opt : Options) (file : RandomAccess) (size : Nat) (s : SharedCache) :
    Exec (Result Table) × SharedCache :=
  match prepare opt file size with
  | .error e => (.error e, s)
  | .ok (.error e) => (.ok (.error e), s)
  | .ok (.ok parts) => s.write (issue parts)

/-- Without the lock, opening a table does the same in one go. -/
theorem new_eq_prepare (opt : Options) (file : RandomAccess) (size : Nat) (c : BlockCache) :
    Table.new opt file size c = prepare opt file size >>= fun r =>
      match r with
      | .error e => pure (.error e, c)
      | .ok parts => issue parts c := by
  unfold Table.new prepare
  rcases readFooter file size with e | e | footer
  · rfl
  · rfl
  · simp only [ok_bind]
    rcases readTableBlock opt file footer.index with e | e | index
    · rfl
    · rfl
    · simp only [ok_bind]
      rcases readTableBlock opt file footer.metaIndex with e | e | metaindex
      · rfl
      · rfl
      · simp only [ok_bind]
        rcases readFilterBlock metaindex file opt with e | e | filters
        · rfl
        · rfl
        · rfl

end Table

end SSTable
