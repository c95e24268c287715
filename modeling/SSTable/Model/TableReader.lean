import SSTable.Model.Cache
import SSTable.Model.TableBuilder

/-!
# Reading tables

An opened table keeps its footer, its index block and, where there is one, its filter
block.  Data blocks are read on demand through the block cache, which every function that
needs it takes and returns.
-/

namespace SSTable

open Foundation Foundation.Exec Foundation.Bytes

variable [Crates]

/-- The cache of blocks shared by the tables opened with it. -/
abbrev BlockCache := Cache Block

/-- Read the footer of a file of the given size. -/
def readFooter (f : RandomAccess) (size : Nat) : Exec (Result Footer) := do
  let buf := List.replicate fullFooterLength 0
  let off ← wordSub size fullFooterLength
  match f.readAt off buf with
  | .error e => pure (.error e)
  | .ok (_, buf) => do
      let footer ← Footer.decode buf
      pure (.ok footer)

/-- An opened table. -/
structure Table where
  file : RandomAccess
  cacheId : CacheID
  opt : Options
  footer : Footer
  indexBlock : Block
  filters : Option FilterBlockReader

namespace Table

/-- Look up the filter block of the policy in the metaindex and open it. -/
def readFilterBlock (metaix : Block) (file : RandomAccess) (options : Options) :
    Exec (Result (Option FilterBlockReader)) := do
  let filterName := TableBuilder.filterKey options.filterPolicy.name
  let metaindexiter ← metaix.iter
  let metaindexiter ← metaindexiter.seek filterName
  match ← metaindexiter.current with
  | some (_, val) => do
      let (filterBlockLocation, _) ← BlockHandle.decode val
      if filterBlockLocation.size > 0 then
        match ← SSTable.readFilterBlock file filterBlockLocation options.filterPolicy with
        | .error e => pure (.error e)
        | .ok reader => pure (.ok (some reader))
      else
        pure (.ok none)
  | none => pure (.ok none)

/-- Open a table in a file of the given size. -/
def new (opt : Options) (file : RandomAccess) (size : Nat) (blockCache : BlockCache) :
    Exec (Result Table × BlockCache) := do
  match ← readFooter file size with
  | .error e => pure (.error e, blockCache)
  | .ok footer => do
      match ← readTableBlock opt file footer.index with
      | .error e => pure (.error e, blockCache)
      | .ok indexBlock => do
          match ← readTableBlock opt file footer.metaIndex with
          | .error e => pure (.error e, blockCache)
          | .ok metaindexBlock => do
              match ← readFilterBlock metaindexBlock file opt with
              | .error e => pure (.error e, blockCache)
              | .ok filterBlockReader => do
                  let (cacheId, blockCache) ← blockCache.newCacheId
                  pure (.ok
                    { file := file
                      cacheId := cacheId
                      opt := opt
                      footer := footer
                      indexBlock := indexBlock
                      filters := filterBlockReader }, blockCache)

/-- The cache key of the block at an offset. -/
def blockCacheHandle (t : Table) (blockOff : Nat) : CacheKey :=
  leBytes 8 t.cacheId ++ leBytes 8 blockOff

/-- Read a block through the block cache. -/
def readBlock (t : Table) (location : BlockHandle) (blockCache : BlockCache) :
    Exec (Result Block × BlockCache) := do
  let cachekey := t.blockCacheHandle location.offset
  let (cached, blockCache) ← blockCache.get cachekey
  match cached with
  | some block => pure (.ok block, blockCache)
  | none =>
      match ← readTableBlock t.opt t.file location with
      | .error e => pure (.error e, blockCache)
      | .ok b => do
          let blockCache ← blockCache.insert cachekey b
          pure (.ok b, blockCache)

/-- The offset of the block that would contain the key. -/
def approxOffsetOf (t : Table) (key : Bytes) : Exec Nat := do
  let iter ← t.indexBlock.iter
  let iter ← iter.seek key
  match ← iter.current with
  | some (_, val) => do
      let (location, _) ← BlockHandle.decode val
      pure location.offset
  | none => pure t.footer.metaIndex.offset

/-- The handle of the only data block that may hold the key: the one whose index entry is
found and lies strictly above the key. -/
def findBlock (t : Table) (key : Bytes) : Exec (Option BlockHandle) := do
  let indexIter ← t.indexBlock.iter
  let indexIter ← indexIter.seek key
  match ← indexIter.current with
  | some (lastInBlock, h) =>
      if t.opt.cmp.cmp key lastInBlock = .lt then do
        let (handle, _) ← BlockHandle.decode h
        pure (some handle)
      else
        pure none
  | none => pure none

/-- Ask the filters, if there are any, whether a block may hold the key. -/
def filterAdmits (t : Table) (handle : BlockHandle) (key : Bytes) : Exec Bool :=
  match t.filters with
  | some filters => filters.keyMayMatch handle.offset key
  | none => pure true

/-- Look a key up in a data block. -/
def searchBlock (t : Table) (tb : Block) (key : Bytes) : Exec (Option Bytes) := do
  let iter ← tb.iter
  let iter ← iter.seek key
  match ← iter.current with
  | some (k, v) => if t.opt.cmp.cmp k key = .eq then pure (some v) else pure none
  | none => pure none

/-- Look a key up in the table. -/
def get (t : Table) (key : Bytes) (blockCache : BlockCache) :
    Exec (Result (Option Bytes) × BlockCache) := do
  match ← t.findBlock key with
  | none => pure (.ok none, blockCache)
  | some handle => do
      if ← t.filterAdmits handle key then
        match ← t.readBlock handle blockCache with
        | (.error e, blockCache) => pure (.error e, blockCache)
        | (.ok tb, blockCache) => do
            let found ← t.searchBlock tb key
            pure (.ok found, blockCache)
      else
        pure (.ok none, blockCache)

end Table

/-- An iterator over a table: an iterator over the index block, and one over the data block
the index iterator is on. -/
structure TableIterator where
  table : Table
  currentBlock : Option BlockIter
  currentBlockOff : Nat
  indexBlock : BlockIter

namespace Table

/-- An iterator before the first entry. -/
def iter (t : Table) : Exec TableIterator := do
  let indexBlock ← t.indexBlock.iter
  pure { table := t, currentBlock := none, currentBlockOff := 0, indexBlock := indexBlock }

end Table

namespace TableIterator

/-- Load the block at an encoded handle as the current block. -/
def loadBlock (it : TableIterator) (handle : Bytes) (blockCache : BlockCache) :
    Exec (Result Unit × TableIterator × BlockCache) := do
  let (newBlockHandle, _) ← BlockHandle.decode handle
  match ← it.table.readBlock newBlockHandle blockCache with
  | (.error e, blockCache) => pure (.error e, it, blockCache)
  | (.ok block, blockCache) => do
      let blockIter ← block.iter
      pure (.ok (),
        { it with currentBlock := some blockIter, currentBlockOff := newBlockHandle.offset },
        blockCache)

/-- Load the block of the next index entry; the result says whether there was one. -/
def skipToNextEntry (it : TableIterator) (blockCache : BlockCache) :
    Exec (Result Bool × TableIterator × BlockCache) := do
  let (entry, indexBlock) ← it.indexBlock.next
  let it := { it with indexBlock := indexBlock }
  match entry with
  | some (_, val) => do
      let (loaded, it, blockCache) ← it.loadBlock val blockCache
      pure (loaded.map fun _ => true, it, blockCache)
  | none => pure (.ok false, it, blockCache)

/-- Forget the position. -/
def reset (it : TableIterator) : TableIterator :=
  { it with indexBlock := it.indexBlock.reset, currentBlock := none }

/-- Whether the iterator is on an entry. -/
def valid (it : TableIterator) : Bool :=
  match it.currentBlock with
  | some cb => cb.valid
  | none => false

/-- The current entry. -/
def current (it : TableIterator) : Exec (Option Entry) :=
  match it.currentBlock with
  | some cb => cb.current
  | none => pure none

/-- The key of the current entry. -/
def currentKey (it : TableIterator) : Option Bytes :=
  it.currentBlock.bind BlockIter.currentKey

/-- Load the next block and go on with it; a block that cannot be read is passed over. -/
def nextBlock (it : TableIterator) (blockCache : BlockCache) :
    Exec (LoopStep (TableIterator × BlockCache) (Bool × TableIterator × BlockCache)) := do
  match ← it.skipToNextEntry blockCache with
  | (.ok true, it, blockCache) => pure (.next (it, blockCache))
  | (.ok false, it, blockCache) => pure (.done (false, it.reset, blockCache))
  | (.error _, it, blockCache) => pure (.next (it, blockCache))

/-- One call of the recursion in {lit}`advance`. -/
def advanceStep (it : TableIterator) (blockCache : BlockCache) :
    Exec (LoopStep (TableIterator × BlockCache) (Bool × TableIterator × BlockCache)) :=
  match it.currentBlock with
  | none => it.nextBlock blockCache
  | some cb => do
      let (more, cb) ← cb.advance
      if more then
        pure (.done (true, { it with currentBlock := some cb }, blockCache))
      else
        -- The current block is exhausted.
        let it := { it with currentBlock := none }
        it.nextBlock blockCache

/-- Move to the next entry, loading blocks as needed.  The source calls itself after every
block it loads or passes over; each of these calls consumes an index entry. -/
def advance (it : TableIterator) (blockCache : BlockCache) :
    Exec (Bool × TableIterator × BlockCache) :=
  loop (fun (it, blockCache) => it.advanceStep blockCache)
    (it.indexBlock.block.length + 2) (it, blockCache)

/-- Move to the first entry whose key is not below the target. -/
def seek (it : TableIterator) (target : Bytes) (blockCache : BlockCache) :
    Exec (TableIterator × BlockCache) := do
  let indexBlock ← it.indexBlock.seek target
  let it := { it with indexBlock := indexBlock }
  match ← it.indexBlock.current with
  | some (pastBlock, handle) =>
      if it.table.opt.cmp.cmp target pastBlock = .gt then
        pure (it.reset, blockCache)
      else
        match ← it.loadBlock handle blockCache with
        | (.ok (), it, blockCache) => do
            let cb ← unwrap it.currentBlock
            let cb ← cb.seek target
            pure ({ it with currentBlock := some cb }, blockCache)
        | (.error _, it, blockCache) => pure (it.reset, blockCache)
  | none => pure (it.reset, blockCache)

/-- Go back one block and to its last entry. -/
def prevBlock (it : TableIterator) (blockCache : BlockCache) :
    Exec (Bool × TableIterator × BlockCache) := do
  let (moved, indexBlock) ← it.indexBlock.prev
  let it := { it with indexBlock := indexBlock }
  if moved then
    match ← it.indexBlock.current with
    | some (_, handle) =>
        match ← it.loadBlock handle blockCache with
        | (.ok (), it, blockCache) => do
            let cb ← unwrap it.currentBlock
            let cb ← cb.seekToLast
            pure (cb.valid, { it with currentBlock := some cb }, blockCache)
        | (.error _, it, blockCache) => pure (false, it.reset, blockCache)
    | none => pure (false, it, blockCache)
  else
    pure (false, it, blockCache)

/-- Move to the previous entry. -/
def prev (it : TableIterator) (blockCache : BlockCache) :
    Exec (Bool × TableIterator × BlockCache) :=
  match it.currentBlock with
  | some cb => do
      let (moved, cb) ← cb.prev
      let it := { it with currentBlock := some cb }
      if moved then
        pure (true, it, blockCache)
      else
        it.prevBlock blockCache
  | none => it.prevBlock blockCache

end TableIterator

end SSTable
