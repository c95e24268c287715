import SSTable.Model.Options

/-!
# Reading blocks

A block iterator decodes one entry at a time.  It keeps the key of the current entry,
because the next entry may store only the part that differs from it, and it jumps to a
restart whenever it cannot go on from where it is.
-/

namespace SSTable

open Foundation Foundation.Exec Foundation.Bytes

variable [Crates]

/-- The contents of a block with the options it was opened with. -/
structure Block where
  block : Bytes
  opt : Options

/-- The state of an iterator over a block. -/
structure BlockIter where
  block : Bytes
  opt : Options
  /-- Offset of the restarts area. -/
  restartsOff : Nat
  /-- Start of the next entry to be parsed. -/
  offset : Nat
  currentEntryOffset : Nat
  /-- Index of the most recent restart. -/
  currentRestartIx : Nat
  key : Bytes
  /-- Offset of the current value. -/
  valOffset : Nat

/-- The word that ends a block: its number of restarts. -/
def restartCount (block : Bytes) : Exec Nat := do
  let start ← wordSub block.length 4
  let word ← sliceFrom block start
  pure (decodeFixed32 word)

namespace Block

/-- Open a block. -/
def new (opt : Options) (contents : Bytes) : Exec Block := do
  ensure (contents.length > 4)
  pure { block := contents, opt := opt }

/-- An iterator before the first entry. -/
def iter (b : Block) : Exec BlockIter := do
  let restarts ← restartCount b.block
  let last ← wordSub b.block.length 4
  let restartOffset ← wordSub last (4 * restarts)
  pure
    { block := b.block
      opt := b.opt
      restartsOff := restartOffset
      offset := 0
      currentEntryOffset := 0
      currentRestartIx := 0
      key := []
      valOffset := 0 }

end Block

namespace BlockIter

/-- The number of restarts in the block. -/
def numberRestarts (it : BlockIter) : Exec Nat := restartCount it.block

/-- The offset a restart points to. -/
def getRestartPoint (it : BlockIter) (ix : Nat) : Exec Nat := do
  let restart := it.restartsOff + 4 * ix
  let word ← slice it.block restart (restart + 4)
  pure (decodeFixed32 word)

/-- An iterator that is not on an entry reports itself invalid. -/
def valid (it : BlockIter) : Bool :=
  !it.key.isEmpty && decide (it.valOffset > 0) && decide (it.valOffset ≤ it.restartsOff)

/-- Forget the position.  The offset of the last entry is kept. -/
def reset (it : BlockIter) : BlockIter :=
  { it with offset := 0, valOffset := 0, currentRestartIx := 0, key := [] }

/-- Read the lengths in front of an entry and move past the entry.  The result holds the
three lengths and the size of the entry's head. -/
def parseEntryAndAdvance (it : BlockIter) : Exec ((Nat × Nat × Nat × Nat) × BlockIter) := do
  let rest ← sliceFrom it.block it.offset
  let (shared, sharedlen) ← unwrap (decodeVar rest)
  let i := sharedlen
  let rest ← sliceFrom it.block (it.offset + i)
  let (nonShared, nonSharedlen) ← unwrap (decodeVar rest)
  let i := i + nonSharedlen
  let rest ← sliceFrom it.block (it.offset + i)
  let (valsize, valsizelen) ← unwrap (decodeVar rest)
  let i := i + valsizelen
  let valOffset ← wordAdd (it.offset + i) nonShared
  let offset ← wordAdd valOffset valsize
  pure ((shared, nonShared, valsize, i), { it with valOffset := valOffset, offset := offset })

/-- Put the current key together from the part shared with the previous one and the part
stored at {lit}`off`. -/
def assembleKey (it : BlockIter) (off shared nonShared : Nat) : Exec BlockIter := do
  let stop ← wordAdd off nonShared
  let stored ← slice it.block off stop
  pure { it with key := it.key.take shared ++ stored }

/-- Move to the entry at a restart. -/
def seekToRestartPoint (it : BlockIter) (ix : Nat) : Exec BlockIter := do
  let off ← it.getRestartPoint ix
  let it := { it with offset := off, currentEntryOffset := off, currentRestartIx := ix }
  let ((shared, nonShared, _, headLen), it) ← it.parseEntryAndAdvance
  ensure (shared = 0)
  let it ← it.assembleKey (off + headLen) shared nonShared
  ensure (it.valid = true)
  pure it

/-- Move the restart index up while the restart after it lies before the current entry. -/
def adjustRestartIx (it : BlockIter) : Exec BlockIter := do
  let numRestarts ← it.numberRestarts
  whileLoop
    (fun it =>
      if it.currentRestartIx + 1 < numRestarts then do
        let point ← it.getRestartPoint (it.currentRestartIx + 1)
        pure (decide (point < it.currentEntryOffset))
      else
        pure false)
    (fun it => pure { it with currentRestartIx := it.currentRestartIx + 1 })
    (numRestarts + 1) it

/-- Move to the next entry; past the last one the iterator is reset. -/
def advance (it : BlockIter) : Exec (Bool × BlockIter) := do
  if it.offset ≥ it.restartsOff then
    pure (false, it.reset)
  else
    let it := { it with currentEntryOffset := it.offset }
    let currentOff := it.currentEntryOffset
    let ((shared, nonShared, _, entryHeadLen), it) ← it.parseEntryAndAdvance
    let it ← it.assembleKey (currentOff + entryHeadLen) shared nonShared
    let it ← it.adjustRestartIx
    pure (true, it)

/-- The current entry. -/
def current (it : BlockIter) : Exec (Option Entry) :=
  if it.valid then do
    let val ← slice it.block it.valOffset it.offset
    pure (some (it.key, val))
  else
    pure none

/-- The key of the current entry. -/
def currentKey (it : BlockIter) : Option Bytes :=
  if it.valid then some it.key else none

/-- Move to the next entry and return it. -/
def next (it : BlockIter) : Exec (Option Entry × BlockIter) := do
  let (more, it) ← it.advance
  if more then
    let entry ← it.current
    pure (entry, it)
  else
    pure (none, it)

/-- Move to the last entry. -/
def seekToLast (it : BlockIter) : Exec BlockIter := do
  let numRestarts ← it.numberRestarts
  let it ← if numRestarts > 0 then it.seekToRestartPoint (numRestarts - 1) else pure it.reset
  let it ← whileLoop
    (fun it => pure (decide (it.offset < it.restartsOff)))
    (fun it => do
      let (_, it) ← it.advance
      pure it)
    (it.block.length + 1) it
  ensure (it.valid = true)
  pure it

/-- Move the restart index down to a restart that lies before the given offset.  Where there is
none, the index is left behind the last restart, and the caller reads the number of restarts as an
offset. -/
def rewindRestartIx (it : BlockIter) (origOffset : Nat) : Exec BlockIter :=
  loop
    (fun it => do
      let point ← it.getRestartPoint it.currentRestartIx
      if point ≥ origOffset then
        if it.currentRestartIx = 0 then
          let numRestarts ← it.numberRestarts
          pure (.done { it with offset := it.restartsOff, currentRestartIx := numRestarts })
        else
          pure (.next { it with currentRestartIx := it.currentRestartIx - 1 })
      else
        pure (.done it))
    (it.currentRestartIx + 1) it

/-- Move to the previous entry: go back to a restart and scan up to the entry in front of
the current one. -/
def prev (it : BlockIter) : Exec (Bool × BlockIter) := do
  let origOffset := it.currentEntryOffset
  if origOffset = 0 then
    pure (false, it.reset)
  else
    let it ← it.rewindRestartIx origOffset
    let off ← it.getRestartPoint it.currentRestartIx
    let it := { it with offset := off }
    ensure (it.offset < origOffset)
    loop
      (fun it => do
        let (result, it) ← it.advance
        if it.offset ≥ origOffset then
          pure (.done (result, it))
        else
          pure (.next it))
      (it.block.length + 1) it

/-- Search the restarts for the last one whose key is below the target. -/
def searchRestarts (it : BlockIter) (target : Bytes) (right : Nat) :
    Exec (Nat × Nat × BlockIter) :=
  whileLoop
    (fun (left, right, _) => pure (decide (left < right)))
    (fun (left, right, it) => do
      let middle := (left + right + 1) / 2
      let it ← it.seekToRestartPoint middle
      if it.opt.cmp.cmp it.key target = .lt then
        pure (middle, right, it)
      else
        pure (left, middle - 1, it))
    (right + 1) (0, right, it)

/-- Scan forward to the first entry whose key is not below the target. -/
def scanTo (it : BlockIter) (target : Bytes) : Exec BlockIter :=
  loop
    (fun it => do
      let (entry, it) ← it.next
      match entry with
      | some (k, _) =>
          if it.opt.cmp.cmp k target = .lt then pure (.next it) else pure (.done it)
      | none => pure (.done it))
    (it.block.length + 2) it

/-- Move to the first entry whose key is not below the target. -/
def seek (it : BlockIter) (target : Bytes) : Exec BlockIter := do
  let it := it.reset
  let numRestarts ← it.numberRestarts
  let right := if numRestarts = 0 then 0 else numRestarts - 1
  let (left, right, it) ← it.searchRestarts target right
  ensure (left = right)
  let off ← it.getRestartPoint left
  let it := { it with currentRestartIx := left, offset := off }
  it.scanTo target

end BlockIter

end SSTable
