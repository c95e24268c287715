import SSTable.Model.Filter

/-!
# Filter blocks

A filter block holds one filter for every 2 KiB of file offsets: the filters one after
the other, the offset of each, the offset of that offset array, and the binary logarithm
of the 2 KiB.
-/

namespace SSTable

open Foundation Foundation.Exec Foundation.Bytes

def filterBaseLog2 : Nat := 11

/-- The index of the filter responsible for a file offset. -/
def getFilterIndex (offset baseLg2 : Nat) : Exec Nat :=
  if baseLg2 < 64 then .ok (asU32 (offset / 2 ^ baseLg2)) else .error .arithmetic

/-- The state of a filter block under construction. -/
structure FilterBlockBuilder where
  policy : FilterPolicy
  /-- The filters generated so far, concatenated. -/
  filters : Bytes
  filterOffsets : List Nat
  /-- The keys since the last filter, concatenated. -/
  keys : Bytes
  keyOffsets : List Nat

namespace FilterBlockBuilder

/-- An empty filter block. -/
def new (fp : FilterPolicy) : FilterBlockBuilder where
  policy := fp
  filters := []
  filterOffsets := []
  keys := []
  keyOffsets := []

/-- The number of bytes that a filter block of the filters so far has. -/
def sizeEstimate (b : FilterBlockBuilder) : Nat :=
  b.filters.length + 4 * b.filterOffsets.length + 4 + 1

/-- The policy's name, by which the metaindex refers to the filter block. -/
def filterName (b : FilterBlockBuilder) : String := b.policy.name

/-- Remember a key for the next filter. -/
def addKey (b : FilterBlockBuilder) (key : Bytes) : FilterBlockBuilder :=
  { b with keyOffsets := b.keyOffsets ++ [b.keys.length], keys := b.keys ++ key }

/-- Append the filter of the remembered keys; without keys the filter is empty. -/
def generateFilter (b : FilterBlockBuilder) : Exec FilterBlockBuilder := do
  let b := { b with filterOffsets := b.filterOffsets ++ [b.filters.length] }
  if b.keys = [] then
    pure b
  else
    let filter ← b.policy.createFilter b.keys b.keyOffsets
    pure { b with filters := b.filters ++ filter, keys := [], keyOffsets := [] }

/-- Announce the offset of the next data block: every filter below its index is generated. -/
def startBlock (b : FilterBlockBuilder) (offset : Nat) : Exec FilterBlockBuilder := do
  let filterIx ← getFilterIndex offset filterBaseLog2
  ensure (filterIx ≥ asU32 b.filterOffsets.length)
  whileLoop
    (fun b => pure (decide (filterIx > asU32 b.filterOffsets.length)))
    generateFilter (filterIx + 1) b

/-- Remember a sequence of keys. -/
def addKeys (b : FilterBlockBuilder) (keys : List Bytes) : FilterBlockBuilder :=
  keys.foldl addKey b

/-- Feed the keys of a sequence of data blocks, each with the offset of the block after it. -/
def feed (b : FilterBlockBuilder) : List (List Bytes × Nat) → Exec FilterBlockBuilder
  | [] => pure b
  | (keys, offset) :: rest => do
      let b ← (b.addKeys keys).startBlock offset
      b.feed rest

/-- The bytes of the finished filter block. -/
def finish (b : FilterBlockBuilder) : Exec Bytes := do
  let b ← if b.keys = [] then pure b else b.generateFilter
  pure (b.filters ++ (b.filterOffsets.map encodeFixed32).flatten ++
    encodeFixed32 b.filters.length ++ [UInt8.ofNat filterBaseLog2])

end FilterBlockBuilder

/-- An opened filter block. -/
structure FilterBlockReader where
  policy : FilterPolicy
  block : Bytes
  offsetsOffset : Nat
  filterBaseLg2 : Nat

namespace FilterBlockReader

/-- Open a filter block. -/
def new (pol : FilterPolicy) (data : Bytes) : Exec FilterBlockReader := do
  ensure (data.length ≥ 5)
  let base ← unwrap data.getLast?
  let word ← slice data (data.length - 5) (data.length - 1)
  pure
    { policy := pol
      block := data
      offsetsOffset := decodeFixed32 word
      filterBaseLg2 := base.toNat }

/-- The number of filters. -/
def num (r : FilterBlockReader) : Exec Nat := do
  let n ← wordSub r.block.length r.offsetsOffset
  let n ← wordSub n 5
  pure (asU32 (n / 4))

/-- The offset of the filter with the given index. -/
def offsetOf (r : FilterBlockReader) (i : Nat) : Exec Nat := do
  let offsetOffset := r.offsetsOffset + 4 * i
  let word ← slice r.block offsetOffset (offsetOffset + 4)
  pure (decodeFixed32 word)

/-- Test a key against the filter responsible for the block at the given offset. -/
def keyMayMatch (r : FilterBlockReader) (blkOffset : Nat) (key : Bytes) : Exec Bool := do
  let ix ← getFilterIndex blkOffset r.filterBaseLg2
  let n ← r.num
  if ix > n then
    pure true
  else
    let filterBegin ← r.offsetOf ix
    let next ← addU32 ix 1
    let filterEnd ← r.offsetOf next
    ensure (filterBegin < filterEnd)
    ensure (filterEnd ≤ r.offsetsOffset)
    let filter ← slice r.block filterBegin filterEnd
    r.policy.keyMayMatch key filter

end FilterBlockReader

end SSTable
