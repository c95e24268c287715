import SSTable.Model.BlockBuilder
import SSTable.Model.BlockHandle
import SSTable.Model.FilterBlock
import SSTable.Model.TableBlock

/-!
# Building tables

A table is written front to back: data blocks, the filter block, the metaindex block, the
index block and the footer.  Every function returns the builder it leaves behind also when
it fails, because the caller keeps it.
-/

namespace SSTable

open Foundation Foundation.Exec Foundation.Bytes

variable [Crates]

def footerLength : Nat := 40

def fullFooterLength : Nat := footerLength + 8

/-- The bytes every table ends with. -/
def magicFooterEncoded : Bytes := [0x57, 0xfb, 0x80, 0x8b, 0x24, 0x75, 0x47, 0xdb]

/-- The handles of the metaindex block and of the index block. -/
structure Footer where
  metaIndex : BlockHandle
  index : BlockHandle
deriving DecidableEq, Repr

namespace Footer

/-- Decode a footer; a wrong magic number stops the reader. -/
def decode (b : Bytes) : Exec Footer := do
  ensure (b.length ≥ fullFooterLength)
  ensure (b.drop footerLength = magicFooterEncoded)
  let (metaix, metalen) ← BlockHandle.decode b
  let rest ← sliceFrom b metalen
  let (ix, _) ← BlockHandle.decode rest
  pure { metaIndex := metaix, index := ix }

/-- Encode a footer into a buffer. -/
def encode (f : Footer) (dst : Bytes) : Exec Bytes := do
  ensure (dst.length ≥ footerLength + 8)
  let (s₁, dst) ← f.metaIndex.encodeTo dst
  let rest ← sliceFrom dst s₁
  let (s₂, rest) ← f.index.encodeTo rest
  let dst := dst.take s₁ ++ rest
  let dst := dst.take (s₁ + s₂) ++ List.replicate (footerLength - (s₁ + s₂)) 0 ++
    dst.drop (max footerLength (s₁ + s₂))
  pure (dst.take footerLength ++ magicFooterEncoded ++ dst.drop fullFooterLength)

end Footer

/-- The state of a table under construction. -/
structure TableBuilder (Dst : Type) where
  opt : Options
  dst : Dst
  offset : Nat
  numEntries : Nat
  prevBlockLastKey : Bytes
  dataBlock : Option BlockBuilder
  indexBlock : Option BlockBuilder
  filterBlock : Option FilterBlockBuilder

namespace TableBuilder

variable {Dst : Type} [Write Dst]

/-- An empty table. -/
def new (opt : Options) (dst : Dst) : TableBuilder Dst where
  opt := opt
  dst := dst
  offset := 0
  numEntries := 0
  prevBlockLastKey := []
  dataBlock := some (BlockBuilder.new opt)
  indexBlock := some (BlockBuilder.new opt)
  filterBlock := some (FilterBlockBuilder.new opt.filterPolicy)

/-- An empty table without filters. -/
def newNoFilter (opt : Options) (dst : Dst) : TableBuilder Dst :=
  new { opt with filterPolicy := NoFilterPolicy } dst

/-- The number of entries added. -/
def entries (b : TableBuilder Dst) : Nat := b.numEntries

/-- The number of bytes that the table is estimated to take, those included that wait to be
written. -/
def sizeEstimate (b : TableBuilder Dst) : Nat :=
  (b.dataBlock.map BlockBuilder.sizeEstimate).getD 0 +
    (b.indexBlock.map BlockBuilder.sizeEstimate).getD 0 +
    (b.filterBlock.map FilterBlockBuilder.sizeEstimate).getD 0 + b.offset + fullFooterLength

/-- Write a block, its compression type and its checksum, and move the offset past them.
The offset moves by the lengths handed to the sink, whatever the sink took of them. -/
def writeBlock (b : TableBuilder Dst) (block : Bytes) (ctype : CompressionType) :
    Result BlockHandle × TableBuilder Dst :=
  let compressed : Except String Bytes :=
    if ctype = .CompressionSnappy then compressVec block else .ok block
  match compressed with
  | .error e => (.error (Status.ofSnapError e), b)
  | .ok data =>
      let digest := crc32 (data ++ [ctype.toByte])
      match Write.write b.dst data with
      | (.error e, dst) => (.error (Status.ofIoError e), { b with dst := dst })
      | (.ok _, dst) =>
          match Write.write dst [ctype.toByte] with
          | (.error e, dst) => (.error (Status.ofIoError e), { b with dst := dst })
          | (.ok _, dst) =>
              match writeFixedInt dst (maskCrc digest) with
              | (.error e, dst) => (.error (Status.ofIoError e), { b with dst := dst })
              | (.ok _, dst) =>
                  (.ok { offset := b.offset, size := data.length },
                    { b with
                      dst := dst
                      offset := b.offset + data.length + tableBlockCompressLen +
                        tableBlockCksumLen })

/-- Write the data block and its index entry; {lit}`nextKey` is the first key of the block that
follows. -/
def writeDataBlock (b : TableBuilder Dst) (nextKey : Bytes) :
    Exec (Result Unit × TableBuilder Dst) := do
  ensure (b.dataBlock.isSome = true)
  let block ← unwrap b.dataBlock
  let b := { b with dataBlock := none }
  let sep ← b.opt.cmp.findShortestSep block.lastKey nextKey
  let b := { b with prevBlockLastKey := block.lastKey }
  let contents := block.finish
  match b.writeBlock contents b.opt.compressionType with
  | (.error e, b) => pure (.error e, b)
  | (.ok handle, b) => do
      let (encLen, handleEnc) ← handle.encodeTo (List.replicate 16 0)
      let indexBlock ← unwrap b.indexBlock
      let indexBlock ← indexBlock.add sep (handleEnc.take encLen)
      let b := { b with
        indexBlock := some indexBlock
        dataBlock := some (BlockBuilder.new b.opt) }
      match b.filterBlock with
      | none => pure (.ok (), b)
      | some fblock => do
          let fblock ← fblock.startBlock b.offset
          pure (.ok (), { b with filterBlock := some fblock })

/-- Append an entry to the data block and its key to the filters: what {lit}`add` does once a
full block is written. -/
def append (b : TableBuilder Dst) (key val : Bytes) : Exec (Result Unit × TableBuilder Dst) := do
  let dblock ← unwrap b.dataBlock
  let fblock := b.filterBlock.map fun fblock => fblock.addKey key
  let dblock ← dblock.add key val
  pure (.ok (), { b with
    filterBlock := fblock
    numEntries := b.numEntries + 1
    dataBlock := some dblock })

/-- Add an entry; a data block that has grown enough is written first. -/
def add (b : TableBuilder Dst) (key val : Bytes) : Exec (Result Unit × TableBuilder Dst) := do
  ensure (b.dataBlock.isSome = true)
  ensure (b.prevBlockLastKey = [] ∨ b.opt.cmp.cmp b.prevBlockLastKey key = .lt)
  let dblock ← unwrap b.dataBlock
  let (flushed, b) ←
    if dblock.sizeEstimate > b.opt.blockSize then b.writeDataBlock key else pure (.ok (), b)
  match flushed with
  | .error e => pure (.error e, b)
  | .ok () => b.append key val

/-- The metaindex key of a filter block. -/
def filterKey (name : String) : Bytes :=
  "filter.".toUTF8.data.toList ++ name.toUTF8.data.toList

/-- Write the filter block, if there is one, and its metaindex entry. -/
def writeFilterBlock (b : TableBuilder Dst) (metaIxBlock : BlockBuilder) :
    Exec (Result BlockBuilder × TableBuilder Dst) :=
  match b.filterBlock with
  | none => pure (.ok metaIxBlock, b)
  | some fblock => do
      let b := { b with filterBlock := none }
      let fblockData ← fblock.finish
      match b.writeBlock fblockData .CompressionNone with
      | (.error e, b) => pure (.error e, b)
      | (.ok fblockHandle, b) => do
          let (encLen, handleEnc) ← fblockHandle.encodeTo (List.replicate 16 0)
          let metaIxBlock ← metaIxBlock.add (filterKey fblock.filterName) (handleEnc.take encLen)
          pure (.ok metaIxBlock, b)

/-- Write the pending data block, if it has entries. -/
def flushPending (b : TableBuilder Dst) : Exec (Result Unit × TableBuilder Dst) := do
  let dblock ← unwrap b.dataBlock
  if dblock.entries > 0 then
    b.writeDataBlock (b.opt.cmp.findShortSucc dblock.lastKey)
  else
    pure (.ok (), b)

/-- Write the footer and report the length of the table. -/
def writeFooter (b : TableBuilder Dst) (footer : Footer) : Exec (Result Nat × Dst) := do
  let buf ← footer.encode (List.replicate fullFooterLength 0)
  match Write.write b.dst buf with
  | (.error e, dst) => pure (.error (Status.ofIoError e), dst)
  | (.ok n, dst) =>
      match Write.flush dst with
      | (.error e, dst) => pure (.error (Status.ofIoError e), dst)
      | (.ok _, dst) => pure (.ok (b.offset + n), dst)

/-- Finish the table: everything that follows the data blocks is written here. -/
def finish (b : TableBuilder Dst) : Exec (Result Nat × Dst) := do
  ensure (b.dataBlock.isSome = true)
  let ctype := b.opt.compressionType
  match ← b.flushPending with
  | (.error e, b) => pure (.error e, b.dst)
  | (.ok (), b) => do
      match ← b.writeFilterBlock (BlockBuilder.new b.opt) with
      | (.error e, b) => pure (.error e, b.dst)
      | (.ok metaIxBlock, b) =>
          match b.writeBlock metaIxBlock.finish ctype with
          | (.error e, b) => pure (.error e, b.dst)
          | (.ok metaIxHandle, b) => do
              let indexBlock ← unwrap b.indexBlock
              let b := { b with indexBlock := none }
              match b.writeBlock indexBlock.finish ctype with
              | (.error e, b) => pure (.error e, b.dst)
              | (.ok ixHandle, b) =>
                  b.writeFooter { metaIndex := metaIxHandle, index := ixHandle }

/-- Add a sequence of entries, stopping at the first error. -/
def addAll (b : TableBuilder Dst) : List Entry → Exec (Result Unit × TableBuilder Dst)
  | [] => pure (.ok (), b)
  | (key, val) :: rest => do
      match ← b.add key val with
      | (.error e, b) => pure (.error e, b)
      | (.ok (), b) => b.addAll rest

/-- Write a whole table: a new builder, one {lit}`add` for each entry, and {lit}`finish`. -/
def writeTable (opt : Options) (dst : Dst) (entries : List Entry) : Exec (Result Nat × Dst) := do
  match ← (new opt dst).addAll entries with
  | (.error e, b) => pure (.error e, b.dst)
  | (.ok (), b) => b.finish

end TableBuilder

end SSTable
