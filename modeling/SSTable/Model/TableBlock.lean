import SSTable.Model.Block
import SSTable.Model.BlockHandle
import SSTable.Model.FilterBlock

/-!
# Reading stored blocks

A stored block is followed by a byte with its compression type and a masked checksum of
both.  The handle covers the stored block alone.
-/

namespace SSTable

open Foundation Foundation.Exec Foundation.Bytes

variable [Crates]

def tableBlockCompressLen : Nat := 1

def tableBlockCksumLen : Nat := 4

/-- The largest buffer that can be allocated. -/
def maxAllocation : Nat := 2 ^ 63 - 1

/-- Read the bytes a handle covers.  The number of bytes the source reports is ignored. -/
def readBytes (f : RandomAccess) (location : BlockHandle) : Exec (Result Bytes) := do
  if location.size > maxAllocation then
    throw .capacity
  let buf := List.replicate location.size 0
  match f.readAt location.offset buf with
  | .error e => pure (.error e)
  | .ok (_, buf) => pure (.ok buf)

/-- Read a filter block. -/
def readFilterBlock (src : RandomAccess) (location : BlockHandle) (policy : FilterPolicy) :
    Exec (Result FilterBlockReader) := do
  if location.size = 0 then
    pure (.error (Status.new .InvalidArgument "no filter block in empty location"))
  else
    match ← readBytes src location with
    | .error e => pure (.error e)
    | .ok buf => do
        let reader ← FilterBlockReader.new policy buf
        pure (.ok reader)

/-- Check the stored checksum of a block. -/
def verifyTableBlock (data : Bytes) (compression : UInt8) (want : UInt32) : Bool :=
  crc32 (data ++ [compression]) == want

/-- Read, verify and decompress a block. -/
def readTableBlock (opt : Options) (f : RandomAccess) (location : BlockHandle) :
    Exec (Result Block) := do
  let blockDataSize := location.size
  let size ← wordAdd blockDataSize (tableBlockCksumLen + tableBlockCompressLen)
  let location : BlockHandle := { offset := location.offset, size := size }
  match ← readBytes f location with
  | .error e => pure (.error e)
  | .ok buf => do
      let data := buf.take blockDataSize
      let trailer := buf.drop blockDataSize
      let compress ← unwrap trailer.head?
      let cksum := trailer.drop tableBlockCompressLen
      if !verifyTableBlock data compress (unmaskCrc (UInt32.ofNat (decodeFixed32 cksum))) then
        pure (.error (Status.new .Corruption
          ("checksum verification failed for block at " ++ toString location.offset)))
      else
        match intToCompressionType compress.toNat with
        | some .CompressionNone => do
            let block ← Block.new opt data
            pure (.ok block)
        | some .CompressionSnappy =>
            match decompressVec data with
            | .error e => pure (.error (Status.ofSnapError e))
            | .ok decoded => do
                let block ← Block.new opt decoded
                pure (.ok block)
        | none => pure (.error (Status.new .InvalidData "invalid compression type"))

end SSTable
