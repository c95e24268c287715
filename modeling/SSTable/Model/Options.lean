import SSTable.Model.Cmp
import SSTable.Model.Filter

/-!
# Options

The parameters for reading and writing tables.  The block cache, which the source
reaches through a lock in its options, is passed explicitly by the functions that use it.
-/

namespace SSTable

/-- How the blocks of a table are compressed. -/
inductive CompressionType where
  | CompressionNone
  | CompressionSnappy
deriving DecidableEq, Repr

/-- The byte that records a compression type. -/
def CompressionType.toByte : CompressionType → UInt8
  | .CompressionNone => 0
  | .CompressionSnappy => 1

/-- The compression type a byte records. -/
def intToCompressionType (i : Nat) : Option CompressionType :=
  if i = 0 then some .CompressionNone
  else if i = 1 then some .CompressionSnappy
  else none

@[simp] theorem intToCompressionType_toByte (c : CompressionType) :
    intToCompressionType c.toByte.toNat = some c := by
  cases c <;> rfl

/-- The parameters for reading and writing tables. -/
structure Options where
  cmp : Cmp
  blockSize : Nat
  blockRestartInterval : Nat
  compressionType : CompressionType
  filterPolicy : FilterPolicy

/-- The default parameters. -/
def Options.default : Options where
  cmp := DefaultCmp
  blockSize := 4 * 1024
  blockRestartInterval := 16
  compressionType := .CompressionNone
  filterPolicy := (BloomPolicy.new 10).toFilterPolicy

end SSTable
