import Mathlib.Data.FinEnum
import SSTable.Foundation.ByteString
import SSTable.Model.Error

/-!
# Files, sinks and the crates the library calls

The source and sink traits, and the interface of the third-party crates.  {lit}`Crates`
records exactly what the library relies on: a self-delimiting variable-length integer code,
a decompressor that inverts the compressor, and a checksum that is a function of its input.
-/

namespace SSTable

open Foundation Foundation.Exec Foundation.Bytes

/-- A key with its value. -/
abbrev Entry := Bytes × Bytes

/-! ## Third-party crates -/

/-- The crates the library calls, with the documented behavior it relies on. -/
class Crates where
  /-- The variable-length encoding of a 64-bit unsigned integer. -/
  encodeVar : Nat → Bytes
  /-- The integer at the front of a string and the number of bytes it took. -/
  decodeVar : Bytes → Option (Nat × Nat)
  /-- Snappy compression; the error is the crate's error text. -/
  compressVec : Bytes → Except String Bytes
  /-- Snappy decompression; the error is the crate's error text. -/
  decompressVec : Bytes → Except String Bytes
  /-- The CRC-32C checksum of a string. -/
  crc32 : Bytes → UInt32
  /-- An encoded integer is read back, whatever follows it. -/
  decodeVar_encodeVar : ∀ n rest, n < wordLimit →
    decodeVar (encodeVar n ++ rest) = some (n, (encodeVar n).length)
  /-- Seven bits go into each encoded byte, and zero takes one byte. -/
  encodeVar_length_le : ∀ n k, 0 < k → n < 2 ^ (7 * k) → (encodeVar n).length ≤ k
  encodeVar_length_pos : ∀ n, 0 < (encodeVar n).length
  /-- A decoded integer fits its word and came from bytes of the string. -/
  decodeVar_bounds : ∀ b n k, decodeVar b = some (n, k) → n < wordLimit ∧ 0 < k ∧ k ≤ b.length
  /-- Decompression inverts compression. -/
  decompressVec_compressVec : ∀ b c, compressVec b = .ok c → decompressVec c = .ok b
  /-- The compressor never expands a string by more than its documented bound. -/
  compressVec_length_le : ∀ b c, compressVec b = .ok c → c.length ≤ 32 + b.length + b.length / 6

export Crates (encodeVar decodeVar compressVec decompressVec crc32)

/-- Write a 32-bit word in fixed width. -/
def encodeFixed32 (n : Nat) : Bytes := leBytes 4 n

/-- Read a 32-bit word of fixed width. -/
def decodeFixed32 (b : Bytes) : Nat := leValue b

/-- Truncate to a 32-bit word. -/
def asU32 (n : Nat) : Nat := n % 2 ^ 32

/-- Checked 32-bit addition. -/
def addU32 (a b : Nat) : Exec Nat :=
  if a + b < 2 ^ 32 then .ok (a + b) else .error .arithmetic

theorem addU32_of_lt {a b : Nat} (h : a + b < 2 ^ 32) : addU32 a b = .ok (a + b) := by
  rw [addU32, if_pos h]

theorem addU32_eq_ok_iff {a b c : Nat} : addU32 a b = .ok c ↔ a + b < 2 ^ 32 ∧ c = a + b := by
  unfold addU32
  split <;> simp_all [eq_comm]

/-! ## Sources and sinks -/

/-- A source of bytes with positioned reads.  A read gets the buffer to fill and returns
the number of bytes it took and the buffer after the read. -/
structure RandomAccess where
  readAt : Nat → Bytes → Result (Nat × Bytes)
  readAt_length : ∀ {off dst n dst'}, readAt off dst = .ok (n, dst') → dst'.length = dst.length

/-- An in-memory file. -/
def bufferReadAt (file : Bytes) (off : Nat) (dst : Bytes) : Result (Nat × Bytes) :=
  if off > file.length then
    .ok (0, dst)
  else
    let remaining := file.length - off
    let toRead := if dst.length > remaining then remaining else dst.length
    .ok (toRead, (file.drop off).take toRead ++ dst.drop toRead)

/-- A read never changes the size of the buffer. -/
theorem bufferReadAt_length {file dst dst' : Bytes} {off n : Nat}
    (h : bufferReadAt file off dst = .ok (n, dst')) : dst'.length = dst.length := by
  unfold bufferReadAt at h
  split at h
  · simp only [Except.ok.injEq, Prod.mk.injEq] at h
    rw [← h.2]
  · simp only [Except.ok.injEq, Prod.mk.injEq] at h
    rw [← h.2, List.length_append, List.length_take, List.length_drop, List.length_drop]
    split <;> omega

/-- An in-memory file as a source. -/
def BufferBackedFile (file : Bytes) : RandomAccess where
  readAt := bufferReadAt file
  readAt_length := bufferReadAt_length

/-- A sink of bytes.  A write reports how many bytes of its argument it took. -/
class Write (Dst : Type) where
  write : Dst → Bytes → Except IoError Nat × Dst
  writeAll : Dst → Bytes → Except IoError Unit × Dst
  flush : Dst → Except IoError Unit × Dst

/-- Writing to a growing byte vector takes every byte. -/
instance bytesWrite : Write Bytes where
  write dst b := (.ok b.length, dst ++ b)
  writeAll dst b := (.ok (), dst ++ b)
  flush dst := (.ok (), dst)

@[simp] theorem write_bytes (dst b : Bytes) : Write.write dst b = (.ok b.length, dst ++ b) := rfl

@[simp] theorem writeAll_bytes (dst b : Bytes) : Write.writeAll dst b = (.ok (), dst ++ b) := rfl

@[simp] theorem flush_bytes (dst : Bytes) : Write.flush dst = (.ok (), dst) := rfl

/-- Write a 32-bit word in fixed width to a sink. -/
def writeFixedInt {Dst : Type} [Write Dst] (dst : Dst) (n : UInt32) :
    Except IoError Unit × Dst :=
  Write.writeAll dst (encodeFixed32 n.toNat)

/-! ## Checksum masking -/

/-- The constant added to a rotated checksum. -/
def maskDelta : UInt32 := 0xa282ead8

/-- Rotate a checksum and add a constant, so that stored checksums of data that
contains checksums stay unrelated. -/
def maskCrc (c : UInt32) : UInt32 := (c >>> 15 ||| c <<< 17) + maskDelta

/-- Undo {name}`maskCrc`. -/
def unmaskCrc (mc : UInt32) : UInt32 :=
  let rot := mc - maskDelta
  rot >>> 17 ||| rot <<< 15

private theorem rotate_back (c : UInt32) :
    (c >>> 15 ||| c <<< 17) >>> 17 ||| (c >>> 15 ||| c <<< 17) <<< 15 = c := by
  apply UInt32.toBitVec_inj.mp
  simp only [UInt32.toBitVec_or, UInt32.toBitVec_shiftRight, UInt32.toBitVec_shiftLeft]
  apply BitVec.eq_of_getLsbD_eq
  intro i hi
  have hout : c.toBitVec.getLsbD (15 + (17 + i)) = false :=
    BitVec.getLsbD_of_ge _ _ (by omega)
  by_cases hlow : i < 15
  · have hwide : 17 + i < 32 := by omega
    have hkept : ¬ 17 + i < 17 := by omega
    simp [hout, hlow, hwide, hkept, BitVec.getLsbD_eq_getElem hi]
  · have hback : 15 + (i - 15) = i := by omega
    have hwide : ¬ 17 + i < 32 := by omega
    have hshort : i - 15 < 17 := by omega
    simp [BitVec.getLsbD_or, hout, hlow, hback, hwide, hshort, hi]

/-- Unmasking a masked checksum recovers it. -/
@[simp] theorem unmaskCrc_maskCrc (c : UInt32) : unmaskCrc (maskCrc c) = c := by
  have hsub : maskCrc c - maskDelta = c >>> 15 ||| c <<< 17 := by
    simp [maskCrc]
  rw [unmaskCrc, hsub]
  exact rotate_back c

/-- Different words are unmasked to different checksums. -/
theorem unmaskCrc_injective : Function.Injective unmaskCrc := by
  have hleft : Function.LeftInverse unmaskCrc maskCrc := unmaskCrc_maskCrc
  have hsurjective := Finite.injective_iff_surjective.mp hleft.injective
  exact (hleft.rightInverse_of_surjective hsurjective).injective

end SSTable
