import SSTable.Foundation.Leb128
import SSTable.Model.Types

/-!
# Reference crates

Concrete crates that satisfy everything the library relies on: LEB128 integers, the
CRC-32C polynomial, and Snappy streams made of one literal element.
-/

namespace SSTable

open Foundation Foundation.Bytes

namespace Reference

/-- One bit of a reflected CRC-32C. -/
def crcBit (c : UInt32) : UInt32 :=
  if c &&& 1 = 1 then (c >>> 1) ^^^ 0x82f63b78 else c >>> 1

/-- One byte of a reflected CRC-32C. -/
def crcByte (c : UInt32) (b : UInt8) : UInt32 :=
  crcBit (crcBit (crcBit (crcBit (crcBit (crcBit (crcBit (crcBit (c ^^^ b.toUInt32))))))))

/-- The CRC-32C checksum. -/
def crc32c (b : Bytes) : UInt32 := ~~~(b.foldl crcByte 0xffffffff)

/-- The check value of the checksum's definition, that of the digits from 1 to 9. -/
example : crc32c [49, 50, 51, 52, 53, 54, 55, 56, 57] = 0xe3069283 := by decide +kernel

/-- A Snappy stream: the length of the data, and the data as one literal with a four-byte
length. -/
def compressVec (b : Bytes) : Except String Bytes :=
  if b.length < 2 ^ 32 then
    .ok (Leb128.encode b.length ++ ([252] ++ leBytes 4 (b.length - 1) ++ b))
  else
    .error "snappy: input buffer is too big"

/-- The data of a Snappy stream made of one literal. -/
def decompressVec (b : Bytes) : Except String Bytes :=
  match Leb128.decode b with
  | some (n, k) =>
      if (b.drop k).length = 5 + n then .ok ((b.drop k).drop 5) else .error "snappy: corrupt input"
  | none => .error "snappy: corrupt input"

theorem compressVec_eq_ok {b c : Bytes} (h : compressVec b = .ok c) :
    b.length < 2 ^ 32 ∧
      c = Leb128.encode b.length ++ ([252] ++ leBytes 4 (b.length - 1) ++ b) := by
  unfold compressVec at h
  split at h
  · rename_i hlt
    exact ⟨hlt, (Except.ok.inj h).symm⟩
  · cases h

theorem decompressVec_compressVec {b c : Bytes} (h : compressVec b = .ok c) :
    decompressVec c = .ok b := by
  obtain ⟨hlt, rfl⟩ := compressVec_eq_ok h
  have hword : b.length < wordLimit := lt_trans hlt (by decide)
  have hdrop : ([252] ++ leBytes 4 (b.length - 1) ++ b).drop 5 = b := by
    rw [List.drop_append_of_le_length (by simp)]
    simp [leBytes]
  have hlen : ([252] ++ leBytes 4 (b.length - 1) ++ b).length = 5 + b.length := by
    simp only [List.length_append, List.length_cons, List.length_nil, leBytes_length]
  simp only [decompressVec, Leb128.decode_encode hword, List.drop_left, hdrop, hlen, if_true]

theorem compressVec_length_le {b c : Bytes} (h : compressVec b = .ok c) :
    c.length ≤ 32 + b.length + b.length / 6 := by
  obtain ⟨hlt, rfl⟩ := compressVec_eq_ok h
  have := Leb128.encode_length_le (n := b.length) (k := 5) (by omega)
    (lt_trans hlt (by decide))
  simp only [List.length_append, List.length_cons, List.length_nil, leBytes_length]
  omega

end Reference

/-- The reference crates. -/
@[reducible] def referenceCrates : Crates where
  encodeVar := Leb128.encode
  decodeVar := Leb128.decode
  compressVec := Reference.compressVec
  decompressVec := Reference.decompressVec
  crc32 := Reference.crc32c
  decodeVar_encodeVar _ rest hn := Leb128.decode_encode hn rest
  encodeVar_length_le _ _ := Leb128.encode_length_le
  encodeVar_length_pos := Leb128.encode_length_pos
  decodeVar_bounds _ _ _ := Leb128.decode_bounds
  decompressVec_compressVec _ _ := Reference.decompressVec_compressVec
  compressVec_length_le _ _ := Reference.compressVec_length_le

end SSTable
