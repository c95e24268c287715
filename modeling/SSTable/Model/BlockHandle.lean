import SSTable.Model.Types

/-!
# Block handles

A handle locates a block in a file by its offset and size.  It is stored as two
variable-length integers.

Main results:

- Theorem {lit}`decode_encode`: a stored handle is read back, whatever follows it.
- Theorem {lit}`encode_length_le`: handles into a file below 2^56 bytes fit the buffers
  the table builder encodes them in.
-/

namespace SSTable

open Foundation Foundation.Exec Foundation.Bytes

variable [Crates]

/-- The offset and size of a block. -/
structure BlockHandle where
  offset : Nat
  size : Nat
deriving DecidableEq, Repr

namespace BlockHandle

/-- Decode a handle and report how many bytes it took. -/
def decode (b : Bytes) : Exec (BlockHandle × Nat) := do
  let (off, offsize) ← unwrap (decodeVar b)
  let rest ← sliceFrom b offsize
  let (sz, szsize) ← unwrap (decodeVar rest)
  pure ({ offset := off, size := sz }, offsize + szsize)

/-- Encode a handle at the front of a buffer and report how many bytes it took. -/
def encodeTo (h : BlockHandle) (dst : Bytes) : Exec (Nat × Bytes) := do
  ensure (dst.length ≥ (encodeVar h.offset).length + (encodeVar h.size).length)
  let off := (encodeVar h.offset).length
  let dst := encodeVar h.offset ++ dst.drop off
  let len := off + (encodeVar h.size).length
  pure (len, dst.take off ++ encodeVar h.size ++ dst.drop len)

/-- The bytes a handle is stored as. -/
def encode (h : BlockHandle) : Bytes := encodeVar h.offset ++ encodeVar h.size

/-- Both parts of a handle are 64-bit words. -/
def Fits (h : BlockHandle) : Prop := h.offset < wordLimit ∧ h.size < wordLimit

theorem encode_length (h : BlockHandle) :
    h.encode.length = (encodeVar h.offset).length + (encodeVar h.size).length := by
  simp [encode]

/-- Encoding puts the stored bytes at the front of the buffer and keeps its size. -/
theorem encodeTo_eq {h : BlockHandle} {dst : Bytes} (hfit : h.encode.length ≤ dst.length) :
    h.encodeTo dst = .ok (h.encode.length, h.encode ++ dst.drop h.encode.length) := by
  have hle : (encodeVar h.offset).length + (encodeVar h.size).length ≤ dst.length := by
    rwa [← encode_length]
  have hcut : (encodeVar h.offset ++ dst.drop (encodeVar h.offset).length).drop
      ((encodeVar h.offset).length + (encodeVar h.size).length) =
        dst.drop ((encodeVar h.offset).length + (encodeVar h.size).length) :=
    drop_overwrite (Nat.le_add_right _ _)
  simp [encodeTo, ensure_of_true, hle, encode, hcut]

/-- A buffer that is too small stops the encoder. -/
theorem encodeTo_eq_ok_iff {h : BlockHandle} {dst : Bytes} {r : Nat × Bytes} :
    h.encodeTo dst = .ok r ↔ h.encode.length ≤ dst.length ∧
      r = (h.encode.length, h.encode ++ dst.drop h.encode.length) := by
  by_cases hfit : h.encode.length ≤ dst.length
  · simp [encodeTo_eq hfit, hfit, eq_comm]
  · have hle : ¬ (encodeVar h.offset).length + (encodeVar h.size).length ≤ dst.length := by
      rwa [← encode_length]
    simp [encodeTo, ensure_of_false, hle, hfit]

/-- A stored handle is read back, whatever follows it. -/
theorem decode_encode {h : BlockHandle} (hfits : h.Fits) (rest : Bytes) :
    decode (h.encode ++ rest) = .ok (h, h.encode.length) := by
  have hoff : decodeVar (encodeVar h.offset ++ (encodeVar h.size ++ rest)) =
      some (h.offset, (encodeVar h.offset).length) :=
    Crates.decodeVar_encodeVar _ _ hfits.1
  have hsize : decodeVar (encodeVar h.size ++ rest) =
      some (h.size, (encodeVar h.size).length) :=
    Crates.decodeVar_encodeVar _ _ hfits.2
  simp [decode, encode, hoff, hsize, sliceFrom_append]

theorem encode_length_pos (h : BlockHandle) : 0 < h.encode.length := by
  have := Crates.encodeVar_length_pos h.offset
  rw [encode_length]
  omega

/-- A handle whose parts are below 2^56 takes at most 16 bytes. -/
theorem encode_length_le {h : BlockHandle} (hoff : h.offset < 2 ^ 56) (hsize : h.size < 2 ^ 56) :
    h.encode.length ≤ 16 := by
  have h₁ := Crates.encodeVar_length_le h.offset 8 (by omega) (by simpa using hoff)
  have h₂ := Crates.encodeVar_length_le h.size 8 (by omega) (by simpa using hsize)
  rw [encode_length]
  omega

end BlockHandle

end SSTable
