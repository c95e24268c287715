import SSTable.Foundation.Checksum
import SSTable.Model.ReferenceCrates
import SSTable.Verification.Table.Order
import SSTable.Verification.Table.Stored

/-!
# Damaged blocks

The checksum behind a stored block covers the block and its compression type.  Where the checksum
algorithm detects one changed byte, so does the reader, wherever the byte is: in the data, in the
type or in the checksum itself.

Main results:

- Theorem {lit}`envelope_damaged`: a changed byte of an envelope is noticed.
- Theorem {lit}`single_byte_damage`: a block that a builder has written is read back, and a changed
  byte of it makes the read fail at the checksum.
- Theorem {lit}`Reference.crc32c_detects`: CRC-32C detects one changed byte.
-/

namespace SSTable

open Foundation Foundation.Exec Foundation.Bytes

/-! ## The reference checksum -/

namespace Reference

/-- A word is its upper bits and its lowest one. -/
theorem eq_of_halves {c d : UInt32} (hhigh : c >>> 1 = d >>> 1) (hlow : c &&& 1 = d &&& 1) :
    c = d := by
  apply UInt32.toNat_inj.mp
  have hhigh' : c.toNat / 2 = d.toNat / 2 := by
    simpa [Nat.shiftRight_eq_div_pow] using congrArg UInt32.toNat hhigh
  have hlow' : c.toNat % 2 = d.toNat % 2 := by
    simpa [Nat.and_one_is_mod] using congrArg UInt32.toNat hlow
  omega

/-- The polynomial has its top bit set, which no shifted word has. -/
theorem shift_xor_ne_shift (c d : UInt32) :
    (c >>> 1) ^^^ (0x82f63b78 : UInt32) ≠ d >>> 1 := by
  intro h
  have hpoly : (c >>> 1) ^^^ (d >>> 1) = (0x82f63b78 : UInt32) := by
    rw [← h, ← UInt32.xor_assoc, UInt32.xor_self, UInt32.zero_xor]
  have hlt : ∀ e : UInt32, (e >>> 1).toNat < 2 ^ 31 := by
    intro e
    have := e.toNat_lt
    simp [Nat.shiftRight_eq_div_pow]
    omega
  have hxor := Nat.xor_lt_two_pow (hlt c) (hlt d)
  rw [← UInt32.toNat_xor, hpoly] at hxor
  exact absurd hxor (by decide)

theorem crcBit_injective : Function.Injective crcBit := by
  have hlow : ∀ e : UInt32, ¬ e &&& 1 = 1 → e &&& 1 = 0 := by
    intro e he
    apply UInt32.toNat_inj.mp
    have : (e &&& 1).toNat ≠ 1 := fun h => he (UInt32.toNat_inj.mp h)
    simpa [Nat.and_one_is_mod] using this
  intro c d h
  unfold crcBit at h
  by_cases hc : c &&& 1 = 1
  · by_cases hd : d &&& 1 = 1
    · rw [if_pos hc, if_pos hd] at h
      exact eq_of_halves ((UInt32.xor_left_inj _).mp h) (hc.trans hd.symm)
    · rw [if_pos hc, if_neg hd] at h
      exact absurd h (shift_xor_ne_shift c d)
  · by_cases hd : d &&& 1 = 1
    · rw [if_neg hc, if_pos hd] at h
      exact absurd h.symm (shift_xor_ne_shift d c)
    · rw [if_neg hc, if_neg hd] at h
      exact eq_of_halves h ((hlow c hc).trans (hlow d hd).symm)

theorem crcByte_injective (b : UInt8) : Function.Injective fun c => crcByte c b := by
  intro c d h
  simp only [crcByte] at h
  have hxor := crcBit_injective (crcBit_injective (crcBit_injective (crcBit_injective
    (crcBit_injective (crcBit_injective (crcBit_injective (crcBit_injective h)))))))
  exact (UInt32.xor_left_inj _).mp hxor

theorem crcByte_injective_byte (c : UInt32) : Function.Injective (crcByte c) := by
  intro a b h
  simp only [crcByte] at h
  have hxor := crcBit_injective (crcBit_injective (crcBit_injective (crcBit_injective
    (crcBit_injective (crcBit_injective (crcBit_injective (crcBit_injective h)))))))
  have := (UInt32.xor_right_inj _).mp hxor
  have h8 := congrArg UInt32.toUInt8 this
  simpa using h8

/-- CRC-32C detects one changed byte. -/
theorem crc32c_detects : DetectsOne crc32c := by
  apply DetectsOne.comp (detectsOne_foldl crcByte_injective crcByte_injective_byte 0xffffffff)
  intro c d h
  exact UInt32.not_inj.mp h

end Reference

/-! ## Damaged envelopes -/

/-- The stored form of a checksum determines its four bytes. -/
theorem checksum_injective {v w : Bytes} (hv : v.length = 4) (hw : w.length = 4)
    (h : unmaskCrc (UInt32.ofNat (decodeFixed32 v)) = unmaskCrc (UInt32.ofNat (decodeFixed32 w))) :
    v = w := by
  have hwords := congrArg UInt32.toNat (unmaskCrc_injective h)
  have hvlt : decodeFixed32 v < 2 ^ 32 := by simpa [decodeFixed32, hv] using leValue_lt v
  have hwlt : decodeFixed32 w < 2 ^ 32 := by simpa [decodeFixed32, hw] using leValue_lt w
  rw [UInt32.toNat_ofNat_of_lt' hvlt, UInt32.toNat_ofNat_of_lt' hwlt] at hwords
  calc v = leBytes v.length (leValue v) := (leBytes_leValue v).symm
    _ = leBytes w.length (leValue w) := by rw [hv, hw]; exact congrArg _ hwords
    _ = w := leBytes_leValue w

section

variable [Crates] {ctype : CompressionType} {data : Bytes} {i : Nat} {byte : UInt8}

/-- The bytes of a damaged envelope, taken apart: the data and the type do not fit the checksum. -/
theorem envelope_damaged (hcrc : DetectsOne crc32) (hi : i < data.length + 5)
    (hbyte : (envelope ctype data)[i]? ≠ some byte) :
    ∃ (d : Bytes) (t : UInt8) (w : Bytes), (envelope ctype data).set i byte = d ++ t :: w ∧
      d.length = data.length ∧ w.length = 4 ∧
      verifyTableBlock d t (unmaskCrc (UInt32.ofNat (decodeFixed32 w))) = false := by
  have hword : (encodeFixed32 (storedCrc ctype data).toNat).length = 4 := leBytes_length _ _
  rw [envelope, List.singleton_append] at hbyte ⊢
  by_cases hdata : i < data.length
  · -- The checksum is that of other data.
    rw [List.getElem?_append_left hdata] at hbyte
    refine ⟨data.set i byte, ctype.toByte, _, List.set_append_left i byte hdata,
      List.length_set, hword, ?_⟩
    have hne : crc32 ((data ++ [ctype.toByte]).set i byte) ≠ crc32 (data ++ [ctype.toByte]) := by
      apply hcrc.set_ne
      · rw [List.length_append]
        omega
      · rwa [List.getElem?_append_left hdata]
    rw [List.set_append_left i byte hdata] at hne
    rw [verifyTableBlock, storedCrc, unmaskCrc_word]
    exact beq_eq_false_iff_ne.mpr hne
  · rw [List.getElem?_append_right (not_lt.mp hdata)] at hbyte
    rw [List.set_append_right i byte (not_lt.mp hdata)]
    obtain ⟨j, hj⟩ : ∃ j, i - data.length = j := ⟨_, rfl⟩
    rw [hj] at hbyte ⊢
    cases j with
    | zero =>
        -- The checksum is that of another type.
        refine ⟨data, byte, _, rfl, rfl, hword, ?_⟩
        have hne : ctype.toByte ≠ byte := fun h => hbyte (by rw [h]; rfl)
        have hcrcs := hcrc data [] byte ctype.toByte hne.symm
        rw [verifyTableBlock, storedCrc, unmaskCrc_word]
        exact beq_eq_false_iff_ne.mpr hcrcs
    | succ j =>
        -- The checksum has changed itself.
        rw [List.getElem?_cons_succ] at hbyte
        refine ⟨data, ctype.toByte, _, rfl, rfl, (List.length_set).trans hword, ?_⟩
        apply beq_eq_false_iff_ne.mpr
        intro hsame
        rw [← unmaskCrc_word (crc32 _)] at hsame
        have hset := checksum_injective hword ((List.length_set).trans hword) hsame
        exact hbyte ((congrArg (·[j]?) hset).trans (List.getElem?_set_self (by omega)))

end

/-- A block that a builder has written is read back from the file, whatever is written behind it,
and if any one byte of its data, its type or its checksum is changed, the read reports corruption
at the checksum, before anything is made of the data. -/
theorem single_byte_damage [Crates] (opt : Options) (b b' : TableBuilder Bytes) (block : Bytes)
    (ctype : CompressionType) (handle : BlockHandle) (rest : Bytes) (hcrc : DetectsOne crc32)
    (hoffset : b.offset = b.dst.length) (hwrite : b.writeBlock block ctype = (.ok handle, b'))
    (hsize : b'.dst.length ≤ maxAllocation) :
    (∀ (i : Nat) (byte : UInt8), handle.offset ≤ i → i < handle.offset + handle.size + 5 →
      (b'.dst ++ rest)[i]? ≠ some byte →
      readTableBlock opt (BufferBackedFile ((b'.dst ++ rest).set i byte)) handle =
        .ok (.error (Status.new .Corruption
          ("checksum verification failed for block at " ++ toString handle.offset)))) ∧
    (4 < block.length → readTableBlock opt (BufferBackedFile (b'.dst ++ rest)) handle =
      .ok (.ok { block := block, opt := opt })) := by
  rw [TableBuilder.writeBlock_eq] at hwrite
  cases hcompress : compressBlock ctype block with
  | error e =>
      rw [hcompress] at hwrite
      cases hwrite
  | ok data =>
      rw [hcompress] at hwrite
      obtain ⟨hhandle, rfl⟩ := Prod.mk.inj hwrite
      obtain rfl := Except.ok.inj hhandle
      simp only [TableBuilder.appended, List.length_append, envelope_length] at hsize
      have hfile : (b.appended ctype data).dst ++ rest = b.dst ++ (envelope ctype data ++ rest) :=
        List.append_assoc _ _ _
      rw [hfile]
      constructor
      · intro i byte hlow hhigh hbyte
        simp only [hoffset] at hlow hhigh
        obtain ⟨k, rfl⟩ := Nat.exists_eq_add_of_le hlow
        have hk : k < data.length + 5 := by omega
        have hlen : k < (envelope ctype data).length := by rwa [envelope_length]
        rw [List.getElem?_append_right hlow, Nat.add_sub_cancel_left,
          List.getElem?_append_left hlen] at hbyte
        obtain ⟨d, t, w, hset, hd, hw, hverify⟩ := envelope_damaged hcrc hk hbyte
        have hholds := holds_middle b.dst (d ++ t :: w) rest
        rw [List.set_append_right _ _ hlow, Nat.add_sub_cancel_left, List.set_append_left _ _ hlen,
          hset, hoffset, ← hd, readTableBlock_holds hholds hw (by omega), hverify]
        rfl
      · intro hlong
        rw [hoffset]
        exact readTableBlock_stored hlong hcompress (holds_middle _ _ _) (by omega)

/-- A builder that has written three bytes. -/
def behindThree : TableBuilder Bytes :=
  { TableBuilder.new Options.default [1, 2, 3] with offset := 3 }

/-- A block of five bytes, written behind three others and followed by two. -/
theorem single_byte_damage_five : letI := referenceCrates
    (∀ (i : Nat) (byte : UInt8), 3 ≤ i → i < 3 + 5 + 5 →
      ((behindThree.appended .CompressionNone [7, 8, 9, 10, 11]).dst ++ [4, 5])[i]? ≠ some byte →
      readTableBlock Options.default (BufferBackedFile
          (((behindThree.appended .CompressionNone [7, 8, 9, 10, 11]).dst ++ [4, 5]).set i byte))
          { offset := 3, size := 5 } =
        .ok (.error (Status.new .Corruption
          ("checksum verification failed for block at " ++ toString 3)))) ∧
    (4 < 5 → readTableBlock Options.default (BufferBackedFile
        ((behindThree.appended .CompressionNone [7, 8, 9, 10, 11]).dst ++ [4, 5]))
        { offset := 3, size := 5 } =
      .ok (.ok { block := [7, 8, 9, 10, 11], opt := Options.default })) :=
  letI := referenceCrates
  single_byte_damage Options.default behindThree
    (behindThree.appended .CompressionNone [7, 8, 9, 10, 11]) [7, 8, 9, 10, 11] .CompressionNone
    { offset := 3, size := 5 } [4, 5] Reference.crc32c_detects rfl rfl (by decide)

end SSTable
