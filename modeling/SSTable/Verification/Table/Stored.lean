import SSTable.Model.TableReader
import SSTable.Verification.Block.Iteration
import SSTable.Verification.Table.Written

/-!
# Reading stored blocks

A source holds some bytes at an offset if a read that asks for exactly them gets them.  From a
source that holds a block in its envelope, the block is read back.

Main results:

- Theorem {lit}`holds_middle`: an in-memory file holds its parts.
- Theorem {lit}`readTableBlock_holds`: reading bytes that need not be an envelope.
- Theorem {lit}`readTableBlock_stored`: a block is read back from its envelope.
-/

namespace SSTable

open Foundation Foundation.Exec Foundation.Bytes

/-- A source holds the bytes at the offset. -/
def RandomAccess.Holds (f : RandomAccess) (off : Nat) (d : Bytes) : Prop :=
  ∃ n, f.readAt off (List.replicate d.length 0) = .ok (n, d)

/-- An in-memory file holds its parts. -/
theorem holds_middle (x d y : Bytes) : (BufferBackedFile (x ++ (d ++ y))).Holds x.length d := by
  refine ⟨d.length, ?_⟩
  have hoff : ¬ x.length > (x ++ (d ++ y)).length := by
    rw [List.length_append]
    omega
  have hroom : ¬ d.length > (x ++ (d ++ y)).length - x.length := by
    rw [List.length_append, List.length_append]
    omega
  simp only [BufferBackedFile, bufferReadAt, if_neg hoff, List.length_replicate, if_neg hroom,
    List.drop_left, List.take_left, List.drop_replicate, Nat.sub_self, List.replicate_zero,
    List.append_nil]

/-- A read of an in-memory file fills as much of the buffer as there is behind the offset. -/
theorem bufferReadAt_eq (img : Bytes) (off : Nat) (dst : Bytes) :
    bufferReadAt img off dst = .ok (min dst.length (img.length - off),
      (img.drop off).take (min dst.length (img.length - off)) ++
        dst.drop (min dst.length (img.length - off))) := by
  unfold bufferReadAt
  split
  · rw [Nat.sub_eq_zero_of_le (by omega)]
    simp
  · dsimp only
    split
    · rw [Nat.min_eq_right (by omega)]
    · rw [Nat.min_eq_left (by omega)]

/-- The bytes a source holds are read. -/
theorem readBytes_holds {f : RandomAccess} {off : Nat} {d : Bytes} (h : f.Holds off d)
    (hsize : d.length ≤ maxAllocation) :
    readBytes f { offset := off, size := d.length } = .ok (.ok d) := by
  obtain ⟨n, hread⟩ := h
  have hfit : ¬ d.length > maxAllocation := not_lt.mpr hsize
  simp only [readBytes, if_neg hfit, hread, pure_eq_ok]

/-- A checksum is read back from the word it is stored as. -/
theorem unmaskCrc_word (c : UInt32) :
    unmaskCrc (UInt32.ofNat (decodeFixed32 (encodeFixed32 (maskCrc c).toNat))) = c := by
  have hword : decodeFixed32 (encodeFixed32 (maskCrc c).toNat) = (maskCrc c).toNat :=
    leValue_leBytes_of_lt (lt_of_lt_of_le (UInt32.toNat_lt _) (by decide))
  rw [hword, UInt32.ofNat_toNat, unmaskCrc_maskCrc]

variable [Crates]

/-- Take a block out of its stored form, as its compression type says. -/
def unpackBlock (opt : Options) (ctype : UInt8) (data : Bytes) : Exec (Result Block) :=
  match intToCompressionType ctype.toNat with
  | some .CompressionNone => do
      let block ← Block.new opt data
      pure (.ok block)
  | some .CompressionSnappy =>
      match decompressVec data with
      | .error e => pure (.error (Status.ofSnapError e))
      | .ok decoded => do
          let block ← Block.new opt decoded
          pure (.ok block)
  | none => pure (.error (Status.new .InvalidData "invalid compression type"))

/-- Reading a block whose data, type and checksum the source holds: nothing is done with a block
whose checksum is wrong. -/
theorem readTableBlock_holds {opt : Options} {f : RandomAccess} {off : Nat} {data word : Bytes}
    {ctype : UInt8} (h : f.Holds off (data ++ ctype :: word)) (hword : word.length = 4)
    (hsize : data.length + 5 ≤ maxAllocation) :
    readTableBlock opt f { offset := off, size := data.length } =
      if !verifyTableBlock data ctype (unmaskCrc (UInt32.ofNat (decodeFixed32 word))) then
        .ok (.error (Status.new .Corruption
          ("checksum verification failed for block at " ++ toString off)))
      else unpackBlock opt ctype data := by
  have hsum : wordAdd data.length (tableBlockCksumLen + tableBlockCompressLen) =
      .ok (data.length + 5) := by
    apply wordAdd_of_lt
    have hlimit : maxAllocation + 5 < wordLimit := by decide
    simp only [tableBlockCksumLen, tableBlockCompressLen]
    omega
  have hlen : (data ++ ctype :: word).length = data.length + 5 := by
    rw [List.length_append, List.length_cons, hword]
  have hread := readBytes_holds h (by rwa [hlen])
  rw [hlen] at hread
  simp only [readTableBlock, hsum, ok_bind, hread]
  simp only [List.take_left, List.drop_left, List.head?_cons, unwrap_some, ok_bind,
    tableBlockCompressLen, List.drop_succ_cons, List.drop_zero]
  rfl

/-- A block is read back from its envelope. -/
theorem readTableBlock_stored {opt : Options} {f : RandomAccess} {off : Nat}
    {ctype : CompressionType} {block data : Bytes} (hlong : 4 < block.length)
    (hcompress : compressBlock ctype block = .ok data) (h : f.Holds off (envelope ctype data))
    (hsize : data.length + 5 ≤ maxAllocation) :
    readTableBlock opt f { offset := off, size := data.length } =
      .ok (.ok { block := block, opt := opt }) := by
  have hverify : verifyTableBlock data ctype.toByte (unmaskCrc (UInt32.ofNat (decodeFixed32
      (encodeFixed32 (storedCrc ctype data).toNat)))) = true := by
    rw [storedCrc, unmaskCrc_word]
    exact beq_self_eq_true _
  have hnew : Block.new opt block = .ok { block := block, opt := opt } := by
    rw [Block.new, ensure_of_true hlong]
    rfl
  rw [envelope, List.singleton_append] at h
  rw [readTableBlock_holds h (leBytes_length _ _) hsize, hverify, Bool.not_true,
    if_neg Bool.false_ne_true, unpackBlock, intToCompressionType_toByte]
  cases ctype with
  | CompressionNone =>
      rw [compressBlock_none, Except.ok.injEq] at hcompress
      subst hcompress
      rw [hnew]
      rfl
  | CompressionSnappy =>
      have hdecompress : decompressVec data = .ok block :=
        Crates.decompressVec_compressVec _ _ hcompress
      simp only [hdecompress, hnew, ok_bind, pure_eq_ok]

/-- A block with a layout is read back from its envelope. -/
theorem readTableBlock_envelope {opt : Options} {f : RandomAccess} {off : Nat}
    {ctype : CompressionType} {L : BlockLayout} {block data : Bytes} (hblock : block = L.contents)
    (hcompress : compressBlock ctype block = .ok data) (h : f.Holds off (envelope ctype data))
    (hsize : data.length + 5 ≤ maxAllocation) :
    readTableBlock opt f { offset := off, size := data.length } =
      .ok (.ok { block := L.contents, opt := opt }) := by
  subst hblock
  have hlen := L.contents_length
  have hpos := L.restartIx_length_pos
  exact readTableBlock_stored (by omega) hcompress h hsize

/-! ## Sources that fail -/

/-- Reading a block depends only on what the source delivers at the block's offset. -/
theorem readTableBlock_congr {opt : Options} {f g : RandomAccess} {h : BlockHandle}
    (hsame : ∀ buf, f.readAt h.offset buf = g.readAt h.offset buf) :
    readTableBlock opt f h = readTableBlock opt g h := by
  simp only [readTableBlock, readBytes, hsame]

/-- A block at an offset where the source fails cannot be read. -/
theorem readTableBlock_of_error {opt : Options} {f : RandomAccess} {h : BlockHandle} {e : Status}
    (hfails : ∀ buf, f.readAt h.offset buf = .error e) (hsize : h.size + 5 ≤ maxAllocation) :
    readTableBlock opt f h = .ok (.error e) := by
  have hword : wordAdd h.size (tableBlockCksumLen + tableBlockCompressLen) = .ok (h.size + 5) := by
    apply wordAdd_of_lt
    have hlimit : maxAllocation + 5 < wordLimit := by decide
    simp only [tableBlockCksumLen, tableBlockCompressLen]
    omega
  have hfit : ¬ h.size + 5 > maxAllocation := not_lt.mpr hsize
  simp only [readTableBlock, hword, ok_bind, readBytes, if_neg hfit, hfails, pure_eq_ok]

end SSTable
