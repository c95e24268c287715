import SSTable.Verification.Table.Plan

/-!
# The image of a table

The bytes of a finished table as a function of its plan: every block in its envelope of type
byte and checksum, one after the other, and the footer.

Main results:

- Theorem {lit}`writeBlock_eq`: writing a block appends its envelope and returns its handle.
- Theorem {lit}`mem_place`: every placed data block is found in the image at its handle.
- Theorems {lit}`Footer.encode_eq` and {lit}`Footer.decode_bytes`: the footer round-trips.
-/

namespace SSTable

open Foundation Foundation.Exec Foundation.Bytes

variable [Crates]

/-! ## Blocks in envelopes -/

/-- The bytes of a data block before compression. -/
def Cut.contents (opt : Options) (c : Cut) : Bytes := (BlockBuilder.pushAll opt c.entries).finish

/-- Compress a block as the type asks for. -/
def compressBlock (ctype : CompressionType) (block : Bytes) : Except String Bytes :=
  if ctype = .CompressionSnappy then compressVec block else .ok block

/-- The form in which a block is stored. -/
def stored (ctype : CompressionType) (block : Bytes) : Bytes :=
  (compressBlock ctype block).toOption.getD []

/-- The checksum stored behind a block. -/
def storedCrc (ctype : CompressionType) (data : Bytes) : UInt32 :=
  maskCrc (crc32 (data ++ [ctype.toByte]))

/-- A stored block with its type and its checksum. -/
def envelope (ctype : CompressionType) (data : Bytes) : Bytes :=
  data ++ ([ctype.toByte] ++ encodeFixed32 (storedCrc ctype data).toNat)

@[simp] theorem envelope_length (ctype : CompressionType) (data : Bytes) :
    (envelope ctype data).length = data.length + 5 := by
  simp [envelope, encodeFixed32]

theorem stored_of_ok {ctype : CompressionType} {block data : Bytes}
    (h : compressBlock ctype block = .ok data) : stored ctype block = data := by
  simp [stored, h, Except.toOption]

@[simp] theorem compressBlock_none (block : Bytes) :
    compressBlock .CompressionNone block = .ok block := rfl

@[simp] theorem stored_none (block : Bytes) : stored .CompressionNone block = block := rfl

namespace TableBuilder

/-- A builder whose sink and offset have moved past an envelope. -/
def appended (b : TableBuilder Bytes) (ctype : CompressionType) (data : Bytes) :
    TableBuilder Bytes :=
  { b with dst := b.dst ++ envelope ctype data, offset := b.offset + data.length + 5 }

/-- Writing a block appends its envelope, unless the compressor rejects it. -/
theorem writeBlock_eq (b : TableBuilder Bytes) (block : Bytes) (ctype : CompressionType) :
    b.writeBlock block ctype = match compressBlock ctype block with
      | .error e => (.error (Status.ofSnapError e), b)
      | .ok data => (.ok { offset := b.offset, size := data.length }, b.appended ctype data) := by
  simp only [writeBlock, compressBlock]
  split <;> simp_all [writeFixedInt, appended, envelope, storedCrc, tableBlockCompressLen,
    tableBlockCksumLen]

end TableBuilder

/-! ## The data blocks -/

/-- The place of every data block: it begins where the envelope before it ends. -/
def place (opt : Options) (off : Nat) : List Cut → List (Cut × BlockHandle)
  | [] => []
  | c :: cs =>
      let size := (stored opt.compressionType (c.contents opt)).length
      (c, { offset := off, size := size }) :: place opt (off + size + 5) cs

/-- The bytes of the data blocks. -/
def dataBytes (opt : Options) (cs : List Cut) : Bytes :=
  (cs.map fun c => envelope opt.compressionType (stored opt.compressionType (c.contents opt))).flatten

@[simp] theorem dataBytes_nil (opt : Options) : dataBytes opt [] = [] := rfl

@[simp] theorem dataBytes_cons (opt : Options) (c : Cut) (cs : List Cut) :
    dataBytes opt (c :: cs) =
      envelope opt.compressionType (stored opt.compressionType (c.contents opt)) ++
        dataBytes opt cs := by
  simp [dataBytes]

@[simp] theorem dataBytes_append (opt : Options) (xs ys : List Cut) :
    dataBytes opt (xs ++ ys) = dataBytes opt xs ++ dataBytes opt ys := by
  simp [dataBytes]

theorem place_append (opt : Options) (off : Nat) (xs ys : List Cut) :
    place opt off (xs ++ ys) =
      place opt off xs ++ place opt (off + (dataBytes opt xs).length) ys := by
  induction xs generalizing off with
  | nil => simp [place]
  | cons c xs ih =>
      simp only [List.cons_append, place, ih, dataBytes_cons, List.length_append, envelope_length]
      congr 3
      omega

@[simp] theorem place_map_fst (opt : Options) (off : Nat) (cs : List Cut) :
    (place opt off cs).map Prod.fst = cs := by
  induction cs generalizing off with
  | nil => rfl
  | cons c cs ih => simp [place, ih]

@[simp] theorem place_length (opt : Options) (off : Nat) (cs : List Cut) :
    (place opt off cs).length = cs.length := by
  rw [← List.length_map (f := Prod.fst), place_map_fst]

/-- Every placed data block is found in the image at its handle. -/
theorem mem_place {opt : Options} (pre : Bytes) {cs : List Cut} {c : Cut} {h : BlockHandle}
    (hmem : (c, h) ∈ place opt pre.length cs) :
    ∃ x y, pre ++ dataBytes opt cs =
        x ++ (envelope opt.compressionType (stored opt.compressionType (c.contents opt)) ++ y) ∧
      x.length = h.offset ∧
      h.size = (stored opt.compressionType (c.contents opt)).length := by
  induction cs generalizing pre with
  | nil => simp [place] at hmem
  | cons d cs ih =>
      simp only [place, List.mem_cons, Prod.mk.injEq] at hmem
      rcases hmem with ⟨rfl, rfl⟩ | hmem
      · exact ⟨pre, dataBytes opt cs, by simp, rfl, rfl⟩
      · have hlen : (pre ++ envelope opt.compressionType
            (stored opt.compressionType (d.contents opt))).length =
              pre.length + (stored opt.compressionType (d.contents opt)).length + 5 := by
          simp [Nat.add_assoc]
        rw [← hlen] at hmem
        obtain ⟨x, y, hsplit, hx, hsize⟩ := ih _ hmem
        refine ⟨x, y, ?_, hx, hsize⟩
        rw [dataBytes_cons, ← List.append_assoc]
        exact hsplit

/-! ## The footer -/

/-- The bytes of a footer. -/
def Footer.bytes (f : Footer) : Bytes :=
  f.metaIndex.encode ++ (f.index.encode ++
    (List.replicate (footerLength - (f.metaIndex.encode.length + f.index.encode.length)) 0 ++
      magicFooterEncoded))

/-- The handles of the footer leave room for each other. -/
def Footer.Short (f : Footer) : Prop :=
  f.metaIndex.encode.length + f.index.encode.length ≤ footerLength

theorem Footer.bytes_length {f : Footer} (h : f.Short) : f.bytes.length = fullFooterLength := by
  unfold Footer.Short at h
  simp only [bytes, List.length_append, List.length_replicate, magicFooterEncoded, List.length_cons,
    List.length_nil, fullFooterLength]
  omega

/-- The handles are encoded behind one another at the front of a buffer. -/
theorem Footer.encode_handles {f : Footer} (h : f.Short) {dst : Bytes}
    (hlen : fullFooterLength ≤ dst.length) :
    f.metaIndex.encodeTo dst =
        .ok (f.metaIndex.encode.length, f.metaIndex.encode ++ dst.drop f.metaIndex.encode.length) ∧
      f.index.encodeTo (dst.drop f.metaIndex.encode.length) =
        .ok (f.index.encode.length, f.index.encode ++
          dst.drop (f.metaIndex.encode ++ f.index.encode).length) := by
  unfold Footer.Short at h
  have hfooter : footerLength = 40 := rfl
  have hfull : fullFooterLength = 48 := rfl
  constructor
  · apply BlockHandle.encodeTo_eq
    omega
  · rw [List.length_append, ← List.drop_drop]
    apply BlockHandle.encodeTo_eq
    rw [List.length_drop]
    omega

/-- A footer is encoded at the front of a buffer, whatever the buffer holds. -/
theorem Footer.encode_into {f : Footer} (h : f.Short) {dst : Bytes}
    (hlen : fullFooterLength ≤ dst.length) :
    f.encode dst = .ok (f.bytes ++ dst.drop fullFooterLength) := by
  obtain ⟨hmeta, hindex⟩ := Footer.encode_handles h hlen
  have hrest := sliceFrom_append f.metaIndex.encode (dst.drop f.metaIndex.encode.length)
  have hfooter : footerLength = 40 := rfl
  have hfull : fullFooterLength = 48 := rfl
  have hlong : dst.length ≥ 40 + 8 := hlen
  unfold Footer.Short at h
  simp only [encode, hfooter, hfull, ensure_of_true hlong, hmeta, hrest, hindex, ok_bind, pure_eq_ok,
    Except.ok.injEq, List.take_left, bytes, ← List.append_assoc]
  -- The two handles, then zeros up to the magic number, then what the buffer held.
  obtain ⟨x, hx⟩ : ∃ x, x = f.metaIndex.encode ++ f.index.encode := ⟨_, rfl⟩
  have hsum : f.metaIndex.encode.length + f.index.encode.length = x.length := by
    rw [hx, List.length_append]
  rw [hsum, hfooter] at h
  obtain ⟨y, hy⟩ : ∃ y, y = x ++ List.replicate (40 - x.length) (0 : UInt8) := ⟨_, rfl⟩
  have hforty : y.length = 40 := by
    rw [hy, List.length_append, List.length_replicate]
    omega
  have hbehind : (x ++ dst.drop x.length).drop (max 40 x.length) = dst.drop y.length := by
    rw [Nat.max_eq_left h, drop_overwrite h, hforty]
  have hmagic : (y ++ dst.drop y.length).drop 48 = dst.drop 48 := drop_overwrite (by omega)
  rw [← hx, hsum, List.take_left, hbehind, ← hy, List.take_left' hforty, hmagic]

/-- A footer is encoded into a cleared buffer. -/
theorem Footer.encode_eq {f : Footer} (h : f.Short) :
    f.encode (List.replicate fullFooterLength 0) = .ok f.bytes := by
  rw [Footer.encode_into h (List.length_replicate).ge, List.drop_replicate, Nat.sub_self,
    List.replicate_zero, List.append_nil]

/-- A footer is read back. -/
theorem Footer.decode_bytes {f : Footer} (h : f.Short) (hmeta : f.metaIndex.Fits)
    (hindex : f.index.Fits) : Footer.decode f.bytes = .ok f := by
  have hlen := Footer.bytes_length h
  have hge : f.bytes.length ≥ fullFooterLength := hlen.ge
  have hmagic : f.bytes.drop footerLength = magicFooterEncoded := by
    unfold Footer.Short at h
    have hfront : (f.metaIndex.encode ++ (f.index.encode ++ List.replicate (footerLength -
        (f.metaIndex.encode.length + f.index.encode.length)) 0)).length = footerLength := by
      simp only [List.length_append, List.length_replicate]
      omega
    rw [bytes, ← List.append_assoc f.index.encode, ← List.append_assoc f.metaIndex.encode]
    exact List.drop_left' hfront
  have hfirst : BlockHandle.decode f.bytes = .ok (f.metaIndex, f.metaIndex.encode.length) :=
    BlockHandle.decode_encode hmeta _
  have hrest := sliceFrom_append f.metaIndex.encode (f.index.encode ++
    (List.replicate (footerLength - (f.metaIndex.encode.length + f.index.encode.length)) 0 ++
      magicFooterEncoded))
  have hsecond := BlockHandle.decode_encode hindex
    (List.replicate (footerLength - (f.metaIndex.encode.length + f.index.encode.length)) 0 ++
      magicFooterEncoded)
  rw [← bytes] at hrest
  simp only [decode, ensure_of_true hge, hmagic, ensure_of_true, ok_bind, hfirst, hrest, hsecond,
    pure_eq_ok]

/-! ## The whole file -/

/-- The keys of every data block, with the offset at which the block after it begins. -/
def filterFeed (opt : Options) (cs : List Cut) : List (List Bytes × Nat) :=
  (place opt 0 cs).map fun p => (keysOf p.1.entries, p.2.offset + p.2.size + 5)

/-- The bytes of the filter block. -/
def filterBytes (opt : Options) (cs : List Cut) : Exec Bytes := do
  let fb ← (FilterBlockBuilder.new opt.filterPolicy).feed (filterFeed opt cs)
  fb.finish

/-- The entries of the index block: the separator and the handle of every data block. -/
def indexEntries (opt : Options) (cs : List Cut) : List Entry :=
  (place opt 0 cs).map fun p => (p.1.sep, p.2.encode)

def indexContents (opt : Options) (cs : List Cut) : Bytes :=
  (BlockBuilder.pushAll opt (indexEntries opt cs)).finish

def filterHandle (opt : Options) (cs : List Cut) (fb : Bytes) : BlockHandle where
  offset := (dataBytes opt cs).length
  size := fb.length

/-- The entries of the metaindex block: the name and the handle of the filter block. -/
def metaIndexEntries (opt : Options) (cs : List Cut) (fb : Bytes) : List Entry :=
  [(TableBuilder.filterKey opt.filterPolicy.name, (filterHandle opt cs fb).encode)]

def metaIndexContents (opt : Options) (cs : List Cut) (fb : Bytes) : Bytes :=
  (BlockBuilder.pushAll opt (metaIndexEntries opt cs fb)).finish

/-- The data blocks and the filter block. -/
def frontBytes (opt : Options) (cs : List Cut) (fb : Bytes) : Bytes :=
  dataBytes opt cs ++ envelope .CompressionNone fb

/-- The handles of the metaindex block and of the index block. -/
def fileFooter (opt : Options) (cs : List Cut) (fb : Bytes) : Footer :=
  let metaSize := (stored opt.compressionType (metaIndexContents opt cs fb)).length
  { metaIndex := { offset := (frontBytes opt cs fb).length, size := metaSize }
    index :=
      { offset := (frontBytes opt cs fb).length + metaSize + 5
        size := (stored opt.compressionType (indexContents opt cs)).length } }

/-- The bytes of the table in front of its footer. -/
def bodyBytes (opt : Options) (cs : List Cut) (fb : Bytes) : Bytes :=
  frontBytes opt cs fb ++
    (envelope opt.compressionType (stored opt.compressionType (metaIndexContents opt cs fb)) ++
      envelope opt.compressionType (stored opt.compressionType (indexContents opt cs)))

/-- The bytes of the table. -/
def fileBytes (opt : Options) (cs : List Cut) (fb : Bytes) : Bytes :=
  bodyBytes opt cs fb ++ (fileFooter opt cs fb).bytes

theorem indexEntries_append (opt : Options) (cs : List Cut) (c : Cut) :
    indexEntries opt (cs ++ [c]) = indexEntries opt cs ++
      [(c.sep, BlockHandle.encode
        { offset := (dataBytes opt cs).length
          size := (stored opt.compressionType (c.contents opt)).length })] := by
  simp [indexEntries, place_append, place]

theorem filterFeed_append (opt : Options) (cs : List Cut) (c : Cut) :
    filterFeed opt (cs ++ [c]) = filterFeed opt cs ++
      [(keysOf c.entries, (dataBytes opt (cs ++ [c])).length)] := by
  simp [filterFeed, place_append, place, Nat.add_assoc]

@[simp] theorem keysOf_indexEntries (opt : Options) (cs : List Cut) :
    keysOf (indexEntries opt cs) = cs.map Cut.sep := by
  have hmap := congrArg (List.map Cut.sep) (place_map_fst opt 0 cs)
  rw [List.map_map] at hmap
  rw [← hmap]
  simp [keysOf, indexEntries]

end SSTable
