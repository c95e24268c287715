import SSTable.Verification.Block.Raw
import SSTable.Verification.Cache.Map
import SSTable.Verification.Filter.Block
import SSTable.Verification.Table.RoundTrip

/-!
# Opening any file

A file that is opened may hold any bytes.  Some damage is reported, and some stops the reader:
this module says which.

Main results:

- Theorem {lit}`readTableBlock_returns_iff`: which blocks can be read.
- Theorem {lit}`open_returns_iff`: which files can be opened, or are refused.
- Theorem {lit}`open_stops`: files that stop the reader.
-/

namespace SSTable

open Foundation Foundation.Exec Foundation.Bytes

/-! ## Bytes of a file -/

/-- The bytes that are read at an offset; behind the end of the file they are zero. -/
def bytesAt (img : Bytes) (off size : Nat) : Bytes :=
  (img.drop off).take size ++ List.replicate (size - (img.length - off)) 0

@[simp] theorem bytesAt_length (img : Bytes) (off size : Nat) :
    (bytesAt img off size).length = size := by
  rw [bytesAt, List.length_append, List.length_take, List.length_drop, List.length_replicate]
  omega

/-- A file holds the bytes that are read from it. -/
theorem holds_bytesAt (img : Bytes) (off size : Nat) :
    (BufferBackedFile img).Holds off (bytesAt img off size) := by
  have htake : (img.drop off).take (min size (img.length - off)) = (img.drop off).take size := by
    rw [← List.length_drop, ← List.take_take, List.take_length]
  have hzeros : size - min size (img.length - off) = size - (img.length - off) := by omega
  use min size (img.length - off)
  refine (bufferReadAt_eq img off _).trans ?_
  rw [bytesAt_length, List.length_replicate, List.drop_replicate, htake, hzeros]
  rfl

section

variable [Crates]

/-- The handle at the front of a string, and how many bytes it takes. -/
def HandleAt (b : Bytes) (h : BlockHandle) (n : Nat) : Prop :=
  ∃ offsize szsize, decodeVar b = some (h.offset, offsize) ∧
    decodeVar (b.drop offsize) = some (h.size, szsize) ∧ n = offsize + szsize

/-- A handle is decoded exactly if both of its integers end. -/
theorem BlockHandle.decode_eq_ok_iff {b : Bytes} {h : BlockHandle} {n : Nat} :
    BlockHandle.decode b = .ok (h, n) ↔ HandleAt b h n := by
  simp only [decode, bind_eq_ok_iff, unwrap_eq_ok_iff, pure_eq_ok, Except.ok.injEq, Prod.mk.injEq,
    Prod.exists, HandleAt]
  constructor
  · rintro ⟨off, offsize, hoff, rest, hrest, size, szsize, hsize, rfl, rfl⟩
    obtain ⟨-, rfl⟩ := sliceFrom_eq_ok_iff.mp hrest
    exact ⟨offsize, szsize, hoff, hsize, rfl⟩
  · rintro ⟨offsize, szsize, hoff, hsize, rfl⟩
    have hbounds := Crates.decodeVar_bounds _ _ _ hoff
    exact ⟨_, offsize, hoff, _, sliceFrom_of_le hbounds.2.2, _, szsize, hsize, rfl, rfl⟩

/-- A file ends with a footer: there is room for it, the magic number is right, and its handles
end. -/
def FooterAt (img : Bytes) (footer : Footer) : Prop :=
  fullFooterLength ≤ img.length ∧
    (img.drop (img.length - fullFooterLength)).drop footerLength = magicFooterEncoded ∧
    ∃ n m, HandleAt (img.drop (img.length - fullFooterLength)) footer.metaIndex n ∧
      HandleAt ((img.drop (img.length - fullFooterLength)).drop n) footer.index m

/-- The footer of a file is read exactly if there is one. -/
theorem readFooter_eq_ok_iff {img : Bytes} {r : Result Footer} :
    readFooter (BufferBackedFile img) img.length = .ok r ↔
      ∃ footer, FooterAt img footer ∧ r = .ok footer := by
  by_cases hlong : fullFooterLength ≤ img.length
  · have hoff : img.length - (img.length - fullFooterLength) = fullFooterLength := by omega
    have hread : (BufferBackedFile img).readAt (img.length - fullFooterLength)
        (List.replicate fullFooterLength 0) =
          .ok (fullFooterLength, img.drop (img.length - fullFooterLength)) := by
      refine (bufferReadAt_eq img _ _).trans ?_
      rw [List.length_replicate, hoff, Nat.min_self, List.take_of_length_le, List.drop_replicate,
        Nat.sub_self, List.replicate_zero, List.append_nil]
      rw [List.length_drop, hoff]
    have hlen : (img.drop (img.length - fullFooterLength)).length = fullFooterLength := by
      rw [List.length_drop, hoff]
    simp only [readFooter, wordSub_of_le hlong, ok_bind, hread, bind_eq_ok_iff, Footer.decode,
      ensure_eq_ok_iff, hlen, pure_eq_ok, Except.ok.injEq, Prod.exists, BlockHandle.decode_eq_ok_iff,
      FooterAt]
    constructor
    · rintro ⟨footer, ⟨-, -, -, hmagic, metaix, n, hmeta, rest, hrest, ix, m, hindex, rfl⟩, rfl⟩
      obtain ⟨-, rfl⟩ := sliceFrom_eq_ok_iff.mp hrest
      exact ⟨_, ⟨hlong, hmagic, n, m, hmeta, hindex⟩, rfl⟩
    · rintro ⟨footer, ⟨-, hmagic, n, m, hmeta, hindex⟩, rfl⟩
      have hn : n ≤ (img.drop (img.length - fullFooterLength)).length := by
        obtain ⟨l₁, l₂, h₁, h₂, rfl⟩ := hmeta
        have hb₁ := Crates.decodeVar_bounds _ _ _ h₁
        have hb₂ := Crates.decodeVar_bounds _ _ _ h₂
        rw [List.length_drop] at hb₂
        omega
      exact ⟨footer, ⟨(), le_rfl, (), hmagic, _, n, hmeta, _, sliceFrom_of_le hn, _, m, hindex, rfl⟩,
        rfl⟩
  · constructor
    · intro h
      rw [readFooter, bind_eq_ok_iff] at h
      obtain ⟨off, hoff, -⟩ := h
      exact absurd (wordSub_eq_ok_iff.mp hoff).1 hlong
    · rintro ⟨-, ⟨h, -⟩, -⟩
      exact absurd h hlong

/-! ## Blocks of a file -/

/-- A block as its compression type says it is stored. -/
def unpackContents (ctype : UInt8) (data : Bytes) : Option Bytes :=
  match intToCompressionType ctype.toNat with
  | some .CompressionNone => some data
  | some .CompressionSnappy => (decompressVec data).toOption
  | none => none

/-- The contents of the block at a handle, if its checksum is right and it can be unpacked. -/
def contentsAt (img : Bytes) (h : BlockHandle) : Option Bytes :=
  let buf := bytesAt img h.offset (h.size + 5)
  match buf.drop h.size with
  | ctype :: word =>
      if verifyTableBlock (buf.take h.size) ctype
          (unmaskCrc (UInt32.ofNat (decodeFixed32 word))) then
        unpackContents ctype (buf.take h.size)
      else
        none
  | [] => none

/-- A block at a handle does not stop the reader: there is memory for it, and the contents, if they
are used, are longer than their last word. -/
def Readable (img : Bytes) (h : BlockHandle) : Prop :=
  h.size + 5 ≤ maxAllocation ∧ ∀ contents, contentsAt img h = some contents → 4 < contents.length

variable {img : Bytes} {h : BlockHandle}

/-- Unpacking stops only at contents that are too short. -/
theorem unpackBlock_eq (opt : Options) (ctype : UInt8) (data : Bytes) :
    (∃ e, unpackContents ctype data = none ∧ unpackBlock opt ctype data = .ok (.error e)) ∨
      ∃ contents, unpackContents ctype data = some contents ∧
        unpackBlock opt ctype data =
          if 4 < contents.length then .ok (.ok { block := contents, opt := opt })
          else .error .assertion := by
  have hnew : ∀ contents : Bytes, (Block.new opt contents >>= fun block => pure (.ok block)) =
      if 4 < contents.length then (.ok (.ok { block := contents, opt := opt }) : Exec (Result Block))
      else .error .assertion := by
    intro contents
    by_cases hlong : 4 < contents.length
    · rw [Block.new, ensure_of_true hlong, if_pos hlong]
      rfl
    · rw [Block.new, ensure_of_false hlong, if_neg hlong]
      rfl
  unfold unpackContents unpackBlock
  cases intToCompressionType ctype.toNat with
  | none => exact Or.inl ⟨_, rfl, rfl⟩
  | some c =>
      cases c with
      | CompressionNone => exact Or.inr ⟨data, rfl, hnew data⟩
      | CompressionSnappy =>
          cases hdecompress : decompressVec data with
          | error e => exact Or.inl ⟨_, rfl, rfl⟩
          | ok contents => exact Or.inr ⟨contents, rfl, hnew contents⟩

/-- What reading a block comes to, where there is memory for it. -/
theorem readTableBlock_eq (opt : Options) (img : Bytes) {h : BlockHandle}
    (hsize : h.size + 5 ≤ maxAllocation) :
    (∃ e, contentsAt img h = none ∧
        readTableBlock opt (BufferBackedFile img) h = .ok (.error e)) ∨
      ∃ contents, contentsAt img h = some contents ∧
        readTableBlock opt (BufferBackedFile img) h =
          if 4 < contents.length then .ok (.ok { block := contents, opt := opt })
          else .error .assertion := by
  obtain ⟨buf, hbuf⟩ : ∃ buf, buf = bytesAt img h.offset (h.size + 5) := ⟨_, rfl⟩
  have hlen : buf.length = h.size + 5 := by rw [hbuf, bytesAt_length]
  have hholds := holds_bytesAt img h.offset (h.size + 5)
  rw [← hbuf] at hholds
  obtain ⟨ctype, word, htrailer⟩ : ∃ ctype word, buf.drop h.size = ctype :: word := by
    apply List.exists_cons_of_ne_nil
    intro hnil
    rw [List.drop_eq_nil_iff] at hnil
    omega
  have hword : word.length = 4 := by
    have htrailer_len := congrArg List.length htrailer
    rw [List.length_drop, List.length_cons] at htrailer_len
    omega
  have hdata : (buf.take h.size).length = h.size := by
    rw [List.length_take]
    omega
  rw [← List.take_append_drop h.size buf, htrailer] at hholds
  have hread := @readTableBlock_holds _ opt _ _ _ _ _ hholds hword (by rwa [hdata])
  have hhandle : ({ offset := h.offset, size := (buf.take h.size).length } : BlockHandle) = h := by
    rw [hdata]
  rw [hhandle] at hread
  have hcontents : contentsAt img h =
      if verifyTableBlock (buf.take h.size) ctype (unmaskCrc (UInt32.ofNat (decodeFixed32 word)))
      then unpackContents ctype (buf.take h.size) else none := by
    simp only [contentsAt, ← hbuf, htrailer]
  rw [hread, hcontents]
  cases hverify : verifyTableBlock (buf.take h.size) ctype
      (unmaskCrc (UInt32.ofNat (decodeFixed32 word))) with
  | false => exact Or.inl ⟨_, rfl, rfl⟩
  | true => exact unpackBlock_eq opt ctype _

/-- A block is read or refused exactly if it is readable. -/
theorem readTableBlock_returns_iff (opt : Options) :
    (∃ r, readTableBlock opt (BufferBackedFile img) h = .ok r) ↔ Readable img h := by
  by_cases hsize : h.size + 5 ≤ maxAllocation
  · rcases readTableBlock_eq opt img hsize with ⟨e, hnone, hread⟩ | ⟨contents, hsome, hread⟩
    · simp [Readable, hsize, hnone, hread]
    · by_cases hlong : 4 < contents.length
      · simp [Readable, hsize, hsome, hread, hlong]
      · simp [Readable, hsize, hsome, hread, hlong]
  · constructor
    · rintro ⟨r, hread⟩
      simp only [readTableBlock, bind_eq_ok_iff, wordAdd_eq_ok_iff] at hread
      obtain ⟨_, ⟨-, rfl⟩, r', hbytes, -⟩ := hread
      have hmany : h.size + (tableBlockCksumLen + tableBlockCompressLen) > maxAllocation :=
        not_le.mp hsize
      simp only [readBytes, if_pos hmany] at hbytes
      cases hbytes
    · rintro ⟨h, -⟩
      exact absurd h hsize

/-- The block that is read is the contents at the handle. -/
theorem readTableBlock_eq_ok_iff (opt : Options) {b : Block} (hreadable : Readable img h) :
    readTableBlock opt (BufferBackedFile img) h = .ok (.ok b) ↔
      ∃ contents, contentsAt img h = some contents ∧ b = { block := contents, opt := opt } := by
  obtain ⟨hsize, hlong⟩ := hreadable
  rcases readTableBlock_eq opt img hsize with ⟨e, hnone, hread⟩ | ⟨contents, hsome, hread⟩
  · simp [hnone, hread]
  · simp [hsome, hread, hlong contents hsome, eq_comm]

/-! ## Filters of a file -/

/-- The value that is found for a filter does not stop the reader: it begins with a handle whose
size is zero, or is that of a filter block for which there is memory. -/
def FilterReadable (val : Bytes) : Prop :=
  ∃ h n, HandleAt val h n ∧ (0 < h.size → 5 ≤ h.size ∧ h.size ≤ maxAllocation)

omit [Crates] in
/-- Whatever it contains, a filter block in a file can be opened if it is long enough. -/
theorem readFilterBlock_returns_iff (img : Bytes) (policy : FilterPolicy) (hpos : 0 < h.size) :
    (∃ r, readFilterBlock (BufferBackedFile img) h policy = .ok r) ↔
      5 ≤ h.size ∧ h.size ≤ maxAllocation := by
  have hsome : ¬ h.size = 0 := hpos.ne'
  by_cases hsize : h.size ≤ maxAllocation
  · have hread : readBytes (BufferBackedFile img) h = .ok (.ok (bytesAt img h.offset h.size)) := by
      have hholds := readBytes_holds (holds_bytesAt img h.offset h.size)
        (by rwa [bytesAt_length])
      rwa [bytesAt_length] at hholds
    simp only [readFilterBlock, if_neg hsome, hread, ok_bind, bind_eq_ok_iff, pure_eq_ok]
    constructor
    · rintro ⟨r, reader, hnew, -⟩
      simp only [FilterBlockReader.new, bind_eq_ok_iff, ensure_eq_ok_iff] at hnew
      obtain ⟨-, hlong, -⟩ := hnew
      rw [bytesAt_length] at hlong
      exact ⟨hlong, hsize⟩
    · rintro ⟨hlong, -⟩
      have hlen : 5 ≤ (bytesAt img h.offset h.size).length := by rwa [bytesAt_length]
      obtain ⟨reader, hnew⟩ := FilterBlockReader.new_total policy hlen
      exact ⟨_, reader, hnew, rfl⟩
  · have hmany : h.size > maxAllocation := not_le.mp hsize
    constructor
    · rintro ⟨r, hread⟩
      simp only [readFilterBlock, if_neg hsome, readBytes, if_pos hmany] at hread
      cases hread
    · rintro ⟨-, hle⟩
      exact absurd hle hsize

/-- The filters of a table are read or refused exactly if the metaindex can be searched for their
name, and the value that is found does not stop the reader. -/
theorem Table.readFilterBlock_returns_iff {opt : Options} {metaix : Block} (hlong : 4 < metaix.block.length) :
    (∃ r, Table.readFilterBlock metaix (BufferBackedFile img) opt = .ok r) ↔
      ∃ entry, Searched metaix.opt.cmp metaix.block
          (TableBuilder.filterKey opt.filterPolicy.name) entry ∧
        ∀ key val, entry = some (key, val) → FilterReadable val := by
  constructor
  · rintro ⟨r, hread⟩
    simp only [Table.readFilterBlock, bind_eq_ok_iff] at hread
    obtain ⟨it, hiter, it', hseek, entry, hcurrent, hread⟩ := hread
    refine ⟨entry, (search_eq_ok_iff hlong entry).mp ?_, ?_⟩
    · rw [hiter, ok_bind, hseek, ok_bind, hcurrent]
    · rintro key val rfl
      simp only [bind_eq_ok_iff, Prod.exists, BlockHandle.decode_eq_ok_iff] at hread
      obtain ⟨h, n, hhandle, hread⟩ := hread
      refine ⟨h, n, hhandle, ?_⟩
      intro hpos
      rw [if_pos hpos, bind_eq_ok_iff] at hread
      obtain ⟨r', hfilter, -⟩ := hread
      exact (SSTable.readFilterBlock_returns_iff img _ hpos).mp ⟨r', hfilter⟩
  · rintro ⟨entry, hsearched, hvalue⟩
    have hsearch := (search_eq_ok_iff hlong entry).mpr hsearched
    simp only [bind_eq_ok_iff] at hsearch
    obtain ⟨it, hiter, it', hseek, hcurrent⟩ := hsearch
    simp only [Table.readFilterBlock, hiter, hseek, hcurrent, ok_bind]
    cases entry with
    | none => exact ⟨_, rfl⟩
    | some e =>
        obtain ⟨h, n, hhandle, hsize⟩ := hvalue e.1 e.2 rfl
        simp only [BlockHandle.decode_eq_ok_iff.mpr hhandle, ok_bind]
        by_cases hpos : 0 < h.size
        · obtain ⟨r, hfilter⟩ :=
            (SSTable.readFilterBlock_returns_iff img opt.filterPolicy hpos).mpr (hsize hpos)
          rw [if_pos hpos, hfilter, ok_bind]
          cases r with
          | error e => exact ⟨_, rfl⟩
          | ok reader => exact ⟨_, rfl⟩
        · rw [if_neg hpos]
          exact ⟨_, rfl⟩

/-! ## Files -/

/-- A file can be opened, or is refused: it ends with a footer, and the index block does not stop
the reader; if there is an index block, neither does the metaindex block; and if there is one, it
can be searched for the filters, and what is found does not stop the reader. -/
def Openable (opt : Options) (img : Bytes) : Prop :=
  ∃ footer, FooterAt img footer ∧ Readable img footer.index ∧
    ∀ index, contentsAt img footer.index = some index → Readable img footer.metaIndex ∧
      ∀ metaix, contentsAt img footer.metaIndex = some metaix →
        ∃ entry, Searched opt.cmp metaix (TableBuilder.filterKey opt.filterPolicy.name) entry ∧
          ∀ key val, entry = some (key, val) → FilterReadable val

end

/-- Opening a file that may hold any bytes does not stop the reader, exactly if the file is
openable. -/
theorem open_returns_iff [Crates] (opt : Options) (img : Bytes) (c : BlockCache)
    (hid : c.id + 1 < wordLimit) :
    (∃ r, Table.new opt (BufferBackedFile img) img.length c = .ok r) ↔ Openable opt img := by
  constructor
  · rintro ⟨r, hopen⟩
    simp only [Table.new, bind_eq_ok_iff] at hopen
    obtain ⟨_, hfooter, hopen⟩ := hopen
    obtain ⟨footer, hfooterAt, rfl⟩ := readFooter_eq_ok_iff.mp hfooter
    simp only [bind_eq_ok_iff] at hopen
    obtain ⟨r₁, hindex, hopen⟩ := hopen
    have hreadable := (readTableBlock_returns_iff opt).mp ⟨r₁, hindex⟩
    refine ⟨footer, hfooterAt, hreadable, ?_⟩
    intro index hcontents
    have hblock := (readTableBlock_eq_ok_iff opt hreadable).mpr ⟨index, hcontents, rfl⟩
    rw [hindex, Except.ok.injEq] at hblock
    subst hblock
    simp only [bind_eq_ok_iff] at hopen
    obtain ⟨r₂, hmeta, hopen⟩ := hopen
    have hreadable₂ := (readTableBlock_returns_iff opt).mp ⟨r₂, hmeta⟩
    refine ⟨hreadable₂, ?_⟩
    intro metaix hcontents₂
    have hblock := (readTableBlock_eq_ok_iff opt hreadable₂).mpr ⟨metaix, hcontents₂, rfl⟩
    rw [hmeta, Except.ok.injEq] at hblock
    subst hblock
    simp only [bind_eq_ok_iff] at hopen
    obtain ⟨r₃, hfilters, -⟩ := hopen
    have hlong : 4 < ({ block := metaix, opt := opt } : Block).block.length :=
      hreadable₂.2 metaix hcontents₂
    exact (Table.readFilterBlock_returns_iff hlong).mp ⟨r₃, hfilters⟩
  · rintro ⟨footer, hfooterAt, hreadable, hrest⟩
    have hfooter := readFooter_eq_ok_iff.mpr ⟨footer, hfooterAt, rfl⟩
    obtain ⟨r₁, hindex⟩ := (readTableBlock_returns_iff opt).mpr hreadable
    have hnew : c.newCacheId = .ok (c.id + 1, { c with id := c.id + 1 }) :=
      Cache.newCacheId_eq_ok_iff.mpr ⟨hid, rfl⟩
    simp only [Table.new, hfooter, hindex, ok_bind]
    cases r₁ with
    | error e => exact ⟨_, rfl⟩
    | ok b =>
        obtain ⟨index, hcontents, rfl⟩ := (readTableBlock_eq_ok_iff opt hreadable).mp hindex
        obtain ⟨hreadable₂, hsearch⟩ := hrest index hcontents
        obtain ⟨r₂, hmeta⟩ := (readTableBlock_returns_iff opt).mpr hreadable₂
        simp only [hmeta, ok_bind]
        cases r₂ with
        | error e => exact ⟨_, rfl⟩
        | ok b₂ =>
            obtain ⟨metaix, hcontents₂, rfl⟩ := (readTableBlock_eq_ok_iff opt hreadable₂).mp hmeta
            have hlong : 4 < ({ block := metaix, opt := opt } : Block).block.length :=
              hreadable₂.2 metaix hcontents₂
            have hreads : ∃ r, Table.readFilterBlock { block := metaix, opt := opt }
                (BufferBackedFile img) opt = .ok r :=
              (Table.readFilterBlock_returns_iff hlong).mpr (hsearch metaix hcontents₂)
            obtain ⟨r₃, hfilters⟩ := hreads
            simp only [hfilters, ok_bind]
            cases r₃ with
            | error e => exact ⟨_, rfl⟩
            | ok filters =>
                simp only [hnew, ok_bind]
                exact ⟨_, rfl⟩

/-- Opening the file of three keys. -/
theorem open_returns_iff_neighbours : letI := referenceCrates
    (∃ r, Table.new .default (BufferBackedFile neighboursImage) neighboursImage.length smallCache =
      .ok r) ↔ Openable .default neighboursImage :=
  letI := referenceCrates
  open_returns_iff .default neighboursImage smallCache (by decide)

/-- Four files that stop the reader: an empty one, one without the magic number, one whose first
handle does not end, and one whose index block is said to be larger than any word. -/
theorem open_stops : letI := referenceCrates
    (∀ r, Table.new .default (BufferBackedFile []) 0 smallCache ≠ .ok r) ∧
      Table.new .default (BufferBackedFile []) 0 smallCache = .error .arithmetic ∧
      Table.new .default (BufferBackedFile (List.replicate 48 0)) 48 smallCache =
        .error .assertion ∧
      Table.new .default (BufferBackedFile (List.replicate 40 0x80 ++ magicFooterEncoded)) 48
        smallCache = .error .unwrapNone ∧
      Table.new .default (BufferBackedFile ([0, 0, 0] ++ List.replicate 9 0xff ++ [1] ++
        List.replicate 27 0 ++ magicFooterEncoded)) 48 smallCache = .error .arithmetic := by
  let := referenceCrates
  refine ⟨?_, rfl, rfl, rfl, rfl⟩
  intro r hopen
  cases hopen

end SSTable
