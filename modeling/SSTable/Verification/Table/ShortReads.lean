import SSTable.Verification.Table.Sharing

/-!
# Sources that return less than they are asked for

A read may fill a part of its buffer and report how much it filled.  The readers ignore the report.
What is missing is zero in the buffer: a block with a wrong checksum is refused, but the footer and
the filter block have none, and an iterator passes over a block that is refused.

Main results:

- Theorem {lit}`Table.new_short_iff`: when a table is opened as it is from a source that fills every
  buffer, or not at all.
- Theorem {lit}`Table.step_sameOrFails`: what one lookup or one step of a scan does then.
- Theorem {lit}`short_reads`: so do whole runs.
-/

namespace SSTable

open Foundation Foundation.Exec Foundation.Bytes Foundation.Calls

/-! ## Reads of a file -/

/-- A source returns bytes of a file, at least one where there is one, but perhaps not as many as are
asked for. -/
def ShortReads (img : Bytes) (f : RandomAccess) : Prop :=
  ∀ off dst, ∃ n, f.readAt off dst = .ok (n, (img.drop off).take n ++ dst.drop n) ∧
    n ≤ min dst.length (img.length - off) ∧ (0 < min dst.length (img.length - off) → 0 < n)

/-- A read leaves in a cleared buffer what it holds once it is filled. -/
def FullRead (img : Bytes) (f : RandomAccess) (off size : Nat) : Prop :=
  ∃ n m buf, f.readAt off (List.replicate size 0) = .ok (n, buf) ∧
    bufferReadAt img off (List.replicate size 0) = .ok (m, buf)

/-- A source that fills every buffer. -/
theorem shortReads_buffer (img : Bytes) : ShortReads img (BufferBackedFile img) :=
  fun off dst => ⟨_, bufferReadAt_eq img off dst, le_rfl, id⟩

/-- A read that returns as many bytes as there are to be read is not short. -/
theorem ShortReads.full_of_count {img : Bytes} {f : RandomAccess} (hf : ShortReads img f)
    {off size n : Nat} {buf : Bytes} (hread : f.readAt off (List.replicate size 0) = .ok (n, buf))
    (hcount : min size (img.length - off) ≤ n) : FullRead img f off size := by
  obtain ⟨k, hshort, hk, -⟩ := hf off (List.replicate size 0)
  rw [hread] at hshort
  obtain ⟨rfl, rfl⟩ := Prod.mk.inj (Except.ok.inj hshort)
  rw [List.length_replicate] at hk
  obtain rfl := le_antisymm hk hcount
  refine ⟨_, min size (img.length - off), _, hread, ?_⟩
  rw [bufferReadAt_eq, List.length_replicate]

/-- A source that reads at most some bytes at an offset. -/
def shortFile (img : Bytes) (at_ limit : Nat) : RandomAccess where
  readAt off dst :=
    if off = at_ then
      let n := min limit (min dst.length (img.length - off))
      .ok (n, (img.drop off).take n ++ dst.drop n)
    else
      bufferReadAt img off dst
  readAt_length := by
    intro off dst n dst' h
    split at h
    · simp only [Except.ok.injEq, Prod.mk.injEq] at h
      rw [← h.2, List.length_append, List.length_take, List.length_drop, List.length_drop]
      omega
    · exact bufferReadAt_length h

theorem shortReads_shortFile (img : Bytes) (at_ : Nat) {limit : Nat} (hpos : 0 < limit) :
    ShortReads img (shortFile img at_ limit) := by
  intro off dst
  by_cases hoff : off = at_
  · refine ⟨min limit (min dst.length (img.length - off)), by simp [shortFile, hoff], ?_, ?_⟩
    · exact Nat.min_le_right _ _
    · intro hsome
      exact Nat.lt_min.mpr ⟨hpos, hsome⟩
  · obtain ⟨n, hread, hn⟩ := shortReads_buffer img off dst
    refine ⟨n, ?_, hn⟩
    rw [← hread]
    simp [shortFile, hoff, BufferBackedFile]

section

variable {opt : Options} {img : Bytes} {f : RandomAccess} {n : Nat} {h : BlockHandle}

/-- A read that leaves the same is the same. -/
theorem readBytes_full (hfull : FullRead img f h.offset h.size) :
    readBytes f h = readBytes (BufferBackedFile img) h := by
  obtain ⟨n, m, buf, hread, hsame⟩ := hfull
  have hsame : (BufferBackedFile img).readAt h.offset (List.replicate h.size 0) = .ok (m, buf) := hsame
  simp only [readBytes, hread, hsame]

theorem magic_getLast : magicFooterEncoded.getLast? = some 0xdb := rfl

theorem FilterBlockReader.new_block {policy : FilterPolicy} {data : Bytes} {r : FilterBlockReader}
    (hnew : FilterBlockReader.new policy data = .ok r) : r.block = data := by
  simp only [FilterBlockReader.new, bind_eq_ok_iff, pure_eq_ok, Except.ok.injEq] at hnew
  obtain ⟨-, -, -, -, -, -, rfl⟩ := hnew
  rfl

/-- A filter block is read as it is from a source that fills every buffer exactly if its read fills
the buffer. -/
theorem filterBlock_short_iff (hf : ShortReads img f) {policy : FilterPolicy}
    {reader : FilterBlockReader}
    (hread : SSTable.readFilterBlock (BufferBackedFile img) h policy = .ok (.ok reader)) :
    ((∃ e, SSTable.readFilterBlock f h policy = .ok (.error e)) ∨
      SSTable.readFilterBlock f h policy = .ok (.ok reader)) ↔ FullRead img f h.offset h.size := by
  constructor
  · intro hshort
    by_cases hzero : h.size = 0
    · simp [SSTable.readFilterBlock, hzero] at hread
    · simp only [SSTable.readFilterBlock, if_neg hzero, bind_eq_ok_iff] at hread hshort
      obtain ⟨bytes, hbytes, hread⟩ := hread
      have hfit : ¬ h.size > maxAllocation := by
        intro hbig
        simp [readBytes, hbig, throw, throwThe, MonadExceptOf.throw] at hbytes
      obtain ⟨k, hbuf, -⟩ := hf h.offset (List.replicate h.size 0)
      have hfull := bufferReadAt_eq img h.offset (List.replicate h.size 0)
      have hfull' : (BufferBackedFile img).readAt h.offset (List.replicate h.size 0) = _ := hfull
      simp only [readBytes, if_neg hfit, hfull', pure_eq_ok, Except.ok.injEq] at hbytes
      subst hbytes
      simp only [bind_eq_ok_iff, pure_eq_ok, Except.ok.injEq] at hread
      obtain ⟨reader', hnew, rfl⟩ := hread
      simp only [readBytes, if_neg hfit, hbuf, pure_eq_ok] at hshort
      rcases hshort with ⟨e, buf, hsame, hshort⟩ | ⟨buf, hsame, hshort⟩
      · obtain rfl := Except.ok.inj hsame
        simp [bind_eq_ok_iff] at hshort
      · obtain rfl := Except.ok.inj hsame
        simp only [bind_eq_ok_iff, Except.ok.injEq] at hshort
        obtain ⟨reader'', hnew', rfl⟩ := hshort
        have hblock := (FilterBlockReader.new_block hnew').symm.trans
          (FilterBlockReader.new_block hnew)
        refine ⟨k, min (List.replicate h.size (0 : UInt8)).length (img.length - h.offset), _, hbuf, ?_⟩
        rw [hblock]
        exact hfull
  · intro hfull
    right
    rw [← hread]
    unfold SSTable.readFilterBlock
    rw [readBytes_full hfull]

variable [Crates]

/-- The place of a block with its type and its checksum. -/
def BlockHandle.enveloped (h : BlockHandle) : BlockHandle where
  offset := h.offset
  size := h.size + (tableBlockCksumLen + tableBlockCompressLen)

/-- A read of a block leaves what it holds once it is filled. -/
def FullBlock (img : Bytes) (f : RandomAccess) (h : BlockHandle) : Prop :=
  FullRead img f h.enveloped.offset h.enveloped.size

/-- The checksum in what a read of a block leaves does not match. -/
def RefusedBlock (f : RandomAccess) (h : BlockHandle) : Prop :=
  ∃ n data ctype cksum,
    f.readAt h.enveloped.offset (List.replicate h.enveloped.size 0) =
      .ok (n, data ++ ctype :: cksum) ∧ data.length = h.size ∧
    verifyTableBlock data ctype (unmaskCrc (UInt32.ofNat (decodeFixed32 cksum))) = false

theorem readTableBlock_full (hfull : FullBlock img f h) :
    readTableBlock opt f h = readTableBlock opt (BufferBackedFile img) h := by
  unfold readTableBlock
  cases hsize : wordAdd h.size (tableBlockCksumLen + tableBlockCompressLen) with
  | error e => simp only [hsize, error_bind]
  | ok size =>
      obtain ⟨-, rfl⟩ := wordAdd_eq_ok_iff.mp hsize
      have hread := readBytes_full (h := h.enveloped) hfull
      rw [BlockHandle.enveloped] at hread
      simp only [hsize, ok_bind, hread]

/-- A block whose checksum does not match is refused, unless it is too long for every source. -/
theorem readTableBlock_refused (hrefused : RefusedBlock f h) (g : RandomAccess) :
    (∃ e, readTableBlock opt f h = .ok (.error e)) ∨
      ∃ e, readTableBlock opt f h = .error e ∧ readTableBlock opt g h = .error e := by
  obtain ⟨n, data, ctype, cksum, hbuf, hlen, hverify⟩ := hrefused
  unfold readTableBlock
  cases hsize : wordAdd h.size (tableBlockCksumLen + tableBlockCompressLen) with
  | error e => exact Or.inr ⟨e, by simp only [hsize, error_bind, and_self]⟩
  | ok size =>
      obtain ⟨-, rfl⟩ := wordAdd_eq_ok_iff.mp hsize
      by_cases hbig : h.enveloped.size > maxAllocation
      · right
        rw [BlockHandle.enveloped] at hbig
        refine ⟨.capacity, ?_⟩
        simp only [hsize, ok_bind, readBytes, if_pos hbig]
        exact ⟨rfl, rfl⟩
      · left
        have hbytes : readBytes f h.enveloped = .ok (.ok (data ++ ctype :: cksum)) := by
          simp only [readBytes, if_neg hbig, hbuf]
          rfl
        rw [BlockHandle.enveloped] at hbytes
        have htake : (data ++ ctype :: cksum).take h.size = data := List.take_left' hlen
        have hdrop : (data ++ ctype :: cksum).drop h.size = ctype :: cksum := List.drop_left' hlen
        refine ⟨Status.new .Corruption
          ("checksum verification failed for block at " ++ toString h.offset), ?_⟩
        simp only [hsize, ok_bind, hbytes, htake, hdrop, List.head?_cons, unwrap_some]
        simp only [tableBlockCompressLen, List.drop_succ_cons, List.drop_zero, hverify, Bool.not_false,
          if_true, pure_eq_ok]

/-- It is refused if another source can be asked for it. -/
theorem readTableBlock_refused_of_ok (hrefused : RefusedBlock f h) {g : RandomAccess}
    {r : Result Block} (hread : readTableBlock opt g h = .ok r) :
    ∃ e, readTableBlock opt f h = .ok (.error e) := by
  rcases readTableBlock_refused hrefused g with hrefuses | ⟨e, -, he⟩
  · exact hrefuses
  · rw [hread] at he
    cases he

/-! ## Opening -/

theorem readFooter_full (hfull : FullRead img f (n - fullFooterLength) fullFooterLength) :
    readFooter f n = readFooter (BufferBackedFile img) n := by
  obtain ⟨k, m, buf, hread, hsame⟩ := hfull
  have hsame : (BufferBackedFile img).readAt (n - fullFooterLength)
    (List.replicate fullFooterLength 0) = .ok (m, buf) := hsame
  unfold readFooter
  cases hoff : wordSub n fullFooterLength with
  | error e => simp only [error_bind]
  | ok off =>
      obtain ⟨-, rfl⟩ := wordSub_eq_ok_iff.mp hoff
      simp only [ok_bind, hread, hsame]

/-- The magic number does not end in zero, so a footer that is not read whole stops the reader. -/
theorem readFooter_short (hf : ShortReads img f) {footer : Footer}
    (hread : readFooter (BufferBackedFile img) n = .ok (.ok footer))
    (hshort : ¬ FullRead img f (n - fullFooterLength) fullFooterLength) :
    ∃ e, readFooter f n = .error e := by
  obtain ⟨k, hbuf, hk, -⟩ := hf (n - fullFooterLength) (List.replicate fullFooterLength 0)
  have hless : k < fullFooterLength := by
    by_contra hge
    refine hshort (hf.full_of_count hbuf ?_)
    omega
  simp only [readFooter, bind_eq_ok_iff] at hread
  obtain ⟨off, hoff, -⟩ := hread
  obtain ⟨-, rfl⟩ := wordSub_eq_ok_iff.mp hoff
  -- The last byte of the buffer was not read.
  have hmagic : ((img.drop (n - fullFooterLength)).take k ++
      (List.replicate fullFooterLength 0).drop k).drop footerLength ≠ magicFooterEncoded := by
    intro heq
    have hlast := congrArg List.getLast? heq
    rw [magic_getLast, List.drop_replicate, List.getLast?_drop] at hlast
    split at hlast
    · cases hlast
    · rw [List.getLast?_append, List.getLast?_replicate, if_neg (by omega), Option.some_or] at hlast
      cases hlast
  have hlen := f.readAt_length hbuf
  rw [List.length_replicate] at hlen
  refine ⟨.assertion, ?_⟩
  simp only [readFooter, hoff, ok_bind, hbuf, Footer.decode, ensure_of_true hlen.ge,
    ensure_of_false hmagic, error_bind]

/-- The place of the filter block that a policy finds in a metaindex block. -/
def Block.filterLocation (metaix : Block) (options : Options) : Exec (Option BlockHandle) := do
  let metaindexiter ← metaix.iter
  let metaindexiter ← metaindexiter.seek (TableBuilder.filterKey options.filterPolicy.name)
  match ← metaindexiter.current with
  | some (_, val) => do
      let (location, _) ← BlockHandle.decode val
      pure (if location.size > 0 then some location else none)
  | none => pure none

/-- The filter block is read from its place. -/
theorem Table.readFilterBlock_eq (metaix : Block) (file : RandomAccess) (options : Options) :
    Table.readFilterBlock metaix file options = metaix.filterLocation options >>= fun location =>
      match location with
      | none => pure (.ok none)
      | some h => SSTable.readFilterBlock file h options.filterPolicy >>= fun r =>
          pure (r.map some) := by
  unfold Table.readFilterBlock Block.filterLocation
  rcases metaix.iter with e | it
  · rfl
  · simp only [ok_bind]
    rcases it.seek (TableBuilder.filterKey options.filterPolicy.name) with e | it
    · rfl
    · simp only [ok_bind]
      rcases it.current with e | _ | ⟨k, val⟩
      · rfl
      · rfl
      · simp only [ok_bind]
        rcases BlockHandle.decode val with e | ⟨location, m⟩
        · rfl
        · simp only [ok_bind, pure_eq_ok]
          by_cases hpos : location.size > 0
          · simp only [if_pos hpos]
            rcases SSTable.readFilterBlock file location options.filterPolicy with e | e | reader
            · rfl
            · rfl
            · rfl
          · simp only [if_neg hpos]

/-- So are the filters of a table. -/
theorem Table.readFilterBlock_short_iff (hf : ShortReads img f) {metaix : Block}
    {filters : Option FilterBlockReader}
    (hread : Table.readFilterBlock metaix (BufferBackedFile img) opt = .ok (.ok filters)) :
    ((∃ e, Table.readFilterBlock metaix f opt = .ok (.error e)) ∨
      Table.readFilterBlock metaix f opt = .ok (.ok filters)) ↔
      ∀ h, metaix.filterLocation opt = .ok (some h) → FullRead img f h.offset h.size := by
  rw [Table.readFilterBlock_eq] at hread ⊢
  rcases hlocation : metaix.filterLocation opt with e | _ | h
  · simp [hlocation] at hread
  · have hnone : filters = none := by simpa [hlocation, eq_comm] using hread
    simp [hnone]
  · rw [hlocation, ok_bind] at hread
    rcases hreader : SSTable.readFilterBlock (BufferBackedFile img) h opt.filterPolicy with
      e | e | reader
    · simp [hreader] at hread
    · simp [hreader, Except.map] at hread
    · have hsome : filters = some reader := by simpa [hreader, Except.map, eq_comm] using hread
      have hiff := filterBlock_short_iff hf hreader
      simp only [ok_bind, Except.ok.injEq, Option.some.injEq, forall_eq']
      rw [← hiff, hsome]
      rcases SSTable.readFilterBlock f h opt.filterPolicy with e | e | reader'
      · simp
      · simp [Except.map]
      · simp [Except.map]

/-- A block that is refused and one that is read as it is. -/
def CheckedBlock (img : Bytes) (f : RandomAccess) (h : BlockHandle) : Prop :=
  FullBlock img f h ∨ RefusedBlock f h

/-- The footer and the filter block are read as they are, the filter block unless an index block is
refused before. -/
def FullOpening (img : Bytes) (f : RandomAccess) (n : Nat) (t : Table) : Prop :=
  FullRead img f (n - fullFooterLength) fullFooterLength ∧
  (FullBlock img f t.footer.index → FullBlock img f t.footer.metaIndex →
    ∀ metaix h, readTableBlock t.opt (BufferBackedFile img) t.footer.metaIndex = .ok (.ok metaix) →
      metaix.filterLocation t.opt = .ok (some h) → FullRead img f h.offset h.size)

/-- If the index blocks that are not read as they are do not have the right checksum, a table is
opened as it is from a source that fills every buffer, or not at all, exactly if the footer and the
filter block are read as they are. -/
theorem Table.new_short_iff (hf : ShortReads img f) {c c' : BlockCache} {t : Table}
    (hnew : Table.new opt (BufferBackedFile img) n c = .ok (.ok t, c'))
    (hindex : CheckedBlock img f t.footer.index) (hmeta : CheckedBlock img f t.footer.metaIndex) :
    ((∃ e c'', Table.new opt f n c = .ok (.error e, c'')) ∨
      Table.new opt f n c = .ok (.ok (t.onFile fun _ => f), c')) ↔ FullOpening img f n t := by
  obtain ⟨hfile, rfl, hfooter, hreadIndex, metaix, hreadMeta, hfilters, hid⟩ :=
    Table.new_eq_ok_iff.mp hnew
  have hopened : ∀ {c''}, Table.new t.opt f n c = .ok (.ok (t.onFile fun _ => f), c'') ↔
      readFooter f n = .ok (.ok t.footer) ∧
      readTableBlock t.opt f t.footer.index = .ok (.ok t.indexBlock) ∧
      ∃ metaix, readTableBlock t.opt f t.footer.metaIndex = .ok (.ok metaix) ∧
        Table.readFilterBlock metaix f t.opt = .ok (.ok t.filters) ∧
        c.newCacheId = .ok (t.cacheId, c'') := by
    intro c''
    rw [Table.new_eq_ok_iff]
    exact ⟨fun h => h.2.2, fun h => ⟨rfl, rfl, h⟩⟩
  constructor
  · intro hshort
    have hfull : FullRead img f (n - fullFooterLength) fullFooterLength := by
      by_contra hnot
      obtain ⟨e, he⟩ := readFooter_short hf hfooter hnot
      simp [Table.new, he] at hshort
    refine ⟨hfull, ?_⟩
    intro hfullIndex hfullMeta metaix' h hmetaix hlocation
    obtain rfl := Except.ok.inj (Except.ok.inj (hreadMeta.symm.trans hmetaix))
    have hfooter' := (readFooter_full hfull).trans hfooter
    have hreadIndex' := (readTableBlock_full hfullIndex).trans hreadIndex
    have hreadMeta' := (readTableBlock_full hfullMeta).trans hreadMeta
    refine (Table.readFilterBlock_short_iff hf hfilters).mp ?_ h hlocation
    rcases hshort with ⟨e, c'', hshort⟩ | hshort
    · left
      simp only [Table.new, hfooter', hreadIndex', hreadMeta', ok_bind] at hshort
      rcases hread : Table.readFilterBlock metaix f t.opt with e' | e' | filters
      · simp [hread] at hshort
      · exact ⟨e', rfl⟩
      · simp [hread, hid] at hshort
    · right
      obtain ⟨-, -, metaix', hmetaix', hfilters', -⟩ := hopened.mp hshort
      obtain rfl := Except.ok.inj (Except.ok.inj (hreadMeta'.symm.trans hmetaix'))
      exact hfilters'
  · rintro ⟨hfull, hrest⟩
    have hfooter' := (readFooter_full hfull).trans hfooter
    by_cases hfullIndex : FullBlock img f t.footer.index
    · have hreadIndex' := (readTableBlock_full hfullIndex).trans hreadIndex
      by_cases hfullMeta : FullBlock img f t.footer.metaIndex
      · have hreadMeta' := (readTableBlock_full hfullMeta).trans hreadMeta
        rcases (Table.readFilterBlock_short_iff hf hfilters).mpr
          (hrest hfullIndex hfullMeta metaix · hreadMeta) with ⟨e, he⟩ | hsame
        · left
          exact ⟨e, c, by simp [Table.new, hfooter', hreadIndex', hreadMeta', he]⟩
        · right
          exact hopened.mpr ⟨hfooter', hreadIndex', metaix, hreadMeta', hsame, hid⟩
      · left
        obtain ⟨e, he⟩ := readTableBlock_refused_of_ok (hmeta.resolve_left hfullMeta) hreadMeta
        exact ⟨e, c, by simp [Table.new, hfooter', hreadIndex', he]⟩
    · left
      obtain ⟨e, he⟩ := readTableBlock_refused_of_ok (hindex.resolve_left hfullIndex) hreadIndex
      exact ⟨e, c, by simp [Table.new, hfooter', he]⟩

/-! ## Lookups and scans -/

/-- What is done with an opened table. -/
inductive SourceOp where
  | get (key : Bytes)
  | iterate
  | advance

/-- What is seen of it. -/
inductive SourceShown where
  | found (r : Result (Option Bytes))
  | began
  | moved (more : Bool) (entry : Option Entry)
deriving DecidableEq

/-- An operation on a table with an iterator, during which the table is read from a source. -/
def Table.sourceStep (t : Table) (s : TableIterator × BlockCache) :
    SourceOp × RandomAccess → Exec (SourceShown × TableIterator × BlockCache)
  | (.get key, f) => do
      let (r, c) ← (t.onFile fun _ => f).get key s.2
      pure (.found r, s.1, c)
  | (.iterate, _) => do
      let it ← t.iter
      pure (.began, it, s.2)
  | (.advance, f) => do
      let (more, it, c) ← (s.1.onFile fun _ => f).advance s.2
      let entry ← it.current
      pure (.moved more entry, it.onFile fun _ => t.file, c)

/-- The same operation with the source that the table was opened with. -/
def Table.fullStep (t : Table) (s : TableIterator × BlockCache) (op : SourceOp × RandomAccess) :
    Exec (SourceShown × TableIterator × BlockCache) :=
  t.sourceStep s (op.1, t.file)

/-- A lookup that fails stands for every lookup. -/
def SourceShown.StandsFor (w w' : SourceShown) : Prop := w = w' ∨ ∃ e, w = .found (.error e)

/-- A block is in the cache when it is asked for. -/
def CachedRead (x : (Table × BlockHandle) × BlockCache) : Prop :=
  x.2.find (x.1.1.blockCacheHandle x.1.2.offset) ≠ none

/-- The blocks that an operation reads from a source are read as they are; a lookup may also find that
a checksum does not match. -/
def Table.ReadsChecked (img : Bytes) (t : Table) (s : TableIterator × BlockCache) :
    SourceOp × RandomAccess → Prop
  | (.get key, f) => ∀ x ∈ (t.getReads key).made (fileRead fun _ => f) s.2,
      CachedRead x ∨ CheckedBlock img f x.1.2
  | (.iterate, _) => True
  | (.advance, f) => ∀ x ∈ s.1.advanceReads.made (fileRead fun _ => f) s.2,
      CachedRead x ∨ FullBlock img f x.1.2

section

variable {t : Table} {c : BlockCache} {cap : Nat}

/-- A block that is cached or read as it is. -/
theorem fileRead_eq (hfile : t.file = BufferBackedFile img)
    (hread : CachedRead ((t, h), c) ∨ FullBlock img f h) :
    fileRead (fun _ => f) (t, h) c = cachedRead (t, h) c := by
  have hkey : (t.onFile fun _ => f).blockCacheHandle h.offset = t.blockCacheHandle h.offset := rfl
  have hopt : (t.onFile fun _ => f).opt = t.opt := rfl
  have hfile' : (t.onFile fun _ => f).file = f := rfl
  unfold fileRead cachedRead Table.readBlock
  dsimp only
  rw [hkey, hopt, hfile', hfile]
  rcases hread with hcached | hfull
  · have hlookup : c.map.lookup (t.blockCacheHandle h.offset) ≠ none := by
      intro hnone
      exact hcached (by simp [Cache.find, hnone])
    obtain ⟨⟨block, handle⟩, hsome⟩ := Option.ne_none_iff_exists'.mp hlookup
    unfold Cache.get
    rw [hsome]
    cases hlist : c.list.reinsertFront handle with
    | error e => simp only [hlist, error_bind]
    | ok list => simp only [hlist, ok_bind, pure_eq_ok]
  · rw [readTableBlock_full hfull]

/-- A block that is neither is refused, unless it is too long for every source. -/
theorem fileRead_refused (habsent : ¬ CachedRead ((t, h), c)) (hrefused : RefusedBlock f h) :
    (∃ e, fileRead (fun _ => f) (t, h) c = .ok (.error e, c)) ∨
      fileRead (fun _ => f) (t, h) c = cachedRead (t, h) c := by
  have hlookup : c.map.lookup (t.blockCacheHandle h.offset) = none := by
    by_contra hne
    apply habsent
    simpa [CachedRead, Cache.find] using hne
  have hget : c.get (t.blockCacheHandle h.offset) = .ok (none, c) := by
    simp [Cache.get, hlookup]
  have hkey : (t.onFile fun _ => f).blockCacheHandle h.offset = t.blockCacheHandle h.offset := rfl
  have hopt : (t.onFile fun _ => f).opt = t.opt := rfl
  have hfile : (t.onFile fun _ => f).file = f := rfl
  simp only [fileRead, cachedRead, Table.readBlock, hkey, hget, ok_bind, hopt, hfile]
  have hrefuses : (∃ e, readTableBlock t.opt f h = .ok (.error e)) ∨
      ∃ e, readTableBlock t.opt f h = .error e ∧ readTableBlock t.opt t.file h = .error e :=
    readTableBlock_refused hrefused t.file
  rcases hrefuses with ⟨e, he⟩ | ⟨e, he, he'⟩
  · left
    exact ⟨e, by rw [he]; rfl⟩
  · right
    rw [he, he']

/-- A lookup reads one block, or none. -/
theorem Table.getReads_cases (t : Table) (key : Bytes) :
    (∃ x, t.getReads key = ofExec x) ∨ ∃ h, t.indexBlock.Lists h ∧
      t.getReads key = .call (t, h) fun r => ofExec (match r with
        | .error e => .ok (.error e)
        | .ok tb => (t.searchBlock tb key).map .ok) := by
  have hall := t.getReads_all key
  unfold Table.getReads at hall ⊢
  rcases hfind : t.findBlock key with e | _ | h
  · exact Or.inl ⟨.error e, rfl⟩
  · exact Or.inl ⟨.ok (.ok none), rfl⟩
  · rw [hfind, ofExec_ok_bind] at hall
    rw [ofExec_ok_bind]
    rcases hadmits : t.filterAdmits h key with e | _ | _
    · exact Or.inl ⟨.error e, by simp only [hadmits, ofExec_error_bind]⟩
    · exact Or.inl ⟨.ok (.ok none), by simp only [hadmits, ofExec_ok_bind]; rfl⟩
    · simp only [hadmits, ofExec_ok_bind, if_true] at hall ⊢
      refine Or.inr ⟨h, hall.1.2, congrArg (Calls.call (t, h)) (funext fun r => ?_)⟩
      cases r with
      | error e => rfl
      | ok tb =>
          change (ofExec (t.searchBlock tb key) >>= fun found => pure (Except.ok found)) =
            ofExec ((t.searchBlock tb key).map .ok)
          cases t.searchBlock tb key with
          | error e => rfl
          | ok found => rfl

/-- If no read of a run is short, the run does not depend on the source. -/
theorem run_fileRead {α : Type} {p : BlockReads α} {Q : α → Prop}
    (hfile : t.file = BufferBackedFile img) (hp : p.All (Asked t) Q)
    (hmade : ∀ x ∈ p.made (fileRead fun _ => f) c, CachedRead x ∨ FullBlock img f x.1.2) :
    p.run (fileRead fun _ => f) c = p.run cachedRead c := by
  refine run_congr fun x hx => ?_
  obtain ⟨⟨t', h⟩, c⟩ := x
  obtain rfl : t' = t := (hp.of_mem_made hx).1
  exact fileRead_eq hfile (hmade _ hx)

/-- An operation does what it does with the source that the table was opened with, or it is a lookup
that fails and leaves everything as it was. -/
def Table.SameOrFails (t : Table) (s : TableIterator × BlockCache) (op : SourceOp × RandomAccess) :
    Prop :=
  t.sourceStep s op = t.fullStep s op ∨
    ∃ key e, op.1 = .get key ∧ t.sourceStep s op = .ok (.found (.error e), s)

/-- An iterator over a table reads from the source of the table. -/
theorem TableIterator.Belongs.onFile_file {it : TableIterator} (h : it.Belongs t) :
    it.onFile (fun _ => t.file) = it := by
  obtain rfl := h.table_eq
  rfl

theorem Table.get_sameOrFails {s : TableIterator × BlockCache}
    (hfile : t.file = BufferBackedFile img) {key : Bytes}
    (hreads : t.ReadsChecked img s (.get key, f)) : t.SameOrFails s (.get key, f) := by
  have hall := t.getReads_all key
  have hshort := t.get_onFile (fun _ => f) key s.2
  have hfull : (t.onFile fun _ => t.file).get key s.2 = (t.getReads key).run cachedRead s.2 :=
    t.get_eq key s.2
  have hsame : (t.getReads key).run (fileRead fun _ => f) s.2 =
      (t.getReads key).run cachedRead s.2 → t.SameOrFails s (.get key, f) := by
    intro heq
    left
    simp only [Table.fullStep, Table.sourceStep, hshort, hfull, heq]
  by_cases hread : ∀ x ∈ (t.getReads key).made (fileRead fun _ => f) s.2,
      CachedRead x ∨ FullBlock img f x.1.2
  · exact hsame (run_fileRead hfile hall hread)
  · rcases t.getReads_cases key with ⟨x, hx⟩ | ⟨hd, -, hprogram⟩
    · cases x with
      | ok r => simp [hx, ofExec, made] at hread
      | error e => simp [hx, ofExec, made] at hread
    · -- The only read finds that the checksum does not match.
      have hmade : (t.getReads key).made (fileRead fun _ => f) s.2 = [((t, hd), s.2)] := by
        rw [hprogram, made]
        cases fileRead (fun _ => f) (t, hd) s.2 with
        | error e => rfl
        | ok r => simp
      have hchecked := hreads ((t, hd), s.2) (hmade ▸ List.mem_cons_self)
      simp only [hmade, List.mem_singleton, forall_eq, not_or] at hread
      rcases fileRead_refused hread.1 ((hchecked.resolve_left hread.1).resolve_left hread.2) with
        ⟨e, he⟩ | heq
      · right
        refine ⟨key, e, rfl, ?_⟩
        simp only [Table.sourceStep, hshort, hprogram, run, he]
        rfl
      · refine hsame ?_
        simp only [hprogram, run, heq, run_ofExec]

theorem TableIterator.advance_sameOrFails {s : TableIterator × BlockCache}
    (hfile : t.file = BufferBackedFile img) (hs : s.1.Belongs t)
    (hreads : t.ReadsChecked img s (.advance, f)) : t.SameOrFails s (.advance, f) := by
  have hall := TableIterator.advanceReads_all hs
  have hrun := run_fileRead hfile hall hreads
  have hshort := s.1.advance_onFile (fun _ => f) s.2
  have hfull := s.1.advance_eq s.2
  left
  simp only [Table.fullStep, Table.sourceStep, hs.onFile_file, hshort, hfull, hrun]
  cases hmade : s.1.advanceReads.run cachedRead s.2 with
  | error e => rfl
  | ok r =>
      -- What is stepped over is the same, and so is what the iterator reads from afterwards.
      have hback : r.1.2.onFile (fun _ => t.file) = r.1.2 := (hall.of_run hmade).onFile_file
      have hback' : (r.1.2.onFile fun _ => f).onFile (fun _ => t.file) = r.1.2 := hback
      have hcurrent : (r.1.2.onFile fun _ => f).current = r.1.2.current := rfl
      simp only [ok_bind, pure_eq_ok, hcurrent, hback, hback']

/-- Where its reads are checked, an operation does what it does with the other source, or is a lookup
that fails. -/
theorem Table.step_sameOrFails {s : TableIterator × BlockCache} {op : SourceOp × RandomAccess}
    (hfile : t.file = BufferBackedFile img) (hs : s.1.Belongs t) (hreads : t.ReadsChecked img s op) :
    t.SameOrFails s op := by
  obtain ⟨op, f⟩ := op
  cases op with
  | get key => exact Table.get_sameOrFails hfile hreads
  | iterate => exact Or.inl rfl
  | advance => exact TableIterator.advance_sameOrFails hfile hs hreads

/-- Whatever the sources do, the iterator stays one over the table. -/
theorem TableIterator.Belongs.sourceStep {s s' : TableIterator × BlockCache}
    {op : SourceOp × RandomAccess} {w : SourceShown} (hs : s.1.Belongs t)
    (hstep : t.sourceStep s op = .ok (w, s')) : s'.1.Belongs t := by
  obtain ⟨op, f⟩ := op
  cases op with
  | get key =>
      simp only [Table.sourceStep, bind_eq_ok_iff, pure_eq_ok, Except.ok.injEq, Prod.mk.injEq] at hstep
      obtain ⟨r, -, -, rfl⟩ := hstep
      exact hs
  | iterate =>
      simp only [Table.sourceStep, bind_eq_ok_iff, pure_eq_ok, Except.ok.injEq, Prod.mk.injEq] at hstep
      obtain ⟨it, hiter, -, rfl⟩ := hstep
      exact TableIterator.belongs_iter hiter
  | advance =>
      simp only [Table.sourceStep, s.1.advance_onFile (fun _ => f) s.2, bind_eq_ok_iff, pure_eq_ok,
        Except.ok.injEq, Prod.mk.injEq] at hstep
      obtain ⟨⟨more, it, c⟩, ⟨r, hrun, heq⟩, entry, -, -, rfl⟩ := hstep
      obtain ⟨-, rfl, -⟩ := heq
      have hbelongs : r.1.2.Belongs t := (TableIterator.advanceReads_all hs).of_run hrun
      have hback : (r.1.2.onFile fun _ => f).onFile (fun _ => t.file) = r.1.2 := hbelongs.onFile_file
      rw [hback]
      exact hbelongs

/-! ## Next to a run with the source the table was opened with -/

/-- The blocks of a table can be read and searched. -/
def Table.Intact (t : Table) : Prop :=
  ∀ h, t.indexBlock.Lists h → ∃ block, storedRead (t, h) = .ok (.ok block) ∧
    ∀ key, ∃ found, t.searchBlock block key = .ok found

/-- If a lookup comes to something, so does the lookup that reads what is stored. -/
theorem Table.Intact.exists_eval (hintact : t.Intact) {key : Bytes}
    {r : Result (Option Bytes) × BlockCache} (hget : (t.onFile fun _ => f).get key c = .ok r) :
    ∃ found, (t.getReads key).eval storedRead = .ok found := by
  rcases t.getReads_cases key with ⟨x, hx⟩ | ⟨hd, hlists, hprogram⟩
  · rw [t.get_onFile, hx, run_ofExec, bind_eq_ok_iff] at hget
    obtain ⟨found, rfl, -⟩ := hget
    exact ⟨found, by rw [hx, eval_ofExec]⟩
  · obtain ⟨block, hstored, hsearch⟩ := hintact hd hlists
    obtain ⟨found, hfound⟩ := hsearch key
    exact ⟨.ok found, by simp [hprogram, eval, hstored, hfound, Except.map]⟩

/-- The same iterator over a table, next to two caches that serve it. -/
structure Alongside (t : Table) (cap : Nat) (s a : TableIterator × BlockCache) : Prop where
  iter_eq : s.1 = a.1
  belongs : s.1.Belongs t
  serves : Serves [t] cap s.2
  serves' : Serves [t] cap a.2

variable {s a : TableIterator × BlockCache}

theorem Alongside.get (h : Alongside t cap s a) (hdist : Distinct [t]) (hintact : t.Intact)
    {key : Bytes} (hsame : t.SameOrFails s (.get key, f)) :
    MirrorsUpTo SourceShown.StandsFor (Alongside t cap) (t.sourceStep s (.get key, f))
      (t.fullStep a (.get key, f)) := by
  have hall := t.getReads_all key
  have hanswers := h.serves'.answers hdist List.mem_cons_self hall
  have hanswers' := h.serves.answers hdist List.mem_cons_self hall
  rw [← t.get_eq key] at hanswers hanswers'
  change MirrorsUpTo _ _ _ (t.get key a.2 >>= fun r => pure (SourceShown.found r.1, a.1, r.2))
  rcases hsame with heq | ⟨key', e, -, he⟩
  · have hfull : t.fullStep s (.get key, f) = t.get key s.2 >>= fun r =>
        pure (SourceShown.found r.1, s.1, r.2) := rfl
    rw [heq, hfull]
    cases heval : (t.getReads key).eval storedRead with
    | error e =>
        rw [heval] at hanswers hanswers'
        have herror : t.get key a.2 = .error e := hanswers
        have herror' : t.get key s.2 = .error e := hanswers'
        simp [herror, herror', MirrorsUpTo]
    | ok r =>
        rw [heval] at hanswers hanswers'
        obtain ⟨c₁, hget, hserves⟩ := hanswers
        obtain ⟨c₂, hget', hserves'⟩ := hanswers'
        rw [hget, hget']
        exact ⟨_, _, rfl, Or.inl rfl, h.iter_eq, h.belongs, hserves', hserves⟩
  · have hfailed := he
    simp only [Table.sourceStep, bind_eq_ok_iff] at hfailed
    obtain ⟨r, hread, -⟩ := hfailed
    obtain ⟨found, heval⟩ := hintact.exists_eval hread
    rw [heval] at hanswers
    obtain ⟨c₁, hget, hserves⟩ := hanswers
    rw [he, hget]
    exact ⟨_, _, rfl, Or.inr ⟨e, rfl⟩, h.iter_eq, h.belongs, h.serves, hserves⟩

theorem Alongside.advance (h : Alongside t cap s a) (hdist : Distinct [t])
    (hsame : t.SameOrFails s (.advance, f)) :
    MirrorsUpTo SourceShown.StandsFor (Alongside t cap) (t.sourceStep s (.advance, f))
      (t.fullStep a (.advance, f)) := by
  have hall := TableIterator.advanceReads_all h.belongs
  have hanswers := h.serves'.answers hdist List.mem_cons_self hall
  have hanswers' := h.serves.answers hdist List.mem_cons_self hall
  have heq : t.sourceStep s (.advance, f) = t.fullStep s (.advance, f) := by
    rcases hsame with heq | ⟨key, e, hget, -⟩
    · exact heq
    · cases hget
  rw [heq]
  simp only [Table.fullStep, Table.sourceStep, ← h.iter_eq, h.belongs.onFile_file, s.1.advance_eq]
  cases heval : s.1.advanceReads.eval storedRead with
  | error e =>
      rw [heval] at hanswers hanswers'
      have herror : s.1.advanceReads.run cachedRead a.2 = .error e := hanswers
      have herror' : s.1.advanceReads.run cachedRead s.2 = .error e := hanswers'
      simp [herror, herror', MirrorsUpTo]
  | ok r =>
      obtain ⟨more, it⟩ := r
      have hbelongs : it.Belongs t := hall.of_eval heval
      rw [heval] at hanswers hanswers'
      obtain ⟨c₁, hrun, hserves⟩ := hanswers
      obtain ⟨c₂, hrun', hserves'⟩ := hanswers'
      simp only [hrun, hrun', ok_bind, pure_eq_ok, hbelongs.onFile_file]
      cases it.current with
      | error e => simp [MirrorsUpTo]
      | ok entry => exact ⟨_, _, rfl, Or.inl rfl, rfl, hbelongs, hserves', hserves⟩

theorem Alongside.iterate (h : Alongside t cap s a) :
    MirrorsUpTo SourceShown.StandsFor (Alongside t cap) (t.sourceStep s (.iterate, f))
      (t.fullStep a (.iterate, f)) := by
  simp only [Table.fullStep, Table.sourceStep]
  cases hiter : t.iter with
  | error e => simp [MirrorsUpTo]
  | ok it =>
      exact ⟨_, _, rfl, Or.inl rfl, rfl, TableIterator.belongs_iter hiter, h.serves, h.serves'⟩

/-- If every operation does what it does with the other source or is a lookup that fails, what is seen
of the run stands for what is seen of the run with that source. -/
theorem Alongside.run (h : Alongside t cap s a) (hdist : Distinct [t]) (hintact : t.Intact)
    {ops : List (SourceOp × RandomAccess)} (hsame : Legal t.sourceStep t.SameOrFails s ops) :
    List.Forall₂ (Option.Rel SourceShown.StandsFor) (observe t.sourceStep s ops)
      (observe t.fullStep a ops) := by
  refine observe_mirrorsUpTo (fun s a op h hop => ?_) h hsame
  obtain ⟨op, f⟩ := op
  cases op with
  | get key => exact h.get hdist hintact hop
  | iterate => exact h.iterate
  | advance => exact h.advance hdist hop

/-! ## Written tables -/

/-- Every handle in the index of a table is that of a data block. -/
theorem Table.Shows.intact {v : TableView} (hshows : t.Shows v) (hord : v.Ordered)
    (hread : ∀ b ∈ v.blocks, ∃ L, b = some L) : t.Intact := by
  intro h hlists
  obtain ⟨i, hh⟩ := hshows.lists hord.index hlists
  obtain ⟨b, hb⟩ := v.block_of_handle hh
  obtain ⟨L, rfl⟩ := hread b (List.mem_of_getElem? hb)
  refine ⟨t.blockOf L, hshows.reads hh hb, fun key => ?_⟩
  have hmem := List.mem_of_getElem? hb
  obtain ⟨found, hfound, -⟩ := Table.searchBlock_spec hshows hmem (hord.block L hmem) key
  exact ⟨found, hfound⟩

end

end

/-- Where a file is opened as a table from a source that fills every buffer, it is opened as that table,
or not at all, exactly if the footer and the filter block are read whole.  In every run that follows,
the source answering differently in every call, every operation does in its state what it does there
with the first source, or is a lookup that fails and changes nothing, as long as scans read every block
whole and the checksums of other blocks that are not read whole do not match.  If the file was written
from non-empty increasing keys within the limits, the run as a whole shows what it shows with that
source, or lookups fail. -/
theorem short_reads [Crates] {opt : Options} {n : Nat} {img : Bytes} {c c₁ : BlockCache} {t : Table}
    {it : TableIterator} (hnew : Table.new opt (BufferBackedFile img) n c = .ok (.ok t, c₁))
    (hiter : t.iter = .ok it) :
    (∀ f, ShortReads img f → CheckedBlock img f t.footer.index →
      CheckedBlock img f t.footer.metaIndex →
      (((∃ e c', Table.new opt f n c = .ok (.error e, c')) ∨
        Table.new opt f n c = .ok (.ok (t.onFile fun _ => f), c₁)) ↔ FullOpening img f n t)) ∧
    ∀ ops, Legal t.sourceStep (t.ReadsChecked img) (it, c₁) ops →
      Legal t.sourceStep t.SameOrFails (it, c₁) ops ∧
      ∀ wopt es, wopt.cmp = DefaultCmp → opt.cmp = DefaultCmp → Increasing es → NonEmptyKeys es →
        BlockLimits wopt es → TableBuilder.writeTable wopt [] es = .ok (.ok n, img) →
        img.length ≤ maxAllocation → c.Reachable →
        List.Forall₂ (Option.Rel SourceShown.StandsFor) (observe t.sourceStep (it, c₁) ops)
          (observe t.fullStep (it, c₁) ops) := by
  have hbelongs := TableIterator.belongs_iter hiter
  have hopened := Table.new_eq_ok_iff.mp hnew
  refine ⟨fun f hf hindex hmeta => Table.new_short_iff hf hnew hindex hmeta, fun ops hreads => ?_⟩
  have hsame : Legal t.sourceStep t.SameOrFails (it, c₁) ops :=
    hreads.of_invariant (fun s => s.1.Belongs t) (fun _ _ _ _ hs => hs.sourceStep)
      (fun _ _ hs => Table.step_sameOrFails hopened.1 hs) hbelongs
  refine ⟨hsame, fun wopt es hcmp hrcmp hinc hkeys hlimits hwrite hsize hc => ?_⟩
  obtain ⟨-, -, -, -, metaix, -, -, hcacheId⟩ := hopened
  obtain ⟨hid, -⟩ := Cache.newCacheId_eq_ok_iff.mp hcacheId
  obtain ⟨fb, hs, t', reader, -, hnew', -, hshows, -⟩ := open_written hcmp hrcmp hlimits hwrite hsize
    (defectiveData_none wopt opt (cuts wopt es) img) hc hid
  obtain ⟨heq, rfl⟩ := Prod.mk.inj (Except.ok.inj (hnew'.symm.trans hnew))
  obtain rfl := Except.ok.inj heq
  have hord := hs.view_ordered (fun _ => false) hinc hkeys
  have hserves := serves_of_new hc hnew
  have halongside : Alongside t' c.cap (it, { c with id := c.id + 1 })
      (it, { c with id := c.id + 1 }) := ⟨rfl, hbelongs, hserves, hserves⟩
  exact halongside.run (distinct_singleton (hshows.unambiguous hord.index))
    (hshows.intact hord hs.view_readable) hsame

/-- Opening and reading the table of the three keys. -/
theorem short_reads_neighbours : letI := referenceCrates
    ∃ t c₁ it, Table.new .default (BufferBackedFile neighboursImage) 211 smallCache =
        .ok (.ok t, c₁) ∧ t.iter = .ok it ∧
      (∀ f, ShortReads neighboursImage f → CheckedBlock neighboursImage f t.footer.index →
        CheckedBlock neighboursImage f t.footer.metaIndex →
        (((∃ e c', Table.new .default f 211 smallCache = .ok (.error e, c')) ∨
          Table.new .default f 211 smallCache = .ok (.ok (t.onFile fun _ => f), c₁)) ↔
          FullOpening neighboursImage f 211 t)) ∧
      ∀ ops, Legal t.sourceStep (t.ReadsChecked neighboursImage) (it, c₁) ops →
        Legal t.sourceStep t.SameOrFails (it, c₁) ops ∧
        List.Forall₂ (Option.Rel SourceShown.StandsFor) (observe t.sourceStep (it, c₁) ops)
          (observe t.fullStep (it, c₁) ops) := by
  let := referenceCrates
  obtain ⟨_, _, t, _, -, hnew, -, hshows, -⟩ := open_written rfl rfl neighbours_blockLimits
    neighboursImage_eq neighboursImage_small
    (defectiveData_none tinyBlocks .default (cuts tinyBlocks neighbours) neighboursImage)
    smallCache_reachable (by decide)
  obtain ⟨it, hiter, -⟩ := TableIterator.iter_spec hshows
  obtain ⟨hopens, hruns⟩ := short_reads hnew hiter
  refine ⟨t, _, it, hnew, hiter, hopens, fun ops hreads => ?_⟩
  obtain ⟨hsame, hstands⟩ := hruns ops hreads
  exact ⟨hsame, hstands tinyBlocks neighbours rfl rfl (by decide) (by decide) neighbours_blockLimits
    neighboursImage_eq neighboursImage_small smallCache_reachable⟩

/-- Open a table from one source, and read it from others: what is seen, and what is seen of the
same run when every read is made from the first source. -/
def sourceOpened [Crates] (opt : Options) (f : RandomAccess) (size : Nat) (c : BlockCache)
    (ops : List (SourceOp × RandomAccess)) :
    Exec (Result (List (Option SourceShown) × List (Option SourceShown))) := do
  let (opened, c) ← Table.new opt f size c
  match opened with
  | .error e => pure (.error e)
  | .ok t => do
      let it ← t.iter
      pure (.ok (observe t.sourceStep (it, c) ops, observe t.fullStep (it, c) ops))

set_option maxRecDepth 10000 in
/-- A footer of which one byte is not read stops the reader.  A scan passes over a block of which one
byte is read, and nothing tells it from a table without that block.  A lookup stops the reader after
one byte of the filter block was read. -/
theorem short_reads_differ : letI := referenceCrates
    TableBuilder.writeTable tinyBlocks ([] : Bytes) neighbours = .ok (.ok 211, neighboursImage) ∧
    ShortReads neighboursImage (shortFile neighboursImage 163 47) ∧
    ShortReads neighboursImage (shortFile neighboursImage 18 1) ∧
    ShortReads neighboursImage (shortFile neighboursImage 55 1) ∧
    sourceOpened .default (shortFile neighboursImage 163 47) 211 smallCache [] =
      .error .assertion ∧
    sourceOpened .default (BufferBackedFile neighboursImage) 211 smallCache
        (List.replicate 3 (.advance, shortFile neighboursImage 18 1)) =
      .ok (.ok ([some (.moved true (some ([97], [1]))), some (.moved true (some ([98], [3]))),
          some (.moved false none)],
        [some (.moved true (some ([97], [1]))), some (.moved true (some ([97, 0], [2]))),
          some (.moved true (some ([98], [3])))])) ∧
    sourceOpened .default (shortFile neighboursImage 55 1) 211 smallCache
        [(.get [97], BufferBackedFile neighboursImage)] = .ok (.ok ([none], [none])) ∧
    sourceOpened .default (BufferBackedFile neighboursImage) 211 smallCache
        [(.get [97], BufferBackedFile neighboursImage)] =
      .ok (.ok ([some (.found (.ok (some [1])))], [some (.found (.ok (some [1])))])) := by
  let := referenceCrates
  refine ⟨neighboursImage_eq, shortReads_shortFile _ _ (by decide),
    shortReads_shortFile _ _ (by decide), shortReads_shortFile _ _ (by decide), ?_, ?_, ?_, ?_⟩
  · decide +kernel
  · decide +kernel
  · decide +kernel
  · decide +kernel

end SSTable
