import SSTable.Verification.Table.Damage
import SSTable.Verification.Table.FilterDamage
import SSTable.Verification.Table.Refinement

/-!
# Damaged data blocks

Where the checksum algorithm detects one changed byte, a table that has lost a byte in each of any
number of its data blocks is not silently another table.  It is opened as before; what a lookup or
an iterator shows is what the builder was given, or the damage is reported.

Main results:

- Theorem {lit}`damage_reported`: lookups and iterators over a table with damaged data blocks.
- Theorem {lit}`damaged_index_refused`: a table with a damaged index block is not opened.
-/

namespace SSTable

open Foundation Foundation.Exec Foundation.Bytes

/-! ## The parts of a file -/

/-- The bytes that a file has in the place of a stored block, its type and its checksum. -/
def blockPart (img : Bytes) (h : BlockHandle) : Bytes := (img.drop h.offset).take (h.size + 5)

/-- A stored block has changed. -/
def Damaged (img img' : Bytes) (h : BlockHandle) : Prop := blockPart img' h ≠ blockPart img h

instance (img img' : Bytes) (h : BlockHandle) : Decidable (Damaged img img' h) :=
  inferInstanceAs (Decidable (_ ≠ _))

/-- What the read of a block with a wrong checksum returns. -/
def checksumFailure (h : BlockHandle) : Status :=
  Status.new .Corruption ("checksum verification failed for block at " ++ toString h.offset)

section

variable {img img' x d y : Bytes} {h : BlockHandle} {lo hi : Nat}

theorem blockPart_middle (hoff : h.offset = x.length) (hsize : d.length = h.size + 5) :
    blockPart (x ++ (d ++ y)) h = d := by
  rw [blockPart, hoff, List.drop_left, ← hsize, List.take_left]

theorem blockPart_length (hend : h.offset + h.size + 5 ≤ img.length) :
    (blockPart img h).length = h.size + 5 := by
  rw [blockPart, List.length_take, List.length_drop]
  omega

/-- One changed byte of a file is at most one changed byte of each part. -/
theorem blockPart_set (img : Bytes) (h : BlockHandle) (i : Nat) (byte : UInt8) :
    ∃ j, blockPart (img.set i byte) h = (blockPart img h).set j byte := by
  by_cases hbefore : i < h.offset
  · use (blockPart img h).length
    rw [blockPart, List.drop_set, if_pos hbefore, ← blockPart, List.set_eq_of_length_le le_rfl]
  · use i - h.offset
    rw [blockPart, List.drop_set, if_neg hbefore, List.take_set, ← blockPart]

/-- A file holds its parts. -/
theorem holds_blockPart (hend : h.offset + h.size + 5 ≤ img.length) :
    (BufferBackedFile img).Holds h.offset (blockPart img h) := by
  have hsplit : img = img.take h.offset ++
      (blockPart img h ++ (img.drop h.offset).drop (h.size + 5)) := by
    rw [blockPart, List.take_append_drop, List.take_append_drop]
  have hlen : (img.take h.offset).length = h.offset := by
    rw [List.length_take]
    omega
  have hholds := holds_middle (img.take h.offset) (blockPart img h)
    ((img.drop h.offset).drop (h.size + 5))
  rwa [hlen, ← hsplit] at hholds

/-- What a file holds at a handle is its part there. -/
theorem RandomAccess.Holds.blockPart_eq (hholds : (BufferBackedFile img).Holds h.offset d)
    (hsize : d.length = h.size + 5) (hend : h.offset + h.size + 5 ≤ img.length) :
    blockPart img h = d := by
  obtain ⟨n, hread⟩ := hholds
  obtain ⟨n', hread'⟩ := holds_blockPart hend
  rw [blockPart_length hend, ← hsize, hread, Except.ok.injEq, Prod.mk.injEq] at hread'
  exact hread'.2.symm

theorem AgreesOutside.drop_eq (h : AgreesOutside lo hi img img') {off : Nat} (hoff : hi ≤ off) :
    img'.drop off = img.drop off := by
  apply List.ext_getElem?
  intro i
  rw [List.getElem?_drop, List.getElem?_drop]
  exact h.2 _ (Or.inr (by omega))

/-- Reading behind a change is reading the unchanged file. -/
theorem bufferReadAt_congr {off : Nat} (hlen : img'.length = img.length)
    (hdrop : img'.drop off = img.drop off) (buf : Bytes) :
    bufferReadAt img' off buf = bufferReadAt img off buf := by
  rw [bufferReadAt_eq, bufferReadAt_eq, hlen, hdrop]

end

/-! ## Reading a damaged block -/

section

variable [Crates] {opt ropt : Options} {img img' data : Bytes} {h : BlockHandle}
  {ctype : CompressionType}

/-- What a file holds at a handle determines what is read there. -/
theorem readTableBlock_congr_part (hend : h.offset + h.size + 5 ≤ img.length)
    (hlen : img'.length = img.length) (hsize : img.length ≤ maxAllocation)
    (hsame : blockPart img' h = blockPart img h) :
    readTableBlock opt (BufferBackedFile img') h = readTableBlock opt (BufferBackedFile img) h := by
  have hpart := blockPart_length hend
  obtain ⟨byte, word, htail⟩ : ∃ byte word, (blockPart img h).drop h.size = byte :: word := by
    cases hdrop : (blockPart img h).drop h.size with
    | nil =>
        have hnone := congrArg List.length hdrop
        rw [List.length_drop, hpart, List.length_nil] at hnone
        omega
    | cons byte word => exact ⟨byte, word, rfl⟩
  have hsplit : blockPart img h = (blockPart img h).take h.size ++ byte :: word := by
    rw [← htail, List.take_append_drop]
  have hword : word.length = 4 := by
    have hcount := congrArg List.length htail
    rw [List.length_drop, hpart, List.length_cons] at hcount
    omega
  have hdata : ((blockPart img h).take h.size).length = h.size := by
    rw [List.length_take]
    omega
  have hholds := holds_blockPart hend
  have hholds' : (BufferBackedFile img').Holds h.offset (blockPart img' h) :=
    holds_blockPart (by omega)
  rw [hsame, hsplit] at hholds'
  rw [hsplit] at hholds
  have hread : readTableBlock opt _ _ = _ := readTableBlock_holds hholds hword (by omega)
  have hread' : readTableBlock opt _ _ = _ := readTableBlock_holds hholds' hword (by omega)
  rw [hdata] at hread hread'
  exact hread'.trans hread.symm

/-- A stored block with one changed byte does not pass its checksum. -/
theorem readTableBlock_damaged (hcrc : DetectsOne crc32)
    (hend : h.offset + h.size + 5 ≤ img'.length) (hsize : img'.length ≤ maxAllocation)
    (hpart : blockPart img h = envelope ctype data) (hdata : data.length = h.size) {i : Nat}
    {byte : UInt8} (hset : blockPart img' h = (blockPart img h).set i byte)
    (hdamaged : Damaged img img' h) :
    readTableBlock opt (BufferBackedFile img') h = .ok (.error (checksumFailure h)) := by
  have hchanged : (envelope ctype data).set i byte ≠ envelope ctype data := by
    rw [← hpart, ← hset]
    exact hdamaged
  have hi : i < data.length + 5 := by
    by_contra hge
    apply hchanged
    apply List.set_eq_of_length_le
    rw [envelope_length]
    omega
  have hbyte : (envelope ctype data)[i]? ≠ some byte := by
    intro hsame
    apply hchanged
    obtain ⟨hlt, rfl⟩ := List.getElem?_eq_some_iff.mp hsame
    exact List.set_getElem_self hlt
  obtain ⟨d, t, w, hsplit, hd, hw, hverify⟩ := envelope_damaged hcrc hi hbyte
  have hholds := holds_blockPart hend
  rw [hset, hpart, hsplit] at hholds
  have hread : readTableBlock opt _ _ = _ := readTableBlock_holds hholds hw (by omega)
  rw [hd, hdata, hverify] at hread
  exact hread

/-! ## Files with damaged data blocks -/

variable {es : List Entry} {cs : List Cut} {fb : Bytes} {bad : Nat → Bool} {f g : RandomAccess}

/-- A file differs from a table in its data blocks only, and in at most one byte of each. -/
structure OneByteEach (opt : Options) (es : List Entry) (img img' : Bytes) : Prop where
  elsewhere : AgreesOutside 0 (dataBytes opt (cuts opt es)).length img img'
  once : ∀ h ∈ dataHandles opt es, ∃ i byte, blockPart img' h = (blockPart img h).set i byte

/-- The data blocks, by their numbers, that have changed. -/
def damagedAt (opt : Options) (es : List Entry) (img img' : Bytes) (i : Nat) : Bool :=
  (dataHandles opt es)[i]?.any fun h => decide (Damaged img img' h)

theorem damagedAt_eq {i : Nat} (hh : (dataHandles opt es)[i]? = some h) :
    damagedAt opt es img img' i = decide (Damaged img img' h) := by
  rw [damagedAt, hh, Option.any_some]

/-- One changed byte of the data blocks. -/
theorem oneByteEach_set {i : Nat} (opt : Options) (es : List Entry) (img : Bytes) (byte : UInt8)
    (hi : i < (dataBytes opt (cuts opt es)).length) : OneByteEach opt es img (img.set i byte) where
  elsewhere := agreesOutside_set img byte (Nat.zero_le i) hi
  once h _ := by
    obtain ⟨j, hset⟩ := blockPart_set img h i byte
    exact ⟨j, byte, hset⟩

/-- A placed block is what its part of the file holds. -/
theorem blockPart_place {p : Cut × BlockHandle} (hp : p ∈ place opt 0 cs) (rest : Bytes) :
    blockPart (dataBytes opt cs ++ rest) p.2 =
        envelope opt.compressionType (stored opt.compressionType (p.1.contents opt)) ∧
      (stored opt.compressionType (p.1.contents opt)).length = p.2.size := by
  obtain ⟨x, y, hsplit, hx, hsize⟩ := mem_place [] hp
  rw [List.nil_append] at hsplit
  refine ⟨?_, hsize.symm⟩
  rw [hsplit, List.append_assoc, List.append_assoc]
  apply blockPart_middle hx.symm
  rw [envelope_length, hsize]

theorem dataHandles_getElem? {i : Nat} {p : Cut × BlockHandle}
    (hp : (place opt 0 (cuts opt es))[i]? = some p) : (dataHandles opt es)[i]? = some p.2 := by
  rw [dataHandles, List.getElem?_map, hp, Option.map_some]

/-- What is read from a block that has changed. -/
theorem OneByteEach.read_damaged (h : OneByteEach opt es img img') (hcrc : DetectsOne crc32)
    (hs : Sizes opt (cuts opt es) fb) (himg : fileBytes opt (cuts opt es) fb = img)
    {p : Cut × BlockHandle} (hp : p ∈ place opt 0 (cuts opt es)) (hdamaged : Damaged img img' p.2) :
    readTableBlock ropt (BufferBackedFile img') p.2 = .ok (.error (checksumFailure p.2)) := by
  subst himg
  have hend := place_end_le hp
  have hdata := dataBytes_le_file opt (cuts opt es) fb
  have hfile := hs.file_le
  have hlen := h.elsewhere.1
  obtain ⟨i, byte, hset⟩ := h.once p.2 (List.mem_map_of_mem hp)
  have hpart := blockPart_place hp (envelope .CompressionNone fb ++ (envelope opt.compressionType
    (stored opt.compressionType (metaIndexContents opt (cuts opt es) fb)) ++
      (envelope opt.compressionType (stored opt.compressionType (indexContents opt (cuts opt es))) ++
        (fileFooter opt (cuts opt es) fb).bytes)))
  rw [← fileBytes_split] at hpart
  exact readTableBlock_damaged hcrc (by omega) (by omega) hpart.1 hpart.2 hset hdamaged

/-- The blocks that have changed are defective, and nothing else has changed. -/
theorem OneByteEach.defective (h : OneByteEach opt es img img') (hcrc : DetectsOne crc32)
    (hs : Sizes opt (cuts opt es) fb) (himg : fileBytes opt (cuts opt es) fb = img) :
    DefectiveData opt ropt (cuts opt es) img (damagedAt opt es img img')
      (BufferBackedFile img') where
  outside off buf hoff := bufferReadAt_congr h.elsewhere.1 (h.elsewhere.drop_eq hoff) buf
  intact i p hp hbad := by
    have hend := place_end_le (List.mem_of_getElem? hp)
    have hdata := dataBytes_le_file opt (cuts opt es) fb
    have hfile := hs.file_le
    rw [himg] at hdata hfile
    rw [damagedAt_eq (dataHandles_getElem? hp), decide_eq_false_iff_not, Damaged, not_not] at hbad
    exact readTableBlock_congr_part (by omega) h.elsewhere.1 hfile hbad
  defective i p hp hbad := by
    rw [damagedAt_eq (dataHandles_getElem? hp), decide_eq_true_eq] at hbad
    exact ⟨_, h.read_damaged hcrc hs himg (List.mem_of_getElem? hp) hbad⟩

/-! ## Two sources of one table -/

namespace Table

/-- A table in another file. -/
def withFile (t : Table) (f : RandomAccess) : Table := { t with file := f }

@[simp] theorem withFile_findBlock (t : Table) (f : RandomAccess) :
    (t.withFile f).findBlock = t.findBlock := rfl

omit [Crates] in
@[simp] theorem withFile_filterAdmits (t : Table) (f : RandomAccess) :
    (t.withFile f).filterAdmits = t.filterAdmits := rfl

@[simp] theorem withFile_blockOf (t : Table) (f : RandomAccess) :
    (t.withFile f).blockOf = t.blockOf := rfl

@[simp] theorem withFile_searchBlock (t : Table) (f : RandomAccess) :
    (t.withFile f).searchBlock = t.searchBlock := rfl

end Table

/-- Two sources that deliver one table are opened as one table. -/
theorem Delivers.open_other {bad' : Nat → Bool} {fb' : Bytes}
    (hf : Delivers opt ropt cs fb fb' bad f) (hg : Delivers opt ropt cs fb fb' bad' g)
    (hw : Written opt cs fb) (hs : Sizes opt cs fb) (hcmp : ropt.cmp = DefaultCmp)
    {c c' : BlockCache} {t : Table}
    (hnew : Table.new ropt f (fileBytes opt cs fb).length c = .ok (.ok t, c')) :
    Table.new ropt g (fileBytes opt cs fb).length c = .ok (.ok (t.withFile g), c') := by
  obtain ⟨reader, hfilter, hreader⟩ := hf.readFilterBlock_eq hw hs hcmp
  obtain ⟨reader', hfilter', hreader'⟩ := hg.readFilterBlock_eq hw hs hcmp
  obtain rfl : reader = reader' := Except.ok.inj (hreader.symm.trans hreader')
  rw [Table.new_eq_ok_iff] at hnew ⊢
  obtain ⟨-, hopt, hfooter, hindex, metaix, hmeta, hfilters, hcache⟩ := hnew
  have hfooter' : t.footer = fileFooter opt cs fb :=
    Except.ok.inj (Except.ok.inj (hfooter.symm.trans (hf.readFooter_eq hw hs.file_le)))
  rw [hfooter'] at hindex hmeta
  rw [hf.read_index hw hs.file_le, Except.ok.injEq, Except.ok.injEq] at hindex
  rw [hf.read_metaIndex hw hs.file_le, Except.ok.injEq, Except.ok.injEq] at hmeta
  subst hmeta
  rw [hfilter, Except.ok.injEq, Except.ok.injEq] at hfilters
  refine ⟨rfl, hopt, ?_, ?_, _, ?_, hfilter'.trans ?_, hcache⟩
  · exact (hg.readFooter_eq hw hs.file_le).trans (by rw [← hfooter']; rfl)
  · have hfooter'' : (t.withFile g).footer = fileFooter opt cs fb := hfooter'
    rw [hfooter'', hg.read_index hw hs.file_le, hindex]
    rfl
  · have hfooter'' : (t.withFile g).footer = fileFooter opt cs fb := hfooter'
    rw [hfooter'', hg.read_metaIndex hw hs.file_le]
  · rw [hfilters]
    rfl

/-! ## Lookups -/

namespace Table

variable {t : Table} {v : TableView} {c : BlockCache} {i : Nat} {key : Bytes}

/-- A lookup in a block that can be read returns what is found in the block. -/
theorem get_readable (hshows : t.Shows v) (hserves : CacheServes t v c) {L : BlockLayout}
    (hh : v.handles[i]? = some h) (hL : v.blocks[i]? = some (some L))
    (hfind : t.findBlock key = .ok (some h)) (hadmits : t.filterAdmits h key = .ok true) :
    (t.get key c).map Prod.fst = (t.searchBlock (t.blockOf L) key).map .ok := by
  obtain ⟨r, c', hread, -, hr⟩ := readBlock_spec hshows hserves hh hL
  have hr : r = .ok (t.blockOf L) := hr
  subst hr
  rw [get, hfind, ok_bind]
  dsimp only
  rw [hadmits, ok_bind]
  simp only [if_true, hread, ok_bind]
  cases t.searchBlock (t.blockOf L) key with
  | error e => rfl
  | ok found => rfl

/-- A lookup in a block that cannot be read returns the error. -/
theorem get_unreadable (hserves : CacheServes t v c) (hh : v.handles[i]? = some h)
    (hnone : v.blocks[i]? = some none) (hfind : t.findBlock key = .ok (some h))
    (hadmits : t.filterAdmits h key = .ok true) {e : Status}
    (herror : readTableBlock t.opt t.file h = .ok (.error e)) :
    ∃ c', t.get key c = .ok (.error e, c') := by
  obtain ⟨list, hget, -⟩ :=
    Cache.get_spec hserves.reachable.wellFormed (t.blockCacheHandle h.offset)
  cases hcached : c.find (t.blockCacheHandle h.offset) with
  | some block =>
      obtain ⟨L, hL, -⟩ := hserves.serves hh hcached
      rw [hnone, Option.some.injEq] at hL
      cases hL
  | none =>
      rw [hcached] at hget
      have hread : t.readBlock h c = .ok (.error e, { c with list := list }) := by
        simp [readBlock, hget, herror]
      use { c with list := list }
      rw [get, hfind, ok_bind]
      dsimp only
      rw [hadmits, ok_bind]
      simp only [if_true, hread, ok_bind, pure_eq_ok]

end Table

/-- The lookup of a key looks into a damaged block. -/
def MeetsDamage (opt : Options) (es : List Entry) (t : Table) (img img' key : Bytes)
    (h : BlockHandle) : Prop :=
  LooksInto opt es key h ∧ t.filterAdmits h key = .ok true ∧ Damaged img img' h

/-- The block that a view of the table shows at a handle. -/
theorem Sizes.block_of_handle (hs : Sizes opt (cuts opt es) fb) (bad : Nat → Bool) {i : Nat}
    (hh : (dataHandles opt es)[i]? = some h) :
    ∃ p, (place opt 0 (cuts opt es))[i]? = some p ∧ p.2 = h ∧
      (hs.view bad).blocks[i]? = some (if bad i then none else some (layoutOf opt p.1.entries)) := by
  rw [dataHandles, List.getElem?_map, Option.map_eq_some_iff] at hh
  obtain ⟨p, hp, hsnd⟩ := hh
  refine ⟨p, hp, hsnd, ?_⟩
  rw [hs.view_blocks, place_getElem? hp, Option.map_some]

section

variable {t : Table} {c c' : BlockCache} {key : Bytes}

/-- A lookup that looks into a damaged block reports it. -/
theorem OneByteEach.get_damaged (hd : OneByteEach opt es img img') (hcrc : DetectsOne crc32)
    (hs : Sizes opt (cuts opt es) fb) (himg : fileBytes opt (cuts opt es) fb = img)
    (hinc : Increasing es) (hkeys : NonEmptyKeys es) (hshows : t.Shows (hs.view fun _ => false))
    (hserves : CacheServes (t.withFile (BufferBackedFile img'))
      (hs.view (damagedAt opt es img img')) c) (hmeets : MeetsDamage opt es t img img' key h) :
    ∃ c₁, (t.withFile (BufferBackedFile img')).get key c = .ok (.error (checksumFailure h), c₁) := by
  obtain ⟨hlooks, hadmits, hdamaged⟩ := hmeets
  cases hs.findBlock_written hshows hinc hkeys key with
  | inl hnone => exact absurd hlooks (hnone.2 h)
  | inr hsome =>
      obtain ⟨h', hfind, -, honly⟩ := hsome
      obtain rfl := honly h hlooks
      obtain ⟨i, -, -, hh⟩ := hlooks
      obtain ⟨p, hp, rfl, hblock⟩ := hs.block_of_handle (damagedAt opt es img img') hh
      rw [damagedAt_eq hh, if_pos (decide_eq_true hdamaged)] at hblock
      have hmem := List.mem_of_getElem? hp
      apply Table.get_unreadable hserves hh hblock
      · rw [Table.withFile_findBlock, hfind]
      · rw [Table.withFile_filterAdmits, hadmits]
      · exact hd.read_damaged hcrc hs himg hmem hdamaged

/-- A lookup that does not look into a damaged block returns what it returned before. -/
theorem OneByteEach.get_undamaged (hs : Sizes opt (cuts opt es) fb) (hinc : Increasing es)
    (hkeys : NonEmptyKeys es) (hshows : t.Shows (hs.view fun _ => false))
    (hserves : CacheServes t (hs.view fun _ => false) c)
    (hshows' : (t.withFile (BufferBackedFile img')).Shows (hs.view (damagedAt opt es img img')))
    (hserves' : CacheServes (t.withFile (BufferBackedFile img'))
      (hs.view (damagedAt opt es img img')) c')
    (hclear : ∀ h, ¬ MeetsDamage opt es t img img' key h) :
    ((t.withFile (BufferBackedFile img')).get key c').map Prod.fst =
      (t.get key c).map Prod.fst := by
  obtain ⟨t', ht'⟩ : ∃ t', t' = t.withFile (BufferBackedFile img') := ⟨_, rfl⟩
  have hfinds : t'.findBlock = t.findBlock := by rw [ht', Table.withFile_findBlock]
  have hasks : t'.filterAdmits = t.filterAdmits := by rw [ht', Table.withFile_filterAdmits]
  rw [← ht'] at hshows' hserves' ⊢
  cases hs.findBlock_written hshows hinc hkeys key with
  | inl hnone =>
      have hfind := hnone.1
      have hmiss := Table.get_of_findBlock_none hfind t.filters (c := c)
      rw [← hfinds] at hfind
      have hmiss' := Table.get_of_findBlock_none hfind t'.filters (c := c')
      exact (congrArg (Except.map Prod.fst) hmiss').trans (congrArg (Except.map Prod.fst) hmiss).symm
  | inr hsome =>
      obtain ⟨h, hfind, hlooks, -⟩ := hsome
      have hfind' : t'.findBlock key = .ok (some h) := by rw [hfinds, hfind]
      have hasks' : t'.filterAdmits h key = t.filterAdmits h key := by rw [hasks]
      rcases hasked : t.filterAdmits h key with e | _ | _ <;> rw [hasked] at hasks'
      · rw [Table.get_of_fault hfind hasked, Table.get_of_fault hfind' hasks']
      · rw [Table.get_of_denied hfind hasked, Table.get_of_denied hfind' hasks']
        rfl
      · have hintact : ¬ Damaged img img' h := fun hdamaged => hclear h ⟨hlooks, hasked, hdamaged⟩
        obtain ⟨i, -, -, hh⟩ := hlooks
        obtain ⟨p, hp, -, hblock⟩ := hs.block_of_handle (fun _ => false) hh
        obtain ⟨p', hp', -, hblock'⟩ := hs.block_of_handle (damagedAt opt es img img') hh
        obtain rfl := Option.some.inj (hp.symm.trans hp')
        rw [damagedAt_eq hh, decide_eq_false hintact] at hblock'
        rw [Table.get_readable hshows hserves hh hblock hfind hasked,
          Table.get_readable hshows' hserves' hh hblock' hfind' hasks', ht',
          Table.withFile_searchBlock, Table.withFile_blockOf]

end

end

/-- A written table of which any number of data blocks have a byte changed.  It is opened as the
table it was.  A lookup that looks into a damaged block returns the error that names the block, and
every other lookup returns what it returns for the undamaged file, whatever either cache has been
used for; an iterator goes through what is left as if the damaged blocks could not be read. -/
theorem damage_reported [Crates] (opt ropt : Options) (es : List Entry) (n : Nat) (img img' : Bytes)
    (c : BlockCache) (hcrc : DetectsOne crc32) (hcmp : opt.cmp = DefaultCmp)
    (hrcmp : ropt.cmp = DefaultCmp) (hinc : Increasing es) (hkeys : NonEmptyKeys es)
    (hlimits : BlockLimits opt es) (hwrite : TableBuilder.writeTable opt [] es = .ok (.ok n, img))
    (hsize : img.length ≤ maxAllocation) (hdamage : OneByteEach opt es img img')
    (hc : c.Reachable) (hid : c.id + 1 < wordLimit) :
    ∃ t t' c₀ it, Table.new ropt (BufferBackedFile img) n c = .ok (.ok t, c₀) ∧
      Table.new ropt (BufferBackedFile img') n c = .ok (.ok t', c₀) ∧
      t' = t.withFile (BufferBackedFile img') ∧ t'.iter = .ok it ∧
      ∀ c₂, CacheRun t' (dataHandles opt es) c₀ c₂ →
        (∀ key h, MeetsDamage opt es t img img' key h →
          ∃ c₃, t'.get key c₂ = .ok (.error (checksumFailure h), c₃)) ∧
        (∀ key, (∀ h, ¬ MeetsDamage opt es t img img' key h) →
          ∀ c₁, CacheRun t (dataHandles opt es) c₀ c₁ →
            (t'.get key c₂).map Prod.fst = (t.get key c₁).map Prod.fst) ∧
        ∀ ops, observe TableIterator.step (it, c₂) ops =
          observe (runsStep (writtenRuns opt es (damagedAt opt es img img'))) .start ops := by
  have hlimit : maxAllocation < wordLimit := by decide
  obtain ⟨fb, hw, rfl, rfl⟩ := TableBuilder.writeTable_written hcmp hwrite (by omega)
  have hs : Sizes opt (cuts opt es) fb :=
    ⟨hlimits.data_lt, hlimits.index_lt, hlimits.meta_lt fb hw.filter_eq, hsize⟩
  have hwhole : Delivers opt ropt (cuts opt es) fb fb (fun _ => false) _ :=
    (defectiveData_none _ _ _ _).delivers hw hsize
  have hbroken : Delivers opt ropt (cuts opt es) fb fb _ (BufferBackedFile img') :=
    (hdamage.defective hcrc hs rfl).delivers hw hsize
  obtain ⟨t, -, hnew, -, hshows, hserves, -⟩ := hwhole.open_spec hw hs hrcmp hc hid
  obtain ⟨t', -, hnew', -, hshows', hserves', -⟩ := hbroken.open_spec hw hs hrcmp hc hid
  obtain rfl : t' = t.withFile (BufferBackedFile img') := by
    have hother := hwhole.open_other hbroken hw hs hrcmp hnew
    rw [hnew', Except.ok.injEq, Prod.mk.injEq, Except.ok.injEq] at hother
    exact hother.1
  obtain ⟨it, hiter, hrefines⟩ := hs.iter_refines hinc hkeys hshows'
  refine ⟨t, _, _, it, hnew, hnew', rfl, hiter, ?_⟩
  intro c₂ hrun'
  have hserves₂ := hserves'.run hshows' hrun'
  refine ⟨?_, ?_, hrefines c₂ hserves₂⟩
  · intro key h hmeets
    exact hdamage.get_damaged hcrc hs rfl hinc hkeys hshows hserves₂ hmeets
  · intro key hclear c₁ hrun
    exact OneByteEach.get_undamaged hs hinc hkeys hshows (hserves.run hshows hrun) hshows' hserves₂
      hclear

/-- The table of three keys with a changed byte in its second block. -/
theorem damage_reported_neighbours : letI := referenceCrates
    ∃ t t' c₀ it, Table.new .default (BufferBackedFile neighboursImage) 211 smallCache =
        .ok (.ok t, c₀) ∧
      Table.new .default (BufferBackedFile (neighboursImage.set 20 255)) 211 smallCache =
        .ok (.ok t', c₀) ∧
      t' = t.withFile (BufferBackedFile (neighboursImage.set 20 255)) ∧ t'.iter = .ok it ∧
      ∀ c₂, CacheRun t' (dataHandles tinyBlocks neighbours) c₀ c₂ →
        (∀ key h, MeetsDamage tinyBlocks neighbours t neighboursImage (neighboursImage.set 20 255)
            key h →
          ∃ c₃, t'.get key c₂ = .ok (.error (checksumFailure h), c₃)) ∧
        (∀ key, (∀ h, ¬ MeetsDamage tinyBlocks neighbours t neighboursImage
            (neighboursImage.set 20 255) key h) →
          ∀ c₁, CacheRun t (dataHandles tinyBlocks neighbours) c₀ c₁ →
            (t'.get key c₂).map Prod.fst = (t.get key c₁).map Prod.fst) ∧
        ∀ ops, observe TableIterator.step (it, c₂) ops =
          observe (runsStep (writtenRuns tinyBlocks neighbours (damagedAt tinyBlocks neighbours
            neighboursImage (neighboursImage.set 20 255)))) .start ops := by
  let := referenceCrates
  have hdata : 20 < (dataBytes tinyBlocks (cuts tinyBlocks neighbours)).length := by
    obtain ⟨-, -, -, -, -, -, -, -, hlen, -⟩ := neighbours_facts
    rw [hlen]
    decide
  exact damage_reported tinyBlocks .default neighbours 211 neighboursImage _ smallCache
    Reference.crc32c_detects rfl rfl (by decide) (by decide) neighbours_blockLimits
    neighboursImage_eq neighboursImage_small (oneByteEach_set _ _ _ _ hdata) smallCache_reachable
    (by decide)

/-! ## Damaged index blocks -/

/-- A file that has lost at most one byte of the index block and one of the metaindex block of a
table, and still ends in its footer, is not opened: the error names the damaged block, and the cache
is left as it was.  What has happened to the other blocks does not matter. -/
theorem damaged_index_refused [Crates] (opt ropt : Options) (es : List Entry) (n : Nat)
    (img img' : Bytes) (c : BlockCache) (hcrc : DetectsOne crc32) (hcmp : opt.cmp = DefaultCmp)
    (hwrite : TableBuilder.writeTable opt [] es = .ok (.ok n, img))
    (hsize : img.length ≤ maxAllocation) (hlen : img'.length = img.length)
    (hends : img'.drop (n - fullFooterLength) = img.drop (n - fullFooterLength)) :
    ∃ footer, readFooter (BufferBackedFile img) n = .ok (.ok footer) ∧
      ∀ i j a b, blockPart img' footer.index = (blockPart img footer.index).set i a →
        blockPart img' footer.metaIndex = (blockPart img footer.metaIndex).set j b →
        Damaged img img' footer.index ∨ Damaged img img' footer.metaIndex →
        Table.new ropt (BufferBackedFile img') n c =
          .ok (.error (checksumFailure (if Damaged img img' footer.index then footer.index
            else footer.metaIndex)), c) := by
  have hlimit : maxAllocation < wordLimit := by decide
  obtain ⟨fb, hw, rfl, rfl⟩ := TableBuilder.writeTable_written hcmp hwrite (by omega)
  have hwhole : Delivers opt ropt (cuts opt es) fb fb (fun _ => false) _ :=
    (defectiveData_none _ _ _ _).delivers hw hsize
  have hfooter := hwhole.readFooter_eq hw hsize
  have hbody := body_length_add opt (cuts opt es) fb
  have hfile := hw.file_length
  refine ⟨fileFooter opt (cuts opt es) fb, hfooter, ?_⟩
  intro i j a b hindex hmeta hdamaged
  have hfooter' : readFooter (BufferBackedFile img')
      (fileBytes opt (cuts opt es) fb).length = .ok (.ok (fileFooter opt (cuts opt es) fb)) := by
    have hsame : ∀ buf, (BufferBackedFile img').readAt _ buf =
        (BufferBackedFile (fileBytes opt (cuts opt es) fb)).readAt _ buf :=
      bufferReadAt_congr hlen hends
    rw [readFooter, wordSub_of_le (by omega), ok_bind] at hfooter ⊢
    rw [hsame]
    exact hfooter
  have hindexEnd : (fileFooter opt (cuts opt es) fb).index.offset +
      (fileFooter opt (cuts opt es) fb).index.size + 5 ≤
        (fileBytes opt (cuts opt es) fb).length := by
    simp only [fileFooter]
    omega
  have hmetaEnd : (fileFooter opt (cuts opt es) fb).metaIndex.offset +
      (fileFooter opt (cuts opt es) fb).metaIndex.size + 5 ≤
        (fileBytes opt (cuts opt es) fb).length := by
    simp only [fileFooter]
    omega
  have hindexPart := hwhole.index_holds.blockPart_eq (envelope_length _ _) hindexEnd
  have hmetaPart := hwhole.meta_holds.blockPart_eq (envelope_length _ _) hmetaEnd
  rw [← hlen] at hindexEnd hmetaEnd hsize
  by_cases hfirst : Damaged (fileBytes opt (cuts opt es) fb) img'
      (fileFooter opt (cuts opt es) fb).index
  · have hread : readTableBlock ropt _ _ = _ :=
      readTableBlock_damaged hcrc hindexEnd hsize hindexPart rfl hindex hfirst
    simp only [Table.new, hfooter', hread, ok_bind, pure_eq_ok, if_pos hfirst]
  · have hread : readTableBlock ropt (BufferBackedFile img')
        (fileFooter opt (cuts opt es) fb).index = .ok (.ok _) :=
      (readTableBlock_congr_part (hindexEnd.trans_eq hlen) hlen (hlen ▸ hsize)
        (not_not.mp hfirst)).trans (hwhole.read_index hw (hlen ▸ hsize))
    have hread' : readTableBlock ropt _ _ = _ :=
      readTableBlock_damaged hcrc hmetaEnd hsize hmetaPart rfl hmeta (hdamaged.resolve_left hfirst)
    simp only [Table.new, hfooter', hread, hread', ok_bind, pure_eq_ok, if_neg hfirst]

set_option maxRecDepth 20000 in
/-- The table of three keys with a changed byte in its index block. -/
theorem damaged_index_refused_neighbours : letI := referenceCrates
    ∃ footer, readFooter (BufferBackedFile neighboursImage) 211 = .ok (.ok footer) ∧
      Damaged neighboursImage (neighboursImage.set 140 255) footer.index ∧
      Table.new .default (BufferBackedFile (neighboursImage.set 140 255)) 211 smallCache =
        .ok (.error (checksumFailure footer.index), smallCache) := by
  let := referenceCrates
  have hends : (neighboursImage.set 140 255).drop (211 - fullFooterLength) =
      neighboursImage.drop (211 - fullFooterLength) := by
    rw [List.drop_set, if_pos (by decide)]
  obtain ⟨footer, hfooter, hrefused⟩ := damaged_index_refused tinyBlocks .default neighbours 211
    neighboursImage _ smallCache Reference.crc32c_detects rfl neighboursImage_eq
    neighboursImage_small List.length_set hends
  have hplace : readFooter (BufferBackedFile neighboursImage) 211 =
      .ok (.ok { metaIndex := { offset := 78, size := 47 }
                 index := { offset := 130, size := 28 } }) := by rfl
  have hdamaged : Damaged neighboursImage (neighboursImage.set 140 255)
      { offset := 130, size := 28 } := of_decide_eq_true (by rfl)
  rw [hplace, Except.ok.injEq, Except.ok.injEq] at hfooter
  subst hfooter
  obtain ⟨i, hi⟩ := blockPart_set neighboursImage { offset := 130, size := 28 } 140 255
  obtain ⟨j, hj⟩ := blockPart_set neighboursImage { offset := 78, size := 47 } 140 255
  refine ⟨_, hplace, hdamaged, ?_⟩
  have hnew := hrefused i j 255 255 hi hj (Or.inl hdamaged)
  rwa [if_pos hdamaged] at hnew

end SSTable
