import SSTable.Verification.Block.Layout

/-!
# Moving a block iterator

An iterator over a laid-out block is before a slot, at a slot, or at no slot at all.  The
theorems below say what each primitive move of the iterator does to these positions; the
fields the iterator keeps for itself never matter beyond them.

Main results:

- Theorems {lit}`advance_of_before` and {lit}`advance_of_end`: advancing decodes the slot the
  iterator is before, or resets the iterator behind the last slot.
- Theorem {lit}`prev_of_entry`: going back rescans from a restart and stops in front of the
  slot the iterator was at last.
- Theorem {lit}`seekToLast_spec`: the last slot is reached from the last restart.
-/

namespace SSTable

open Foundation Foundation.Exec Foundation.Bytes

/-- A new block iterator has not been anywhere. -/
theorem Block.entry_of_iter {b : Block} {cb : BlockIter} (h : b.iter = .ok cb) :
    cb.currentEntryOffset = 0 := by
  simp only [Block.iter, bind_eq_ok_iff, pure_eq_ok, Except.ok.injEq] at h
  obtain ⟨_, _, _, _, _, _, rfl⟩ := h
  rfl

variable [Crates]

namespace BlockIter

/-- The iterator reads the bytes of the layout with the bytewise comparator. -/
structure Over (L : BlockLayout) (it : BlockIter) : Prop where
  small : L.Small
  cmp_eq : it.opt.cmp = DefaultCmp
  block_eq : it.block = L.contents
  restartsOff_eq : it.restartsOff = L.body.length
  restart_lt : it.currentRestartIx < L.restartIx.length

/-- The next entry to be parsed is that of slot {lit}`i`, and the key kept from the entry before
is good enough to complete it. -/
structure Before (L : BlockLayout) (i : Nat) (it : BlockIter) : Prop extends Over L it where
  le_length : i ≤ L.slots.length
  offset_eq : it.offset = L.offsetOf i
  key_eq : ∀ {s}, L.slots[i]? = some s → it.key.take s.shared = s.key.take s.shared

/-- The current entry is that of slot {lit}`i`. -/
structure At (L : BlockLayout) (i : Nat) (s : Slot) (it : BlockIter) : Prop
    extends Over L it where
  slot_eq : L.slots[i]? = some s
  entry_eq : it.currentEntryOffset = L.offsetOf i
  offset_eq : it.offset = L.offsetOf (i + 1)
  key_eq : it.key = s.key
  val_eq : it.valOffset = L.offsetOf i + s.head.length + (s.key.length - s.shared)

/-- There is no current entry. -/
structure Unplaced (L : BlockLayout) (it : BlockIter) : Prop extends Over L it where
  offset_eq : it.offset = 0
  key_eq : it.key = []

variable {L : BlockLayout} {it : BlockIter} {i : Nat} {s : Slot}

theorem At.lt_length (h : At L i s it) : i < L.slots.length :=
  (List.getElem?_eq_some_iff.mp h.slot_eq).1

/-- The key of the current entry completes the next one. -/
theorem At.before (h : At L i s it) : Before L (i + 1) it where
  toOver := h.toOver
  le_length := h.lt_length
  offset_eq := h.offset_eq
  key_eq ht := by rw [h.key_eq, L.shared_eq h.slot_eq ht]

theorem Unplaced.before (h : Unplaced L it) : Before L 0 it where
  toOver := h.toOver
  le_length := Nat.zero_le _
  offset_eq := by rw [h.offset_eq, L.offsetOf_zero]
  key_eq hs := by rw [L.shared_first hs, List.take_zero, List.take_zero]

/-- A restart needs no key from the entry before it. -/
theorem Over.before_restart (h : Over L it) (hslot : L.slots[i]? = some s) (hs : s.shared = 0)
    (hoff : it.offset = L.offsetOf i) : Before L i it where
  toOver := h
  le_length := (List.getElem?_eq_some_iff.mp hslot).1.le
  offset_eq := hoff
  key_eq ht := by
    rw [hslot] at ht
    cases ht
    rw [hs, List.take_zero, List.take_zero]

theorem Over.reset (h : Over L it) : Unplaced L it.reset where
  small := h.small
  cmp_eq := h.cmp_eq
  block_eq := h.block_eq
  restartsOff_eq := h.restartsOff_eq
  restart_lt := L.restartIx_length_pos
  offset_eq := rfl
  key_eq := rfl

/-! ## The observable position -/

theorem Unplaced.valid (h : Unplaced L it) : it.valid = false := by
  simp [BlockIter.valid, h.key_eq]

theorem Unplaced.current (h : Unplaced L it) : it.current = .ok none := by
  simp [BlockIter.current, h.valid]

theorem Unplaced.currentKey (h : Unplaced L it) : it.currentKey = none := by
  simp [BlockIter.currentKey, h.valid]

/-- An iterator at a slot is valid unless the slot's key is empty. -/
theorem At.valid (h : At L i s it) : it.valid = !s.key.isEmpty := by
  have hstep := L.offsetOf_succ h.slot_eq
  have hle := L.offsetOf_le_body (i + 1)
  have hpos := s.head_length_pos
  rw [Slot.encode_length] at hstep
  have hlow : it.valOffset > 0 := by
    rw [h.val_eq]
    omega
  have hhigh : it.valOffset ≤ it.restartsOff := by
    rw [h.val_eq, h.restartsOff_eq]
    omega
  simp [BlockIter.valid, h.key_eq, hlow, hhigh]

theorem At.valid_of_ne_nil (h : At L i s it) (hkey : s.key ≠ []) : it.valid = true := by
  simp [h.valid, hkey]

/-- The value of the current entry lies between its offset and the next entry. -/
theorem At.current (h : At L i s it) (hkey : s.key ≠ []) :
    it.current = .ok (some s.entry) := by
  have hdrop := L.drop_offsetOf h.slot_eq
  have hstep := L.offsetOf_succ h.slot_eq
  have hbound : L.offsetOf i ≤ it.block.length := by
    rw [h.block_eq]
    exact (L.offsetOf_le_body i).trans L.body_le_contents
  have hslice := slice_of_drop_eq (b := it.block) (x := s.head ++ s.key.drop s.shared)
    (y := s.val) hbound (by simpa [h.block_eq, Slot.encode] using hdrop)
  have hstart : L.offsetOf i + (s.head ++ s.key.drop s.shared).length = it.valOffset := by
    rw [h.val_eq, List.length_append, List.length_drop]
    omega
  have hstop : it.valOffset + s.val.length = it.offset := by
    rw [h.val_eq, h.offset_eq, hstep, Slot.encode_length]
    omega
  rw [hstart, hstop] at hslice
  simp [BlockIter.current, h.valid, hkey, hslice, h.key_eq, Slot.entry]

theorem At.current_of_nil (h : At L i s it) (hkey : s.key = []) : it.current = .ok none := by
  simp [BlockIter.current, h.valid, hkey]

theorem At.currentKey (h : At L i s it) (hkey : s.key ≠ []) : it.currentKey = some s.key := by
  simp [BlockIter.currentKey, h.valid, hkey, h.key_eq]

/-! ## Decoding one entry -/

theorem Over.numberRestarts (h : Over L it) : it.numberRestarts = .ok L.restartIx.length := by
  rw [BlockIter.numberRestarts, h.block_eq, L.restartCount_contents h.small]

theorem Over.getRestartPoint (h : Over L it) {ix r : Nat} (hix : L.restartIx[ix]? = some r) :
    it.getRestartPoint ix = .ok (L.offsetOf r) := by
  have hoff : L.offsetOf r < 2 ^ 32 :=
    lt_of_le_of_lt ((L.offsetOf_le_body r).trans L.body_le_contents) h.small
  have hword := leValue_leBytes_of_lt (k := 4) hoff
  rw [BlockIter.getRestartPoint, h.block_eq, h.restartsOff_eq, L.restart_word hix]
  simp [decodeFixed32, encodeFixed32, hword]

/-- The head of a slot is read as the lengths it records. -/
theorem parseEntryAndAdvance_spec (it : BlockIter) (hsmall : L.Small) (hblock : it.block = L.contents)
    (hoff : it.offset = L.offsetOf i) (hslot : L.slots[i]? = some s) :
    it.parseEntryAndAdvance =
      .ok ((s.shared, s.key.length - s.shared, s.val.length, s.head.length),
        { it with
          valOffset := L.offsetOf i + s.head.length + (s.key.length - s.shared)
          offset := L.offsetOf (i + 1) }) := by
  have hdrop := L.drop_offsetOf hslot
  have hstep := L.offsetOf_succ hslot
  have hkey := L.key_length_le hslot
  have hshared := L.shared_le s (List.mem_of_getElem? hslot)
  have hbody := (L.offsetOf_le_body (i + 1)).trans L.body_le_contents
  have hlimit : L.contents.length < wordLimit := lt_trans hsmall (by decide)
  have hstart : L.offsetOf i ≤ L.contents.length :=
    (L.offsetOf_le_body i).trans L.body_le_contents
  rw [Slot.encode_length, Slot.head_length] at hstep
  rw [Slot.encode, Slot.head] at hdrop
  simp only [List.append_assoc] at hdrop
  -- The three lengths follow each other, and each ends where the next one starts.
  have hrest₀ := sliceFrom_of_le hstart
  have hrest₁ := sliceFrom_of_drop_eq hstart hdrop
  have hrest₂ := sliceFrom_of_drop_eq (x := encodeVar s.shared ++
    encodeVar (s.key.length - s.shared)) hstart (by rw [hdrop, List.append_assoc])
  rw [List.length_append, ← Nat.add_assoc] at hrest₂
  rw [hdrop] at hrest₀
  have hadd₁ := wordAdd_of_lt (a := L.offsetOf i + ((encodeVar s.shared).length +
    (encodeVar (s.key.length - s.shared)).length + (encodeVar s.val.length).length))
    (b := s.key.length - s.shared) (by omega)
  have hadd₂ := wordAdd_of_lt (a := L.offsetOf i + ((encodeVar s.shared).length +
    (encodeVar (s.key.length - s.shared)).length + (encodeVar s.val.length).length) +
    (s.key.length - s.shared)) (b := s.val.length) (by omega)
  have hdec₀ := Crates.decodeVar_encodeVar s.shared (encodeVar (s.key.length - s.shared) ++
    (encodeVar s.val.length ++ (s.key.drop s.shared ++ (s.val ++
      (slotBytes (L.slots.drop (i + 1)) ++ L.trailer))))) (by omega)
  have hdec₁ := Crates.decodeVar_encodeVar (s.key.length - s.shared) (encodeVar s.val.length ++
    (s.key.drop s.shared ++ (s.val ++ (slotBytes (L.slots.drop (i + 1)) ++ L.trailer))))
    (by omega)
  have hdec₂ := Crates.decodeVar_encodeVar s.val.length (s.key.drop s.shared ++ (s.val ++
    (slotBytes (L.slots.drop (i + 1)) ++ L.trailer))) (by omega)
  simp only [parseEntryAndAdvance, hblock, hoff, hrest₀, hrest₁, ok_bind, hdec₀, hdec₁,
    unwrap_some, ← Nat.add_assoc, hrest₂, hdec₂]
  simp only [← Nat.add_assoc] at hadd₁ hadd₂
  simp only [hadd₁, hadd₂, ok_bind, pure_eq_ok, Slot.head_length, ← Nat.add_assoc]
  have hnext : L.offsetOf i + (encodeVar s.shared).length +
      (encodeVar (s.key.length - s.shared)).length + (encodeVar s.val.length).length +
      (s.key.length - s.shared) + s.val.length = L.offsetOf (i + 1) := by omega
  rw [hnext]

/-- The key of a slot is put together from what the iterator kept and what is stored. -/
theorem assembleKey_spec (it : BlockIter) (hsmall : L.Small) (hblock : it.block = L.contents)
    (hslot : L.slots[i]? = some s) (hkeep : it.key.take s.shared = s.key.take s.shared) :
    it.assembleKey (L.offsetOf i + s.head.length) s.shared (s.key.length - s.shared) =
      .ok { it with key := s.key } := by
  have hdrop := L.drop_offsetOf hslot
  have hstep := L.offsetOf_succ hslot
  have hbody := (L.offsetOf_le_body (i + 1)).trans L.body_le_contents
  have hlimit : L.contents.length < wordLimit := lt_trans hsmall (by decide)
  have hstart : L.offsetOf i ≤ L.contents.length :=
    (L.offsetOf_le_body i).trans L.body_le_contents
  rw [Slot.encode_length] at hstep
  rw [Slot.encode] at hdrop
  simp only [List.append_assoc] at hdrop
  have hslice := slice_of_drop_eq hstart hdrop
  rw [List.length_drop] at hslice
  simp only [assembleKey, wordAdd_of_lt (a := L.offsetOf i + s.head.length)
    (b := s.key.length - s.shared) (by omega), ok_bind, hblock, hslice, pure_eq_ok, hkeep,
    List.take_append_drop]

/-- Adjusting the restart index changes nothing else and keeps it in range. -/
theorem adjustRestartIx_spec (it : BlockIter) (h : Over L it) :
    ∃ it', it.adjustRestartIx = .ok it' ∧
      ∃ ix, it' = { it with currentRestartIx := ix } ∧ ix < L.restartIx.length := by
  rw [adjustRestartIx, h.numberRestarts, ok_bind]
  -- The index only moves up, and only while it stays below the number of restarts.
  refine whileLoop_total
    (fun it' => ∃ ix, it' = { it with currentRestartIx := ix } ∧ ix < L.restartIx.length) _
    (fun it' => L.restartIx.length - it'.currentRestartIx) ?_
    ⟨it.currentRestartIx, rfl, h.restart_lt⟩ (by omega)
  rintro _ ⟨ix, rfl, hix⟩
  by_cases hnext : ix + 1 < L.restartIx.length
  · have hover : Over L { it with currentRestartIx := ix } := { h with restart_lt := hix }
    have hpoint := hover.getRestartPoint (List.getElem?_eq_getElem hnext)
    by_cases hlow : L.offsetOf L.restartIx[ix + 1] < it.currentEntryOffset
    · refine Or.inr ⟨by simp [hnext, hpoint, hlow], _, rfl, ⟨ix + 1, rfl, hnext⟩, ?_⟩
      simp only
      omega
    · exact Or.inl ⟨by simp [hnext, hpoint, hlow], ix, rfl, hix⟩
  · exact Or.inl ⟨by simp [hnext], ix, rfl, hix⟩

/-! ## Moving forward -/

/-- Advancing decodes the slot the iterator is before. -/
theorem advance_of_before (h : Before L i it) (hslot : L.slots[i]? = some s) :
    ∃ it', it.advance = .ok (true, it') ∧ At L i s it' := by
  have hlt : it.offset < it.restartsOff := by
    rw [h.offset_eq, h.restartsOff_eq, L.offsetOf_lt_body_iff]
    exact (List.getElem?_eq_some_iff.mp hslot).1
  have hparse := parseEntryAndAdvance_spec { it with currentEntryOffset := it.offset }
    h.small h.block_eq h.offset_eq hslot
  have hassemble := assembleKey_spec { it with
      currentEntryOffset := it.offset
      valOffset := L.offsetOf i + s.head.length + (s.key.length - s.shared)
      offset := L.offsetOf (i + 1) } h.small h.block_eq hslot (h.key_eq hslot)
  obtain ⟨_, hadjust, ix, rfl, hix⟩ := adjustRestartIx_spec (L := L) { it with
      currentEntryOffset := it.offset
      valOffset := L.offsetOf i + s.head.length + (s.key.length - s.shared)
      offset := L.offsetOf (i + 1)
      key := s.key } { h.toOver with }
  have hat : At L i s { it with
      currentEntryOffset := it.offset
      currentRestartIx := ix
      valOffset := L.offsetOf i + s.head.length + (s.key.length - s.shared)
      offset := L.offsetOf (i + 1)
      key := s.key } :=
    { h.toOver with
      restart_lt := hix
      slot_eq := hslot
      entry_eq := h.offset_eq
      offset_eq := rfl
      key_eq := rfl
      val_eq := rfl }
  refine ⟨_, ?_, hat⟩
  rw [← h.offset_eq] at hassemble hadjust hparse ⊢
  simp only [advance, if_neg (not_le.mpr hlt), hparse, ok_bind, hassemble, hadjust, pure_eq_ok]

/-- Behind the last slot, advancing resets the iterator. -/
theorem advance_of_end (h : Before L i it) (hend : L.slots.length ≤ i) :
    it.advance = .ok (false, it.reset) := by
  have hge : it.offset ≥ it.restartsOff := by
    rw [h.offset_eq, h.restartsOff_eq, L.offsetOf_of_length_le hend]
  simp [advance, hge]

/-- The next entry, where the iterator is before one with a key. -/
theorem next_of_before (h : Before L i it) (hslot : L.slots[i]? = some s) (hkey : s.key ≠ []) :
    ∃ it', it.next = .ok (some s.entry, it') ∧ At L i s it' := by
  obtain ⟨it', hadvance, hat⟩ := advance_of_before h hslot
  exact ⟨it', by simp [next, hadvance, hat.current hkey], hat⟩

/-- Behind the last slot there is no next entry. -/
theorem next_of_end (h : Before L i it) (hend : L.slots.length ≤ i) :
    it.next = .ok (none, it.reset) := by
  simp [next, advance_of_end h hend]

/-! ## Jumping to a restart -/

/-- A restart can be jumped to from anywhere, but the jump insists on a valid iterator. -/
theorem seekToRestartPoint_eq (h : Over L it) {ix : Nat} (hix : L.restartIx[ix]? = some i)
    (hslot : L.slots[i]? = some s) :
    ∃ it', At L i s it' ∧ it.seekToRestartPoint ix = (do
      ensure (it'.valid = true)
      pure it') := by
  have hshared := L.restart_shared i (List.mem_of_getElem? hix) hslot
  have hparse := parseEntryAndAdvance_spec { it with
      offset := L.offsetOf i
      currentEntryOffset := L.offsetOf i
      currentRestartIx := ix } h.small h.block_eq rfl hslot
  have hassemble := assembleKey_spec { it with
      offset := L.offsetOf (i + 1)
      currentEntryOffset := L.offsetOf i
      currentRestartIx := ix
      valOffset := L.offsetOf i + s.head.length + (s.key.length - s.shared) }
    h.small h.block_eq hslot (by rw [hshared, List.take_zero, List.take_zero])
  have hat : At L i s { it with
      offset := L.offsetOf (i + 1)
      currentEntryOffset := L.offsetOf i
      currentRestartIx := ix
      valOffset := L.offsetOf i + s.head.length + (s.key.length - s.shared)
      key := s.key } :=
    { h with
      restart_lt := (List.getElem?_eq_some_iff.mp hix).1
      slot_eq := hslot
      entry_eq := rfl
      offset_eq := rfl
      key_eq := rfl
      val_eq := rfl }
  rw [hshared, Nat.sub_zero] at hassemble hat
  refine ⟨_, hat, ?_⟩
  simp only [seekToRestartPoint, h.getRestartPoint hix, ok_bind, hparse, hshared,
    ensure_of_true, Nat.sub_zero, hassemble]

/-- A restart with a key can be jumped to from anywhere. -/
theorem seekToRestartPoint_spec (h : Over L it) {ix : Nat} (hix : L.restartIx[ix]? = some i)
    (hslot : L.slots[i]? = some s) (hkey : s.key ≠ []) :
    ∃ it', it.seekToRestartPoint ix = .ok it' ∧ At L i s it' := by
  obtain ⟨it', hat, hjump⟩ := seekToRestartPoint_eq h hix hslot
  exact ⟨it', by rw [hjump, ensure_of_true (hat.valid_of_ne_nil hkey)]; rfl, hat⟩

/-- Every jump to a restart that succeeds ends there. -/
theorem seekToRestartPoint_partial (h : Over L it) {ix : Nat} (hix : L.restartIx[ix]? = some i)
    (hslot : L.slots[i]? = some s) {it' : BlockIter} (hjump : it.seekToRestartPoint ix = .ok it') :
    At L i s it' := by
  obtain ⟨it'', hat, heq⟩ := seekToRestartPoint_eq h hix hslot
  simp only [heq, bind_eq_ok_iff, ensure_eq_ok_iff, pure_eq_ok, Except.ok.injEq] at hjump
  obtain ⟨_, _, rfl⟩ := hjump
  exact hat

/-- A restart can be decoded next from anywhere. -/
theorem Over.before_restartIx (h : Over L it) {ix : Nat} (hix : L.restartIx[ix]? = some i) :
    Before L i { it with currentRestartIx := ix, offset := L.offsetOf i } := by
  have hover : Over L { it with currentRestartIx := ix, offset := L.offsetOf i } :=
    { h with restart_lt := (List.getElem?_eq_some_iff.mp hix).1 }
  by_cases hnil : L.slots = []
  · rw [L.restartIx_of_nil hnil] at hix
    have hzero : i = 0 := by
      have := List.mem_of_getElem? hix
      simpa using this
    exact { hover with
      le_length := by omega
      offset_eq := rfl
      key_eq := fun hs => by simp [hnil] at hs }
  · obtain ⟨s, hslot, hs⟩ := L.restart_slot hnil (List.mem_of_getElem? hix)
    exact hover.before_restart hslot hs rfl

/-! ## Moving backward -/

/-- Rewinding stops at a restart in front of the given entry. -/
theorem rewindRestartIx_spec (h : Over L it) (hpos : 0 < i) (hi : i < L.slots.length) :
    ∃ ix r, it.rewindRestartIx (L.offsetOf i) = .ok { it with currentRestartIx := ix } ∧
      L.restartIx[ix]? = some r ∧ r < i := by
  have hrun := loop_total (f := fun it : BlockIter => do
      let point ← it.getRestartPoint it.currentRestartIx
      if point ≥ L.offsetOf i then
        if it.currentRestartIx = 0 then
          let numRestarts ← it.numberRestarts
          pure (.done { it with offset := it.restartsOff, currentRestartIx := numRestarts })
        else
          pure (.next { it with currentRestartIx := it.currentRestartIx - 1 })
      else
        pure (.done it))
    (fun it' => ∃ ix, it' = { it with currentRestartIx := ix } ∧ ix < L.restartIx.length)
    (fun it' => ∃ ix r, it' = { it with currentRestartIx := ix } ∧
      L.restartIx[ix]? = some r ∧ r < i)
    (fun it' => it'.currentRestartIx) ?_
    ⟨_, rfl, h.restart_lt⟩ (Nat.lt_add_one it.currentRestartIx)
  · obtain ⟨_, hloop, ix, r, rfl, hr⟩ := hrun
    exact ⟨ix, r, hloop, hr⟩
  · rintro _ ⟨ix, rfl, hix⟩
    have hover : Over L { it with currentRestartIx := ix } := { h with restart_lt := hix }
    have hget := List.getElem?_eq_getElem hix
    have hpoint := hover.getRestartPoint hget
    rcases Nat.lt_or_ge L.restartIx[ix] i with hlow | hhigh
    · have hlt := L.offsetOf_lt_offsetOf hlow (by omega)
      exact Or.inr ⟨_, by simp [hpoint, hlt], ix, _, rfl, hget, hlow⟩
    · -- The first restart is in front of every other entry, so this is not it.
      have hge := L.offsetOf_mono hhigh
      have hne : ix ≠ 0 := by
        rintro rfl
        rw [L.restart_first, Option.some.injEq] at hget
        omega
      exact Or.inl ⟨_, by simp [hpoint, hge, hne], ⟨ix - 1, rfl, by omega⟩,
        Nat.sub_lt (Nat.pos_of_ne_zero hne) Nat.one_pos⟩

/-- An iterator that was last on the first entry, or on none, cannot go back. -/
theorem prev_of_entry_zero (h : it.currentEntryOffset = 0) : it.prev = .ok (false, it.reset) := by
  simp [prev, h]

/-- In front of the first entry there is none. -/
theorem prev_of_at_zero (h : At L 0 s it) : it.prev = .ok (false, it.reset) :=
  prev_of_entry_zero (by rw [h.entry_eq, L.offsetOf_zero])

/-- Going back looks for the entry in front of the last one the iterator was on. -/
theorem prev_of_entry (h : Over L it) (hentry : it.currentEntryOffset = L.offsetOf (i + 1))
    (hi : i + 1 < L.slots.length) : ∃ it' s', it.prev = .ok (true, it') ∧ At L i s' it' := by
  have hpos := L.offsetOf_lt_offsetOf (Nat.succ_pos i) (Nat.zero_lt_of_lt hi)
  rw [L.offsetOf_zero] at hpos
  obtain ⟨ix, r, hrewind, hix, hr⟩ := rewindRestartIx_spec h (Nat.succ_pos i) hi
  have hover : Over L { it with currentRestartIx := ix } :=
    { h with restart_lt := (List.getElem?_eq_some_iff.mp hix).1 }
  have hlow := L.offsetOf_lt_offsetOf hr (Nat.lt_trans hr hi)
  have hne : ¬ L.offsetOf (i + 1) = 0 := Nat.pos_iff_ne_zero.mp hpos
  have hend := (L.offsetOf_le_body (i + 1)).trans L.body_le_contents
  -- The scan starts at a restart and stops at the entry that ends where this one began.
  obtain ⟨⟨moved, it'⟩, hloop, rfl, s', hat⟩ := loop_total
    (f := fun it : BlockIter => do
      let r ← it.advance
      if r.2.offset ≥ L.offsetOf (i + 1) then
        pure (.done r)
      else
        pure (.next r.2))
    (fun it' => ∃ k, k ≤ i ∧ Before L k it')
    (fun r => r.1 = true ∧ ∃ s', At L i s' r.2)
    (fun it' => L.offsetOf (i + 1) - it'.offset) (by
      rintro it' ⟨k, hk, hbefore⟩
      have hkl : k < L.slots.length := by omega
      obtain ⟨it'', hadvance, hat⟩ := advance_of_before hbefore (List.getElem?_eq_getElem hkl)
      rcases Nat.lt_or_eq_of_le hk with hlt | rfl
      · have hstep := L.offsetOf_lt_offsetOf (Nat.lt_add_one k) hkl
        have hstop := L.offsetOf_lt_offsetOf (Nat.add_lt_add_right hlt 1) (by omega)
        have hoff := hat.offset_eq
        refine Or.inl ⟨it'', ?_, ⟨k + 1, hlt, hat.before⟩, ?_⟩
        · simp [hadvance, hoff, hstop]
        · rw [hbefore.offset_eq, hoff]
          omega
      · exact Or.inr ⟨(true, it''), by simp [hadvance, hat.offset_eq], rfl, _, hat⟩)
    ⟨r, Nat.lt_succ_iff.mp hr, h.before_restartIx hix⟩
    (Nat.lt_add_one_of_le (Nat.sub_le_of_le_add ((hend.trans (by rw [h.block_eq])).trans
      (Nat.le_add_right it.block.length _))))
  refine ⟨it', s', ?_, hat⟩
  rw [← hentry] at hrewind hne hlow hloop
  simp only [prev, if_neg hne, hrewind, ok_bind, hover.getRestartPoint hix,
    ensure_of_true hlow]
  exact hloop

/-- Going back reaches the entry in front of the current one. -/
theorem prev_of_at (h : At L (i + 1) s it) :
    ∃ it' s', it.prev = .ok (true, it') ∧ At L i s' it' :=
  prev_of_entry h.toOver h.entry_eq h.lt_length

theorem parseEntryAndAdvance_restartsOff {r : (Nat × Nat × Nat × Nat) × BlockIter}
    (h : it.parseEntryAndAdvance = .ok r) : r.2.restartsOff = it.restartsOff := by
  simp only [parseEntryAndAdvance, bind_eq_ok_iff, pure_eq_ok, Except.ok.injEq, Prod.exists] at h
  obtain ⟨-, -, -, -, -, -, -, -, -, -, -, -, -, -, -, -, -, -, -, rfl⟩ := h
  rfl

/-- A jump to a restart ends on a valid iterator over the same block. -/
theorem seekToRestartPoint_valid {it' : BlockIter} {ix : Nat}
    (h : it.seekToRestartPoint ix = .ok it') :
    it'.valid = true ∧ it'.restartsOff = it.restartsOff := by
  simp only [seekToRestartPoint, assembleKey, bind_eq_ok_iff, ensure_eq_ok_iff, pure_eq_ok,
    Except.ok.injEq] at h
  obtain ⟨off, _, r, hparse, _, _, _, ⟨_, _, _, _, rfl⟩, _, hvalid, rfl⟩ := h
  have hoff := parseEntryAndAdvance_restartsOff hparse
  exact ⟨hvalid, hoff⟩

/-- A block without entries has no last one. -/
theorem seekToLast_of_nil (h : Over L it) (hnil : L.slots = []) {it' : BlockIter}
    (hlast : it.seekToLast = .ok it') : False := by
  have hbody : L.body.length = 0 := by simp [BlockLayout.body, hnil]
  have hone : L.restartIx.length > 0 := L.restartIx_length_pos
  simp only [seekToLast, h.numberRestarts, ok_bind, if_pos hone, bind_eq_ok_iff] at hlast
  obtain ⟨it₁, hjump, -⟩ := hlast
  obtain ⟨hvalid, hoff⟩ := seekToRestartPoint_valid hjump
  simp only [valid, hoff, h.restartsOff_eq, hbody, Bool.and_eq_true, decide_eq_true_eq] at hvalid
  omega

/-- The last entry is reached from the last restart. -/
theorem seekToLast_spec (h : Over L it) (hne : L.slots ≠ []) (hkeys : ∀ s ∈ L.slots, s.key ≠ []) :
    ∃ it' s, it.seekToLast = .ok it' ∧ At L (L.slots.length - 1) s it' := by
  have hcount := L.restartIx_length_pos
  have hix := List.getElem?_eq_getElem (Nat.sub_lt hcount Nat.one_pos)
  obtain ⟨t, hslot, -⟩ := L.restart_slot hne (List.mem_of_getElem? hix)
  obtain ⟨it₁, hjump, hat₁⟩ := seekToRestartPoint_spec h hix hslot
    (hkeys t (List.mem_of_getElem? hslot))
  obtain ⟨it₂, hloop, s, hat₂⟩ := whileLoop_total
    (c := fun it : BlockIter => pure (decide (it.offset < it.restartsOff)))
    (f := fun it : BlockIter => do
      let r ← it.advance
      pure r.2)
    (fun it' => ∃ k s, At L k s it') (fun it' => ∃ s, At L (L.slots.length - 1) s it')
    (fun it' => L.body.length - it'.offset) (by
      rintro it' ⟨k, s, hat⟩
      have hk := hat.lt_length
      rcases Nat.lt_or_ge (k + 1) L.slots.length with hmore | hlast
      · have hcond : it'.offset < it'.restartsOff := by
          rw [hat.offset_eq, hat.restartsOff_eq, L.offsetOf_lt_body_iff]
          exact hmore
        obtain ⟨it'', hadvance, hat'⟩ :=
          advance_of_before hat.before (List.getElem?_eq_getElem hmore)
        have hstep := L.offsetOf_lt_offsetOf (Nat.lt_add_one (k + 1)) hmore
        refine Or.inr ⟨by simp [hcond], it'', by simp [hadvance], ⟨k + 1, _, hat'⟩, ?_⟩
        rw [hat.restartsOff_eq] at hcond
        rw [hat'.offset_eq]
        rw [hat.offset_eq] at hcond ⊢
        omega
      · have hend : it'.offset = it'.restartsOff := by
          rw [hat.offset_eq, hat.restartsOff_eq, L.offsetOf_of_length_le hlast]
        have hk' : k = L.slots.length - 1 := by omega
        exact Or.inl ⟨by simp [hend], s, hk' ▸ hat⟩)
    ⟨_, _, hat₁⟩ (Nat.lt_add_one_of_le ((Nat.sub_le _ _).trans
      (L.body_le_contents.trans (by rw [hat₁.block_eq]) : _ ≤ it₁.block.length)))
  refine ⟨it₂, s, ?_, hat₂⟩
  have hkey := hkeys s (List.mem_of_getElem? hat₂.slot_eq)
  rw [seekToLast, h.numberRestarts, ok_bind, if_pos hcount, hjump, ok_bind]
  refine (congrArg (· >>= _) hloop).trans ?_
  rw [ok_bind, ensure_of_true (hat₂.valid_of_ne_nil hkey)]
  rfl

end BlockIter

/-! ## Opening a block -/

namespace Block

theorem new_contents (L : BlockLayout) (opt : Options) :
    Block.new opt L.contents = .ok { block := L.contents, opt := opt } := by
  have hlen := L.contents_length
  have hpos := L.restartIx_length_pos
  have hlong : L.contents.length > 4 := by omega
  simp [Block.new, ensure_of_true hlong]

/-- A new iterator has no current entry. -/
theorem iter_spec {L : BlockLayout} {b : Block} (hsmall : L.Small) (hcmp : b.opt.cmp = DefaultCmp)
    (hblock : b.block = L.contents) : ∃ it, b.iter = .ok it ∧ BlockIter.Unplaced L it := by
  have hlen := L.contents_length
  have hcount := L.restartCount_contents hsmall
  have hlast := wordSub_of_le (a := L.contents.length) (b := 4) (by omega)
  have hstart := wordSub_of_le (a := L.contents.length - 4) (b := 4 * L.restartIx.length) (by omega)
  have hbody : L.contents.length - 4 - 4 * L.restartIx.length = L.body.length := by omega
  rw [hbody] at hstart
  have hiter : b.iter = .ok
      { block := L.contents
        opt := b.opt
        restartsOff := L.body.length
        offset := 0
        currentEntryOffset := 0
        currentRestartIx := 0
        key := []
        valOffset := 0 } := by
    simp only [iter, hblock, hcount, hlast, hstart, ok_bind, pure_eq_ok]
  exact ⟨_, hiter, {
    small := hsmall
    cmp_eq := hcmp
    block_eq := rfl
    restartsOff_eq := rfl
    restart_lt := L.restartIx_length_pos
    offset_eq := rfl
    key_eq := rfl }⟩

end Block

end SSTable
