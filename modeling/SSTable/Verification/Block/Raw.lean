import SSTable.Model.Block

/-!
# Searching any bytes

A block that was read from a file may hold any bytes.  This module says which of them an iterator
gets by, and what it finds there.

Main results:

- Theorem {lit}`seekToRestartPoint_eq_ok_iff`: which restarts can be jumped to.
- Theorem {lit}`search_eq_ok_iff`: which blocks can be searched for a key, and what is found.
-/

namespace SSTable

open Foundation Foundation.Exec Foundation.Bytes

/-! ## What the bytes mean -/

/-- The number of restarts that the last word tells. -/
def restartsIn (block : Bytes) : Nat := decodeFixed32 (block.drop (block.length - 4))

/-- Where the restarts begin. -/
def restartsStart (block : Bytes) : Nat := block.length - 4 - 4 * restartsIn block

/-- The offset that a restart points to. -/
def restartAt (block : Bytes) (ix : Nat) : Nat :=
  decodeFixed32 ((block.drop (restartsStart block + 4 * ix)).take 4)

/-- A block is long enough for its restarts. -/
def HoldsRestarts (block : Bytes) : Prop := 4 + 4 * restartsIn block ≤ block.length

variable {block : Bytes}

namespace BlockIter

/-! ## Iterators over any bytes -/

/-- An iterator over a block, wherever it is. -/
structure Reads (cmp : Cmp) (block : Bytes) (it : BlockIter) : Prop where
  block_eq : it.block = block
  cmp_eq : it.opt.cmp = cmp
  restartsOff_eq : it.restartsOff = restartsStart block

variable {cmp : Cmp} {it it' : BlockIter}

theorem restartCount_eq (hlong : 4 < block.length) :
    restartCount block = .ok (restartsIn block) := by
  rw [restartCount, wordSub_of_le hlong.le, ok_bind, sliceFrom_of_le (Nat.sub_le _ _)]
  rfl

theorem Reads.numberRestarts (h : Reads cmp block it) (hlong : 4 < block.length) :
    it.numberRestarts = .ok (restartsIn block) := by
  rw [BlockIter.numberRestarts, h.block_eq, restartCount_eq hlong]

/-- The offset that the first restart points to can be read, also where there is no restart. -/
theorem Reads.getRestartPoint (h : Reads cmp block it) (hholds : HoldsRestarts block) {ix : Nat}
    (hix : ix = 0 ∨ ix < restartsIn block) : it.getRestartPoint ix = .ok (restartAt block ix) := by
  unfold HoldsRestarts at hholds
  have hfits : restartsStart block + 4 * ix + 4 ≤ block.length := by
    unfold restartsStart
    omega
  rw [BlockIter.getRestartPoint, h.block_eq, h.restartsOff_eq,
    slice_of_le (Nat.le_add_right _ _) hfits, ok_bind, Nat.add_sub_cancel_left]
  rfl

/-- A key is put together exactly if its stored part lies within the block. -/
theorem assembleKey_eq_ok_iff {off shared nonShared : Nat} :
    it.assembleKey off shared nonShared = .ok it' ↔ off + nonShared < wordLimit ∧
      off + nonShared ≤ it.block.length ∧
      it' = { it with key := it.key.take shared ++ (it.block.drop off).take nonShared } := by
  simp only [assembleKey, bind_eq_ok_iff, wordAdd_eq_ok_iff, slice_eq_ok_iff, pure_eq_ok,
    Except.ok.injEq]
  constructor
  · rintro ⟨_, ⟨hword, rfl⟩, _, ⟨⟨-, hle⟩, rfl⟩, rfl⟩
    rw [Nat.add_sub_cancel_left]
    exact ⟨hword, hle, rfl⟩
  · rintro ⟨hword, hle, rfl⟩
    refine ⟨_, ⟨hword, rfl⟩, _, ⟨⟨Nat.le_add_right _ _, hle⟩, rfl⟩, ?_⟩
    rw [Nat.add_sub_cancel_left]

/-- The restart index is moved up without a fault. -/
theorem Reads.adjustRestartIx_total (h : Reads cmp block it) (hlong : 4 < block.length)
    (hholds : HoldsRestarts block) :
    ∃ ix, it.adjustRestartIx = .ok { it with currentRestartIx := ix } := by
  rw [adjustRestartIx, h.numberRestarts hlong, ok_bind]
  have hloop := @whileLoop_total BlockIter
    (fun it => if it.currentRestartIx + 1 < restartsIn block then do
        let point ← it.getRestartPoint (it.currentRestartIx + 1)
        pure (decide (point < it.currentEntryOffset))
      else
        pure false)
    (fun it => pure { it with currentRestartIx := it.currentRestartIx + 1 })
    (fun s => ∃ ix, s = { it with currentRestartIx := ix })
    (fun s => ∃ ix, s = { it with currentRestartIx := ix })
    (fun s => restartsIn block - s.currentRestartIx) ?_ (restartsIn block + 1) it ⟨_, rfl⟩ (by omega)
  · obtain ⟨s, hrun, ix, rfl⟩ := hloop
    exact ⟨ix, hrun⟩
  · rintro s ⟨ix, rfl⟩
    by_cases hmore : ix + 1 < restartsIn block
    · have hreads : Reads cmp block { it with currentRestartIx := ix } :=
        ⟨h.block_eq, h.cmp_eq, h.restartsOff_eq⟩
      have hpoint := hreads.getRestartPoint hholds (Or.inr hmore)
      by_cases hbefore : restartAt block (ix + 1) < it.currentEntryOffset
      · right
        refine ⟨?_, _, rfl, ⟨ix + 1, rfl⟩, ?_⟩
        · simp only [if_pos hmore, hpoint, ok_bind, hbefore, decide_true, pure_eq_ok]
        · dsimp only
          omega
      · left
        refine ⟨?_, ix, rfl⟩
        simp only [if_pos hmore, hpoint, ok_bind, hbefore, decide_false, pure_eq_ok]
    · left
      refine ⟨?_, ix, rfl⟩
      simp only [if_neg hmore, pure_eq_ok]

/-- The iterator past an entry. -/
def past (it : BlockIter) (shared : Nat) (stored : Bytes) (valOff stop ix : Nat) : BlockIter :=
  { it with
    offset := stop
    currentEntryOffset := it.offset
    currentRestartIx := ix
    key := it.key.take shared ++ stored
    valOffset := valOff }

variable {shared valOff stop ix : Nat} {stored : Bytes}

theorem Reads.past (h : Reads cmp block it) (shared : Nat) (stored : Bytes) (valOff stop ix : Nat) :
    Reads cmp block (it.past shared stored valOff stop ix) :=
  ⟨h.block_eq, h.cmp_eq, h.restartsOff_eq⟩

/-- An entry without a key, or behind the beginning of the restarts, is not shown. -/
theorem Reads.current_past_invalid (h : Reads cmp block it)
    (hinvalid : it.key.take shared ++ stored = [] ∨ restartsStart block < valOff) :
    (it.past shared stored valOff stop ix).current = .ok none := by
  have hvalid : (it.past shared stored valOff stop ix).valid = false := by
    cases hinvalid with
    | inl hnil => simp only [valid, BlockIter.past, hnil, List.isEmpty_nil, Bool.not_true,
        Bool.false_and]
    | inr hlate =>
        have hnot : ¬ valOff ≤ restartsStart block := not_le.mpr hlate
        simp only [valid, BlockIter.past, h.restartsOff_eq, hnot, decide_false, Bool.and_false]
  rw [current, hvalid]
  rfl

/-- Every other entry is shown, if its value lies within the block. -/
theorem Reads.current_past_valid (h : Reads cmp block it) (ix : Nat)
    (hbounds : it.offset < valOff ∧ valOff ≤ stop) (hkey : it.key.take shared ++ stored ≠ [])
    (hval : valOff ≤ restartsStart block) :
    (it.past shared stored valOff stop ix).current =
      if stop ≤ block.length then
        .ok (some (it.key.take shared ++ stored, (block.drop valOff).take (stop - valOff)))
      else .error .outOfBounds := by
  have hpos : 0 < valOff := by omega
  have hvalid : (it.past shared stored valOff stop ix).valid = true := by
    simp only [valid, BlockIter.past, h.restartsOff_eq, Bool.and_eq_true, Bool.not_eq_true',
      List.isEmpty_eq_false_iff, decide_eq_true_eq]
    exact ⟨⟨hkey, hpos⟩, hval⟩
  rw [current, if_pos hvalid]
  by_cases hstop : stop ≤ block.length
  · simp only [BlockIter.past, h.block_eq, slice_of_le hbounds.2 hstop, ok_bind, pure_eq_ok,
      if_pos hstop]
  · simp only [BlockIter.past, h.block_eq, slice, hstop, and_false, if_false, error_bind]

end BlockIter

/-! ## Entries -/

variable [Crates]

/-- The lengths in front of an entry, and how many bytes they take. -/
def lengthsAt (block : Bytes) (off : Nat) : Option (Nat × Nat × Nat × Nat) := do
  let (shared, sharedlen) ← decodeVar (block.drop off)
  let (nonShared, nonSharedlen) ← decodeVar (block.drop (off + sharedlen))
  let (valsize, valsizelen) ← decodeVar (block.drop (off + sharedlen + nonSharedlen))
  pure (shared, nonShared, valsize, sharedlen + nonSharedlen + valsizelen)

/-- There is an entry at an offset: its lengths end, its key lies within the block, and its value
is from one offset to another, which need not lie within the block. -/
def EntryAt (block : Bytes) (off shared : Nat) (stored : Bytes) (valOff stop : Nat) : Prop :=
  off ≤ block.length ∧ ∃ nonShared valsize len,
    lengthsAt block off = some (shared, nonShared, valsize, len) ∧
    valOff = off + len + nonShared ∧ valOff ≤ block.length ∧
    stop = valOff + valsize ∧ stop < wordLimit ∧
    stored = (block.drop (off + len)).take nonShared

/-- A restart points to an entry that shares nothing, has a key, and begins its value in front of
the restarts. -/
def RestartEntry (block : Bytes) (ix : Nat) (stored : Bytes) (valOff stop : Nat) : Prop :=
  EntryAt block (restartAt block ix) 0 stored valOff stop ∧ stored ≠ [] ∧
    valOff ≤ restartsStart block

variable {off shared valOff stop : Nat} {stored : Bytes}

/-- The lengths of an entry take bytes of the block. -/
theorem lengthsAt_bounds {nonShared valsize len : Nat}
    (h : lengthsAt block off = some (shared, nonShared, valsize, len)) :
    0 < len ∧ off + len ≤ block.length := by
  simp only [lengthsAt, Option.bind_eq_bind, Option.bind_eq_some_iff, Option.pure_def,
    Option.some.injEq, Prod.mk.injEq, Prod.exists] at h
  obtain ⟨s, l₁, h₁, n, l₂, h₂, v, l₃, h₃, -, -, -, rfl⟩ := h
  have hb₁ := Crates.decodeVar_bounds _ _ _ h₁
  have hb₂ := Crates.decodeVar_bounds _ _ _ h₂
  have hb₃ := Crates.decodeVar_bounds _ _ _ h₃
  simp only [List.length_drop] at hb₁ hb₂ hb₃
  omega

theorem EntryAt.bounds (h : EntryAt block off shared stored valOff stop) :
    off < valOff ∧ valOff ≤ stop := by
  obtain ⟨-, nonShared, valsize, len, hlengths, rfl, -, rfl, -⟩ := h
  have hlen := lengthsAt_bounds hlengths
  omega

namespace BlockIter

variable {cmp : Cmp} {it it' : BlockIter}

/-- The head of an entry is read exactly if its lengths end and add up. -/
theorem parseEntryAndAdvance_eq_ok_iff {r : (Nat × Nat × Nat × Nat) × BlockIter} :
    it.parseEntryAndAdvance = .ok r ↔ it.offset ≤ it.block.length ∧
      lengthsAt it.block it.offset = some r.1 ∧
      it.offset + r.1.2.2.2 + r.1.2.1 < wordLimit ∧
      it.offset + r.1.2.2.2 + r.1.2.1 + r.1.2.2.1 < wordLimit ∧
      r.2 = { it with
        valOffset := it.offset + r.1.2.2.2 + r.1.2.1
        offset := it.offset + r.1.2.2.2 + r.1.2.1 + r.1.2.2.1 } := by
  obtain ⟨⟨shared, nonShared, valsize, len⟩, it'⟩ := r
  simp only [parseEntryAndAdvance, bind_eq_ok_iff, sliceFrom_eq_ok_iff, unwrap_eq_ok_iff, wordAdd_eq_ok_iff,
    pure_eq_ok, Except.ok.injEq, Prod.mk.injEq, lengthsAt, Option.bind_eq_bind,
    Option.bind_eq_some_iff, Option.pure_def, Option.some.injEq, Prod.exists]
  constructor
  · rintro ⟨_, ⟨hoff, rfl⟩, s, l₁, h₁, _, ⟨-, rfl⟩, n, l₂, h₂, _, ⟨-, rfl⟩, v, l₃, h₃, _, ⟨hval, rfl⟩,
      _, ⟨hstop, rfl⟩, ⟨rfl, rfl, rfl, rfl⟩, rfl⟩
    rw [← Nat.add_assoc] at h₃
    exact ⟨hoff, ⟨_, _, h₁, _, _, h₂, _, _, h₃, rfl, rfl, rfl, rfl⟩, hval, hstop, rfl⟩
  · rintro ⟨hoff, ⟨s, l₁, h₁, n, l₂, h₂, v, l₃, h₃, rfl, rfl, rfl, rfl⟩, hval, hstop, rfl⟩
    have hb₁ := Crates.decodeVar_bounds _ _ _ h₁
    have hb₂ := Crates.decodeVar_bounds _ _ _ h₂
    simp only [List.length_drop] at hb₁ hb₂
    rw [Nat.add_assoc] at h₃
    exact ⟨_, ⟨hoff, rfl⟩, _, _, h₁, _, ⟨by omega, rfl⟩, _, _, h₂, _, ⟨by omega, rfl⟩, _, _, h₃, _,
      ⟨hval, rfl⟩, _, ⟨hstop, rfl⟩, ⟨rfl, rfl, rfl, rfl⟩, rfl⟩

/-- A restart can be jumped to exactly if it points to an entry with a key of its own. -/
theorem Reads.seekToRestartPoint_eq_ok_iff (h : Reads cmp block it) (hholds : HoldsRestarts block)
    {ix : Nat} (hix : ix < restartsIn block) :
    it.seekToRestartPoint ix = .ok it' ↔
      ∃ stored valOff stop, RestartEntry block ix stored valOff stop ∧
        it' = { it with
          offset := stop
          currentEntryOffset := restartAt block ix
          currentRestartIx := ix
          key := stored
          valOffset := valOff } := by
  simp only [seekToRestartPoint, h.getRestartPoint hholds (Or.inr hix), ok_bind, bind_eq_ok_iff,
    parseEntryAndAdvance_eq_ok_iff, ensure_eq_ok_iff, assembleKey_eq_ok_iff, pure_eq_ok,
    Except.ok.injEq, h.block_eq, Prod.exists]
  constructor
  · rintro ⟨_, nonShared, valsize, len, _, ⟨hoff, hlengths, -, hstop, rfl⟩, -, rfl, _,
      ⟨-, hval, rfl⟩, -, hvalid, rfl⟩
    simp only [valid, h.restartsOff_eq, List.take_zero, List.nil_append, Bool.and_eq_true,
      Bool.not_eq_true', List.isEmpty_eq_false_iff, decide_eq_true_eq] at hvalid
    exact ⟨_, _, _, ⟨⟨hoff, nonShared, valsize, len, hlengths, rfl, hval, rfl, hstop, rfl⟩,
      hvalid.1.1, hvalid.2⟩, by simp⟩
  · rintro ⟨stored, valOff, stop, ⟨⟨hoff, nonShared, valsize, len, hlengths, rfl, hval, rfl, hstop,
      rfl⟩, hkey, hbefore⟩, rfl⟩
    have hlen := lengthsAt_bounds hlengths
    refine ⟨0, nonShared, valsize, len, _, ⟨hoff, hlengths, by omega, hstop, rfl⟩, (), rfl, _,
      ⟨by omega, hval, rfl⟩, (), ?_, by simp⟩
    simp only [valid, h.restartsOff_eq, List.take_zero, List.nil_append, Bool.and_eq_true,
      Bool.not_eq_true', List.isEmpty_eq_false_iff, decide_eq_true_eq]
    exact ⟨⟨hkey, by omega⟩, hbefore⟩

/-- An iterator moves past the entry it is in front of. -/
theorem Reads.advance_of_entry (h : Reads cmp block it) (hlong : 4 < block.length)
    (hholds : HoldsRestarts block) (hmore : it.offset < restartsStart block)
    (hentry : EntryAt block it.offset shared stored valOff stop) :
    ∃ ix, it.advance = .ok (true, it.past shared stored valOff stop ix) := by
  obtain ⟨hoff, nonShared, valsize, len, hlengths, rfl, hval, rfl, hstop, rfl⟩ := hentry
  have hlen := lengthsAt_bounds hlengths
  have hnot : ¬ it.offset ≥ it.restartsOff := by
    rw [h.restartsOff_eq]
    omega
  have hparse : ({ it with currentEntryOffset := it.offset } : BlockIter).parseEntryAndAdvance =
      .ok ((shared, nonShared, valsize, len), { it with
        currentEntryOffset := it.offset
        valOffset := it.offset + len + nonShared
        offset := it.offset + len + nonShared + valsize }) := by
    rw [parseEntryAndAdvance_eq_ok_iff]
    exact ⟨by rwa [h.block_eq], by rwa [h.block_eq], by dsimp only; omega, hstop, rfl⟩
  have hassemble : ({ it with
        currentEntryOffset := it.offset
        valOffset := it.offset + len + nonShared
        offset := it.offset + len + nonShared + valsize } : BlockIter).assembleKey
      (it.offset + len) shared nonShared = .ok { it with
        currentEntryOffset := it.offset
        valOffset := it.offset + len + nonShared
        offset := it.offset + len + nonShared + valsize
        key := it.key.take shared ++ (block.drop (it.offset + len)).take nonShared } := by
    rw [assembleKey_eq_ok_iff, h.block_eq]
    exact ⟨by omega, hval, rfl⟩
  have hreads : Reads cmp block { it with
      currentEntryOffset := it.offset
      valOffset := it.offset + len + nonShared
      offset := it.offset + len + nonShared + valsize
      key := it.key.take shared ++ (block.drop (it.offset + len)).take nonShared } :=
    ⟨h.block_eq, h.cmp_eq, h.restartsOff_eq⟩
  obtain ⟨ix, hadjust⟩ := hreads.adjustRestartIx_total hlong hholds
  use ix
  simp only [advance, if_neg hnot, hparse, hassemble, hadjust, ok_bind, pure_eq_ok]
  rfl

/-- Where an iterator moves on, there is an entry. -/
theorem Reads.entry_of_advance (h : Reads cmp block it) (hmore : it.offset < restartsStart block)
    {r : Bool × BlockIter} (hadvance : it.advance = .ok r) :
    ∃ shared stored valOff stop, EntryAt block it.offset shared stored valOff stop := by
  have hnot : ¬ it.offset ≥ it.restartsOff := by
    rw [h.restartsOff_eq]
    omega
  simp only [advance, if_neg hnot, bind_eq_ok_iff, parseEntryAndAdvance_eq_ok_iff,
    assembleKey_eq_ok_iff, h.block_eq, Prod.exists] at hadvance
  obtain ⟨shared, nonShared, valsize, len, _, ⟨hoff, hlengths, -, hstop, rfl⟩, _, ⟨-, hval, rfl⟩, -⟩ :=
    hadvance
  exact ⟨_, _, _, _, hoff, nonShared, valsize, len, hlengths, rfl, hval, rfl, hstop, rfl⟩

end BlockIter

/-! ## Searches -/

/-- A binary search among the restarts from one to another ends at a restart, with the key of the
last restart it looked at. -/
inductive Probed (cmp : Cmp) (block target : Bytes) : Nat → Nat → Bytes → Nat → Bytes → Prop
  | found (ix : Nat) (key : Bytes) : Probed cmp block target ix ix key ix key
  | higher {left right ix valOff stop : Nat} {key stored key' : Bytes} (hmore : left < right)
      (hentry : RestartEntry block ((left + right + 1) / 2) stored valOff stop)
      (hcmp : cmp.cmp stored target = .lt)
      (hrest : Probed cmp block target ((left + right + 1) / 2) right stored ix key') :
      Probed cmp block target left right key ix key'
  | lower {left right ix valOff stop : Nat} {key stored key' : Bytes} (hmore : left < right)
      (hentry : RestartEntry block ((left + right + 1) / 2) stored valOff stop)
      (hcmp : cmp.cmp stored target ≠ .lt)
      (hrest : Probed cmp block target left ((left + right + 1) / 2 - 1) stored ix key') :
      Probed cmp block target left right key ix key'

/-- A scan from an offset, with the key of the entry in front of it, ends at an entry whose key is
not below the target, at an entry without a key or behind the beginning of the restarts, or where
the restarts begin. -/
inductive Scanned (cmp : Cmp) (block target : Bytes) : Nat → Bytes → Option Entry → Prop
  | past {off : Nat} {key : Bytes} (hend : restartsStart block ≤ off) :
      Scanned cmp block target off key none
  | invalid {off shared valOff stop : Nat} {key stored : Bytes} (hmore : off < restartsStart block)
      (hentry : EntryAt block off shared stored valOff stop)
      (hinvalid : key.take shared ++ stored = [] ∨ restartsStart block < valOff) :
      Scanned cmp block target off key none
  | reached {off shared valOff stop : Nat} {key stored : Bytes} (hmore : off < restartsStart block)
      (hentry : EntryAt block off shared stored valOff stop)
      (hkey : key.take shared ++ stored ≠ []) (hval : valOff ≤ restartsStart block)
      (hstop : stop ≤ block.length) (hcmp : cmp.cmp (key.take shared ++ stored) target ≠ .lt) :
      Scanned cmp block target off key
        (some (key.take shared ++ stored, (block.drop valOff).take (stop - valOff)))
  | passed {off shared valOff stop : Nat} {key stored : Bytes} {entry : Option Entry}
      (hmore : off < restartsStart block) (hentry : EntryAt block off shared stored valOff stop)
      (hkey : key.take shared ++ stored ≠ []) (hval : valOff ≤ restartsStart block)
      (hstop : stop ≤ block.length) (hcmp : cmp.cmp (key.take shared ++ stored) target = .lt)
      (hrest : Scanned cmp block target stop (key.take shared ++ stored) entry) :
      Scanned cmp block target off key entry

/-- A search of a block for a key ends with an entry or without one. -/
def Searched (cmp : Cmp) (block target : Bytes) (entry : Option Entry) : Prop :=
  HoldsRestarts block ∧ ∃ ix key, Probed cmp block target 0 (restartsIn block - 1) [] ix key ∧
    Scanned cmp block target (restartAt block ix) key entry

namespace BlockIter

variable {cmp : Cmp} {it it' : BlockIter} {target : Bytes}

/-! ### Scanning -/

/-- One pass of a scan. -/
def scanPass (target : Bytes) (it : BlockIter) : Exec (LoopStep BlockIter BlockIter) := do
  let (entry, it) ← it.next
  match entry with
  | some (k, _) => if it.opt.cmp.cmp k target = .lt then pure (.next it) else pure (.done it)
  | none => pure (.done it)

/-- Where the restarts begin, a scan ends. -/
theorem Reads.scanPass_end (h : Reads cmp block it) (hend : restartsStart block ≤ it.offset) :
    scanPass target it = .ok (.done it.reset) := by
  have hge : it.offset ≥ it.restartsOff := by
    rw [h.restartsOff_eq]
    exact hend
  simp only [scanPass, next, advance, if_pos hge, pure_eq_ok, ok_bind, Bool.false_eq_true, if_false]

/-- At an entry that is not shown, a scan ends. -/
theorem Reads.scanPass_invalid (h : Reads cmp block it) (hlong : 4 < block.length)
    (hholds : HoldsRestarts block) (hmore : it.offset < restartsStart block)
    (hentry : EntryAt block it.offset shared stored valOff stop)
    (hinvalid : it.key.take shared ++ stored = [] ∨ restartsStart block < valOff)
    (target : Bytes) : ∃ ix, scanPass target it = .ok (.done (it.past shared stored valOff stop ix)) := by
  obtain ⟨ix, hadvance⟩ := h.advance_of_entry hlong hholds hmore hentry
  use ix
  simp only [scanPass, next, hadvance, ok_bind, if_true, h.current_past_invalid hinvalid, pure_eq_ok]

/-- At an entry that is shown, a scan goes on if its key is below the target. -/
theorem Reads.scanPass_valid (h : Reads cmp block it) (hlong : 4 < block.length)
    (hholds : HoldsRestarts block) (hmore : it.offset < restartsStart block)
    (hentry : EntryAt block it.offset shared stored valOff stop)
    (hkey : it.key.take shared ++ stored ≠ []) (hval : valOff ≤ restartsStart block)
    (target : Bytes) : ∃ ix, scanPass target it =
      if stop ≤ block.length then
        .ok (if cmp.cmp (it.key.take shared ++ stored) target = .lt then
          .next (it.past shared stored valOff stop ix)
        else .done (it.past shared stored valOff stop ix))
      else .error .outOfBounds := by
  obtain ⟨ix, hadvance⟩ := h.advance_of_entry hlong hholds hmore hentry
  use ix
  have hcmp : (it.past shared stored valOff stop ix).opt.cmp = cmp := h.cmp_eq
  simp only [scanPass, next, hadvance, ok_bind, if_true,
    h.current_past_valid ix hentry.bounds hkey hval]
  by_cases hstop : stop ≤ block.length
  · simp only [if_pos hstop, ok_bind, pure_eq_ok, hcmp]
    split <;> rfl
  · simp only [if_neg hstop, error_bind]

/-- What a pass of a scan can do. -/
theorem Reads.scanPass_cases (h : Reads cmp block it) (hlong : 4 < block.length)
    (hholds : HoldsRestarts block) {step : LoopStep BlockIter BlockIter}
    (hpass : scanPass target it = .ok step) :
    (restartsStart block ≤ it.offset ∧ step = .done it.reset) ∨
      ∃ shared stored valOff stop ix, it.offset < restartsStart block ∧
        EntryAt block it.offset shared stored valOff stop ∧
        ((it.key.take shared ++ stored = [] ∨ restartsStart block < valOff) ∧
            step = .done (it.past shared stored valOff stop ix) ∨
          it.key.take shared ++ stored ≠ [] ∧ valOff ≤ restartsStart block ∧
            stop ≤ block.length ∧
            step = if cmp.cmp (it.key.take shared ++ stored) target = .lt then
                .next (it.past shared stored valOff stop ix)
              else .done (it.past shared stored valOff stop ix)) := by
  by_cases hend : restartsStart block ≤ it.offset
  · rw [h.scanPass_end hend, Except.ok.injEq] at hpass
    exact Or.inl ⟨hend, hpass.symm⟩
  · right
    have hmore := not_le.mp hend
    obtain ⟨shared, stored, valOff, stop, hentry⟩ :
        ∃ shared stored valOff stop, EntryAt block it.offset shared stored valOff stop := by
      simp only [scanPass, next, bind_eq_ok_iff] at hpass
      obtain ⟨-, ⟨r, hadvance, -⟩, -⟩ := hpass
      exact h.entry_of_advance hmore hadvance
    by_cases hinvalid : it.key.take shared ++ stored = [] ∨ restartsStart block < valOff
    · obtain ⟨ix, hdone⟩ := h.scanPass_invalid hlong hholds hmore hentry hinvalid target
      rw [hdone, Except.ok.injEq] at hpass
      exact ⟨shared, stored, valOff, stop, ix, hmore, hentry, Or.inl ⟨hinvalid, hpass.symm⟩⟩
    · have hkey : it.key.take shared ++ stored ≠ [] := fun hnil => hinvalid (Or.inl hnil)
      have hval : valOff ≤ restartsStart block := not_lt.mp fun hlate => hinvalid (Or.inr hlate)
      obtain ⟨ix, hstep⟩ := h.scanPass_valid hlong hholds hmore hentry hkey hval target
      rw [hstep] at hpass
      by_cases hstop : stop ≤ block.length
      · rw [if_pos hstop, Except.ok.injEq] at hpass
        exact ⟨shared, stored, valOff, stop, ix, hmore, hentry,
          Or.inr ⟨hkey, hval, hstop, hpass.symm⟩⟩
      · rw [if_neg hstop] at hpass
        cases hpass

/-- What a scan comes to. -/
theorem Reads.scanned_of_runs (hrun : LoopRuns (scanPass target) it it') (h : Reads cmp block it)
    (hlong : 4 < block.length) (hholds : HoldsRestarts block) :
    ∃ entry, Scanned cmp block target it.offset it.key entry ∧ it'.current = .ok entry := by
  induction hrun with
  | done hpass =>
      rcases h.scanPass_cases hlong hholds hpass with ⟨hend, hstep⟩ |
        ⟨shared, stored, valOff, stop, ix, hmore, hentry, ⟨hinvalid, hstep⟩ |
          ⟨hkey, hval, hstop, hstep⟩⟩
      · cases hstep
        exact ⟨none, .past hend, rfl⟩
      · cases hstep
        exact ⟨none, .invalid hmore hentry hinvalid, h.current_past_invalid hinvalid⟩
      · split at hstep
        · cases hstep
        · cases hstep
          have hcurrent := h.current_past_valid ix hentry.bounds hkey hval
          rw [if_pos hstop] at hcurrent
          exact ⟨_, .reached hmore hentry hkey hval hstop ‹_›, hcurrent⟩
  | next hpass _ ih =>
      rcases h.scanPass_cases hlong hholds hpass with ⟨-, hstep⟩ |
        ⟨shared, stored, valOff, stop, ix, hmore, hentry, ⟨-, hstep⟩ | ⟨hkey, hval, hstop, hstep⟩⟩
      · cases hstep
      · cases hstep
      · split at hstep
        · cases hstep
          obtain ⟨entry, hscanned, hcurrent⟩ := ih (h.past shared stored valOff stop ix)
          exact ⟨entry, .passed hmore hentry hkey hval hstop ‹_› hscanned, hcurrent⟩
        · cases hstep

/-- A scan comes to every entry that there is to come to. -/
theorem Reads.runs_of_scanned {off : Nat} {key : Bytes} {entry : Option Entry}
    (hscanned : Scanned cmp block target off key entry) (h : Reads cmp block it)
    (hlong : 4 < block.length) (hholds : HoldsRestarts block) (hoff : it.offset = off)
    (hkey : it.key = key) : ∃ it', LoopRuns (scanPass target) it it' ∧ it'.current = .ok entry := by
  induction hscanned generalizing it with
  | past hend =>
      subst hoff
      exact ⟨_, .done (h.scanPass_end hend), rfl⟩
  | invalid hmore hentry hinvalid =>
      subst hoff hkey
      obtain ⟨ix, hdone⟩ := h.scanPass_invalid hlong hholds hmore hentry hinvalid target
      exact ⟨_, .done hdone, h.current_past_invalid hinvalid⟩
  | reached hmore hentry hne hval hstop hcmp =>
      subst hoff hkey
      obtain ⟨ix, hstep⟩ := h.scanPass_valid hlong hholds hmore hentry hne hval target
      rw [if_pos hstop, if_neg hcmp] at hstep
      have hcurrent := h.current_past_valid ix hentry.bounds hne hval
      rw [if_pos hstop] at hcurrent
      exact ⟨_, .done hstep, hcurrent⟩
  | passed hmore hentry hne hval hstop hcmp _ ih =>
      subst hoff hkey
      obtain ⟨ix, hstep⟩ := h.scanPass_valid hlong hholds hmore hentry hne hval target
      rw [if_pos hstop, if_pos hcmp] at hstep
      obtain ⟨it', hrun, hcurrent⟩ := ih (h.past _ _ _ _ ix) rfl rfl
      exact ⟨it', .next hstep hrun, hcurrent⟩

/-- A scan ends exactly with the entries it can come to. -/
theorem Reads.scanTo_iff (h : Reads cmp block it) (hlong : 4 < block.length)
    (hholds : HoldsRestarts block) (entry : Option Entry) :
    (∃ it', it.scanTo target = .ok it' ∧ it'.current = .ok entry) ↔
      Scanned cmp block target it.offset it.key entry := by
  have hfuel : ∀ it' : BlockIter, it.scanTo target = .ok it' ↔ LoopRuns (scanPass target) it it' := by
    intro it'
    apply loop_eq_ok_iff (Reads cmp block) (fun s => restartsStart block - s.offset) _ h
    · unfold restartsStart
      rw [h.block_eq]
      omega
    · intro s s' hs hpass
      rcases hs.scanPass_cases hlong hholds hpass with ⟨-, hstep⟩ |
        ⟨shared, stored, valOff, stop, ix, hmore, hentry, ⟨-, hstep⟩ | ⟨-, -, -, hstep⟩⟩
      · cases hstep
      · cases hstep
      · split at hstep
        · cases hstep
          refine ⟨hs.past _ _ _ _ _, ?_⟩
          have hbounds := hentry.bounds
          simp only [BlockIter.past]
          omega
        · cases hstep
  constructor
  · rintro ⟨it', hscan, hcurrent⟩
    obtain ⟨entry', hscanned, hcurrent'⟩ := h.scanned_of_runs ((hfuel it').mp hscan) hlong hholds
    rw [hcurrent', Except.ok.injEq] at hcurrent
    rwa [← hcurrent]
  · intro hscanned
    obtain ⟨it', hrun, hcurrent⟩ := h.runs_of_scanned hscanned hlong hholds rfl rfl
    exact ⟨it', (hfuel it').mpr hrun, hcurrent⟩

/-! ### Searching the restarts -/

/-- One pass of a binary search. -/
def probePass (target : Bytes) : Nat × Nat × BlockIter → Exec (Nat × Nat × BlockIter)
  | (left, right, it) => do
      let middle := (left + right + 1) / 2
      let it ← it.seekToRestartPoint middle
      if it.opt.cmp.cmp it.key target = .lt then
        pure (middle, right, it)
      else
        pure (left, middle - 1, it)

/-- A binary search is over. -/
def probing : Nat × Nat × BlockIter → Exec Bool
  | (left, right, _) => pure (decide (left < right))

/-- The iterator at a restart. -/
def atRestart (it : BlockIter) (ix off : Nat) (stored : Bytes) (valOff stop : Nat) : BlockIter :=
  { it with
    offset := stop
    currentEntryOffset := off
    currentRestartIx := ix
    key := stored
    valOffset := valOff }

variable {left right ix : Nat}

omit [Crates] in
theorem Reads.atRestart (h : Reads cmp block it) (ix off : Nat) (stored : Bytes)
    (valOff stop : Nat) : Reads cmp block (it.atRestart ix off stored valOff stop) :=
  ⟨h.block_eq, h.cmp_eq, h.restartsOff_eq⟩

/-- A pass of a binary search looks at the restart in the middle. -/
theorem Reads.probePass_eq_ok_iff (h : Reads cmp block it) (hholds : HoldsRestarts block)
    (hmore : left < right) (hright : right < restartsIn block) (target : Bytes)
    {s : Nat × Nat × BlockIter} :
    probePass target (left, right, it) = .ok s ↔
      ∃ stored valOff stop, RestartEntry block ((left + right + 1) / 2) stored valOff stop ∧
        s = if cmp.cmp stored target = .lt then
            ((left + right + 1) / 2, right, it.atRestart ((left + right + 1) / 2)
              (restartAt block ((left + right + 1) / 2)) stored valOff stop)
          else
            (left, (left + right + 1) / 2 - 1, it.atRestart ((left + right + 1) / 2)
              (restartAt block ((left + right + 1) / 2)) stored valOff stop) := by
  have hmiddle : (left + right + 1) / 2 < restartsIn block := by omega
  simp only [probePass, bind_eq_ok_iff, h.seekToRestartPoint_eq_ok_iff hholds hmiddle]
  constructor
  · rintro ⟨_, ⟨stored, valOff, stop, hentry, rfl⟩, hstep⟩
    refine ⟨stored, valOff, stop, hentry, ?_⟩
    rw [h.cmp_eq] at hstep
    by_cases hcmp : cmp.cmp stored target = .lt
    · rw [if_pos hcmp, pure_eq_ok, Except.ok.injEq] at hstep
      rw [if_pos hcmp, ← hstep]
      rfl
    · rw [if_neg hcmp, pure_eq_ok, Except.ok.injEq] at hstep
      rw [if_neg hcmp, ← hstep]
      rfl
  · rintro ⟨stored, valOff, stop, hentry, rfl⟩
    refine ⟨_, ⟨stored, valOff, stop, hentry, rfl⟩, ?_⟩
    rw [h.cmp_eq]
    by_cases hcmp : cmp.cmp stored target = .lt
    · rw [if_pos hcmp, if_pos hcmp]
      rfl
    · rw [if_neg hcmp, if_neg hcmp]
      rfl

/-- The bounds of a binary search: they are restarts, unless there is none. -/
def Bounded (cmp : Cmp) (block : Bytes) : Nat × Nat × BlockIter → Prop
  | (left, right, it) => Reads cmp block it ∧ left ≤ right ∧ (right = 0 ∨ right < restartsIn block)

/-- Every pass keeps the bounds and brings them together. -/
theorem Bounded.pass {s s' : Nat × Nat × BlockIter} (h : Bounded cmp block s)
    (hholds : HoldsRestarts block) (hmore : probing s = .ok true)
    (hpass : probePass target s = .ok s') :
    Bounded cmp block s' ∧ s'.2.1 - s'.1 < s.2.1 - s.1 := by
  obtain ⟨left, right, it⟩ := s
  obtain ⟨hreads, hle, hright⟩ := h
  rw [probing, pure_eq_ok, Except.ok.injEq, decide_eq_true_eq] at hmore
  have hlast : right < restartsIn block := by omega
  obtain ⟨stored, valOff, stop, -, rfl⟩ := (hreads.probePass_eq_ok_iff hholds hmore hlast target).mp hpass
  by_cases hcmp : cmp.cmp stored target = .lt
  · rw [if_pos hcmp]
    refine ⟨⟨hreads.atRestart _ _ _ _ _, by omega, Or.inr hlast⟩, ?_⟩
    dsimp only
    omega
  · rw [if_neg hcmp]
    refine ⟨⟨hreads.atRestart _ _ _ _ _, by omega, Or.inr (by omega)⟩, ?_⟩
    dsimp only
    omega

/-- What a binary search comes to. -/
theorem Bounded.probed_of_runs {s t : Nat × Nat × BlockIter}
    (hrun : WhileRuns probing (probePass target) s t) (h : Bounded cmp block s)
    (hholds : HoldsRestarts block) :
    t.1 = t.2.1 ∧ Bounded cmp block t ∧
      Probed cmp block target s.1 s.2.1 s.2.2.key t.1 t.2.2.key := by
  induction hrun with
  | @stop s hstop =>
      obtain ⟨left, right, it⟩ := s
      have hle := h.2.1
      rw [probing, pure_eq_ok, Except.ok.injEq, decide_eq_false_iff_not] at hstop
      have heq : left = right := by omega
      subst heq
      exact ⟨rfl, h, .found _ _⟩
  | @pass s s' t hmore hpass _ ih =>
      obtain ⟨left, right, it⟩ := s
      obtain ⟨heq, hbounded, hprobed⟩ := ih (h.pass hholds hmore hpass).1
      refine ⟨heq, hbounded, ?_⟩
      obtain ⟨hreads, hle, hright⟩ := h
      rw [probing, pure_eq_ok, Except.ok.injEq, decide_eq_true_eq] at hmore
      obtain ⟨stored, valOff, stop, hentry, rfl⟩ :=
        (hreads.probePass_eq_ok_iff hholds hmore (by omega) target).mp hpass
      by_cases hcmp : cmp.cmp stored target = .lt
      · rw [if_pos hcmp] at hprobed
        exact .higher hmore hentry hcmp hprobed
      · rw [if_neg hcmp] at hprobed
        exact .lower hmore hentry hcmp hprobed

/-- A pass that finds an entry in the middle. -/
theorem Bounded.pass_of_entry (h : Bounded cmp block (left, right, it))
    (hholds : HoldsRestarts block) (hmore : left < right)
    (hentry : RestartEntry block ((left + right + 1) / 2) stored valOff stop) (target : Bytes) :
    ∃ it₁, it₁.key = stored ∧ probing (left, right, it) = .ok true ∧
      probePass target (left, right, it) = .ok (if cmp.cmp stored target = .lt then
        ((left + right + 1) / 2, right, it₁) else (left, (left + right + 1) / 2 - 1, it₁)) := by
  obtain ⟨hreads, -, hright⟩ := h
  refine ⟨_, rfl, ?_, (hreads.probePass_eq_ok_iff hholds hmore (by omega) target).mpr
    ⟨stored, valOff, stop, hentry, rfl⟩⟩
  simp only [probing, hmore, decide_true, pure_eq_ok]

/-- A binary search comes to every restart that there is to come to. -/
theorem Bounded.runs_of_probed {key key' : Bytes}
    (hprobed : Probed cmp block target left right key ix key')
    (h : Bounded cmp block (left, right, it)) (hholds : HoldsRestarts block) (hkey : it.key = key) :
    ∃ it', WhileRuns probing (probePass target) (left, right, it) (ix, ix, it') ∧
      Bounded cmp block (ix, ix, it') ∧ it'.key = key' := by
  induction hprobed generalizing it with
  | found ix key =>
      refine ⟨it, .stop ?_, h, hkey⟩
      simp only [probing, lt_irrefl, decide_false, pure_eq_ok]
  | higher hmore hentry hcmp _ ih =>
      obtain ⟨it₁, hkey₁, hprobing, hpass⟩ := h.pass_of_entry hholds hmore hentry target
      have hbounded := (h.pass hholds hprobing hpass).1
      rw [if_pos hcmp] at hpass hbounded
      obtain ⟨it', hrun, hspec⟩ := ih hbounded hkey₁
      exact ⟨it', .pass hprobing hpass hrun, hspec⟩
  | lower hmore hentry hcmp _ ih =>
      obtain ⟨it₁, hkey₁, hprobing, hpass⟩ := h.pass_of_entry hholds hmore hentry target
      have hbounded := (h.pass hholds hprobing hpass).1
      rw [if_neg hcmp] at hpass hbounded
      obtain ⟨it', hrun, hspec⟩ := ih hbounded hkey₁
      exact ⟨it', .pass hprobing hpass hrun, hspec⟩

/-- A binary search ends exactly at the restarts it can come to. -/
theorem Bounded.searchRestarts_iff (h : Bounded cmp block (0, right, it))
    (hholds : HoldsRestarts block) {t : Nat × Nat × BlockIter} :
    it.searchRestarts target right = .ok t ↔
      WhileRuns probing (probePass target) (0, right, it) t := by
  apply whileLoop_eq_ok_iff (Bounded cmp block) (fun s => s.2.1 - s.1) _ h
  · dsimp only
    omega
  · intro s s' hs hmore hpass
    exact hs.pass hholds hmore hpass

/-- A seek ends exactly with the entries that a search and a scan can come to. -/
theorem Reads.seek_iff (h : Reads cmp block it) (hlong : 4 < block.length)
    (hholds : HoldsRestarts block) (entry : Option Entry) :
    (∃ it', it.seek target = .ok it' ∧ it'.current = .ok entry) ↔
      ∃ ix key, Probed cmp block target 0 (restartsIn block - 1) [] ix key ∧
        Scanned cmp block target (restartAt block ix) key entry := by
  have hreset : Reads cmp block it.reset := ⟨h.block_eq, h.cmp_eq, h.restartsOff_eq⟩
  have hright : (if restartsIn block = 0 then 0 else restartsIn block - 1) =
      restartsIn block - 1 := by
    split <;> omega
  have hseek : it.seek target = (do
      let (left, right, it) ← it.reset.searchRestarts target (restartsIn block - 1)
      ensure (left = right)
      let off ← it.getRestartPoint left
      ({ it with currentRestartIx := left, offset := off } : BlockIter).scanTo target) := by
    simp only [seek, hreset.numberRestarts hlong, ok_bind, hright]
  have hbounded : Bounded cmp block (0, restartsIn block - 1, it.reset) :=
    ⟨hreset, Nat.zero_le _, by omega⟩
  have hjump : ∀ {it₁ : BlockIter} (ix : Nat), Reads cmp block it₁ →
      Reads cmp block { it₁ with currentRestartIx := ix, offset := restartAt block ix } :=
    fun ix h => ⟨h.block_eq, h.cmp_eq, h.restartsOff_eq⟩
  constructor
  · rintro ⟨it', hrun, hcurrent⟩
    simp only [hseek, bind_eq_ok_iff, ensure_eq_ok_iff, Prod.exists] at hrun
    obtain ⟨left, right, it₁, hsearch, -, rfl, off, hpoint, hscan⟩ := hrun
    obtain ⟨-, hbounded₁, hprobed⟩ :=
      hbounded.probed_of_runs ((hbounded.searchRestarts_iff hholds).mp hsearch) hholds
    rw [hbounded₁.1.getRestartPoint hholds hbounded₁.2.2, Except.ok.injEq] at hpoint
    subst hpoint
    exact ⟨left, it₁.key, hprobed,
      ((hjump left hbounded₁.1).scanTo_iff hlong hholds entry).mp ⟨it', hscan, hcurrent⟩⟩
  · rintro ⟨ix, key, hprobed, hscanned⟩
    obtain ⟨it₁, hrun, hbounded₁, hkey⟩ := hbounded.runs_of_probed hprobed hholds rfl
    have hsearch := (hbounded.searchRestarts_iff hholds).mpr hrun
    have hpoint := hbounded₁.1.getRestartPoint hholds hbounded₁.2.2
    rw [← hkey] at hscanned
    obtain ⟨it', hscan, hcurrent⟩ :=
      ((hjump ix hbounded₁.1).scanTo_iff hlong hholds entry).mpr hscanned
    refine ⟨it', ?_, hcurrent⟩
    simp only [hseek, hsearch, ok_bind, ensure_of_true, hpoint, hscan]

end BlockIter

omit [Crates] in
/-- An iterator over a block can be made exactly if the block holds its restarts. -/
theorem Block.iter_eq_ok_iff {b : Block} (hlong : 4 < b.block.length) {it : BlockIter} :
    b.iter = .ok it ↔ HoldsRestarts b.block ∧ it =
      { block := b.block
        opt := b.opt
        restartsOff := restartsStart b.block
        offset := 0
        currentEntryOffset := 0
        currentRestartIx := 0
        key := []
        valOffset := 0 } := by
  simp only [Block.iter, BlockIter.restartCount_eq hlong, wordSub_of_le hlong.le, ok_bind,
    bind_eq_ok_iff, wordSub_eq_ok_iff, pure_eq_ok, Except.ok.injEq, HoldsRestarts]
  constructor
  · rintro ⟨_, ⟨hle, rfl⟩, rfl⟩
    exact ⟨by omega, rfl⟩
  · rintro ⟨hle, rfl⟩
    exact ⟨_, ⟨by omega, rfl⟩, rfl⟩

/-- A block can be searched exactly if there is something to come to, and that is what is found. -/
theorem search_eq_ok_iff {b : Block} {target : Bytes} (hlong : 4 < b.block.length)
    (entry : Option Entry) :
    (b.iter >>= fun it => it.seek target >>= fun it => it.current) = .ok entry ↔
      Searched b.opt.cmp b.block target entry := by
  simp only [bind_eq_ok_iff, Block.iter_eq_ok_iff hlong]
  constructor
  · rintro ⟨it, ⟨hholds, hit⟩, it', hseek, hcurrent⟩
    have hreads : BlockIter.Reads b.opt.cmp b.block it := by
      rw [hit]
      exact ⟨rfl, rfl, rfl⟩
    exact ⟨hholds, (hreads.seek_iff hlong hholds entry).mp ⟨it', hseek, hcurrent⟩⟩
  · rintro ⟨hholds, hfound⟩
    have hreads : BlockIter.Reads b.opt.cmp b.block
        { block := b.block
          opt := b.opt
          restartsOff := restartsStart b.block
          offset := 0
          currentEntryOffset := 0
          currentRestartIx := 0
          key := []
          valOffset := 0 } := ⟨rfl, rfl, rfl⟩
    obtain ⟨it', hseek, hcurrent⟩ := (hreads.seek_iff hlong hholds entry).mpr hfound
    exact ⟨_, ⟨hholds, rfl⟩, it', hseek, hcurrent⟩

end SSTable
