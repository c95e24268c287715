import SSTable.Foundation.Termination
import SSTable.Verification.Block.Raw
import SSTable.Verification.Block.Refinement

/-!
# Iterators over any bytes come to an end

The bytes of a block that is read from a damaged file may be anything.  Whatever they are, no
operation on an iterator over them goes on for ever: every pass of its loops moves the iterator
forward, or takes it one restart down, or halves what is left to be searched.

Main results:

- Theorem {lit}`BlockIter.settles_advance`: moving on takes an iterator forward or resets it.
- Theorem {lit}`BlockOp.settles`: every operation comes to an end.
-/

namespace SSTable

open Foundation Foundation.Exec Foundation.Bytes

namespace BlockIter

/-- An iterator over any bytes: the entry that it is on begins before the restarts. -/
structure Sane (it : BlockIter) : Prop where
  restartsOff_le : it.restartsOff ≤ it.block.length
  entry_lt : it.currentEntryOffset = 0 ∨ it.currentEntryOffset < it.restartsOff

/-- The iterators are over the same bytes. -/
def Same (it it' : BlockIter) : Prop := it'.block = it.block ∧ it'.restartsOff = it.restartsOff

variable {it it' : BlockIter}

theorem Same.refl (it : BlockIter) : Same it it := ⟨rfl, rfl⟩

theorem Same.trans {it'' : BlockIter} (h : Same it it') (h' : Same it' it'') : Same it it'' :=
  ⟨h'.1.trans h.1, h'.2.trans h.2⟩

theorem Sane.reset (h : it.Sane) : it.reset.Sane := ⟨h.restartsOff_le, h.entry_lt⟩

theorem settles_numberRestarts (it : BlockIter) : Settles (fun _ => True) it.numberRestarts :=
  (settles_wordSub _ _).bind fun _ _ => (settles_sliceFrom _ _).bind fun _ _ => trivial

theorem settles_getRestartPoint (it : BlockIter) (ix : Nat) :
    Settles (fun _ => True) (it.getRestartPoint ix) :=
  (settles_slice _ _ _).bind fun _ _ => trivial

/-- Only the key is put together. -/
theorem settles_assembleKey (it : BlockIter) (off shared nonShared : Nat) :
    Settles (fun it' => ∃ key, it' = { it with key := key })
      (it.assembleKey off shared nonShared) :=
  (settles_wordAdd _ _).bind fun _ _ => (settles_slice _ _ _).bind fun _ _ => ⟨_, rfl⟩

/-- Only the restart index is moved up. -/
theorem settles_adjustRestartIx (it : BlockIter) :
    Settles (fun it' => ∃ ix, it' = { it with currentRestartIx := ix }) it.adjustRestartIx := by
  refine (settles_numberRestarts it).bind fun numRestarts _ => ?_
  refine Settles.whileLoop (fun it' => ∃ ix, it' = { it with currentRestartIx := ix })
    (fun it' => numRestarts - it'.currentRestartIx) ?_ ?_ ⟨_, rfl⟩ (by omega)
  · rintro it' ⟨ix, rfl⟩
    dsimp only
    split
    · exact (settles_getRestartPoint _ _).bind fun _ _ _ => ⟨ix, rfl⟩
    · exact fun _ => ⟨ix, rfl⟩
  · rintro it' ⟨ix, rfl⟩ hmore
    refine ⟨⟨ix + 1, rfl⟩, ?_⟩
    dsimp only at hmore ⊢
    split at hmore
    · omega
    · simp at hmore

theorem settles_current (it : BlockIter) : Settles (fun r => it.current = .ok r) it.current := by
  refine settles_of_ne (Settles.ne (Q := fun _ => True) ?_)
  unfold current
  split
  · exact (settles_slice _ _ _).bind fun _ _ => trivial
  · trivial

variable [Crates]

/-- Parsing an entry moves past its value. -/
theorem settles_parseEntryAndAdvance (it : BlockIter) :
    Settles (fun r => r.2.offset ≥ r.2.valOffset ∧ r.2.valOffset > it.offset ∧
      r.2 = { it with valOffset := r.2.valOffset, offset := r.2.offset })
      it.parseEntryAndAdvance := by
  refine (settles_of_ne ?_).mono fun r hr => ?_
  · refine Settles.ne (Q := fun _ => True) ?_
    exact (settles_sliceFrom _ _).bind fun _ _ => settles_unwrap.bind fun _ _ =>
      (settles_sliceFrom _ _).bind fun _ _ => settles_unwrap.bind fun _ _ =>
      (settles_sliceFrom _ _).bind fun _ _ => settles_unwrap.bind fun _ _ =>
      (settles_wordAdd _ _).bind fun _ _ => (settles_wordAdd _ _).bind fun _ _ => trivial
  · obtain ⟨⟨shared, nonShared, valsize, len⟩, it'⟩ := r
    obtain ⟨-, hlengths, -, -, heq⟩ := parseEntryAndAdvance_eq_ok_iff.mp hr
    obtain ⟨hpos, -⟩ := lengthsAt_bounds hlengths
    dsimp only at heq
    subst heq
    dsimp only
    refine ⟨by omega, by omega, rfl⟩

/-- A restart that is jumped to lies before the restarts. -/
theorem settles_seekToRestartPoint (h : it.Sane) (ix : Nat) :
    Settles (fun it' => it'.Sane ∧ Same it it') (it.seekToRestartPoint ix) := by
  refine (settles_getRestartPoint it ix).bind fun off _ => ?_
  refine (settles_parseEntryAndAdvance _).bind ?_
  rintro ⟨⟨shared, nonShared, valsize, headLen⟩, it₁⟩ ⟨-, hval, heq⟩
  dsimp only at heq hval
  refine settles_ensure.bind fun _ _ => ?_
  refine (settles_assembleKey _ _ _ _).bind ?_
  rintro it₂ ⟨key, rfl⟩
  refine settles_ensure.bind fun _ hvalid => ?_
  have hle : it₁.valOffset ≤ it₁.restartsOff := by
    simp only [valid, Bool.and_eq_true, decide_eq_true_eq] at hvalid
    exact hvalid.2
  have hblock : it₁.block = it.block := by rw [heq]
  have hoff : it₁.restartsOff = it.restartsOff := by rw [heq]
  have hentry : it₁.currentEntryOffset = off := by rw [heq]
  refine ⟨⟨?_, Or.inr ?_⟩, hblock, hoff⟩
  · dsimp only
    rw [hblock, hoff]
    exact h.restartsOff_le
  · dsimp only
    omega

/-- Moving on takes the iterator forward, or resets it. -/
theorem settles_advance (h : it.Sane) :
    Settles (fun r => r.2.Sane ∧ Same it r.2 ∧
      (r.1 = true → it.offset < it.restartsOff ∧ it.offset < r.2.offset) ∧
      (r.1 = false → it.restartsOff ≤ it.offset ∧ r.2 = it.reset)) it.advance := by
  unfold advance
  split
  · rename_i hend
    exact ⟨h.reset, Same.refl it, by simp, fun _ => ⟨hend, rfl⟩⟩
  · rename_i hmore
    refine (settles_parseEntryAndAdvance _).bind ?_
    rintro ⟨⟨shared, nonShared, valsize, headLen⟩, it₁⟩ ⟨hoff, hval, heq⟩
    dsimp only at hoff hval heq
    refine (settles_assembleKey _ _ _ _).bind ?_
    rintro it₂ ⟨key, rfl⟩
    refine (settles_adjustRestartIx _).bind ?_
    rintro it₃ ⟨ix, rfl⟩
    have hblock : it₁.block = it.block := by rw [heq]
    have hrestarts : it₁.restartsOff = it.restartsOff := by rw [heq]
    have hentry : it₁.currentEntryOffset = it.offset := by rw [heq]
    refine ⟨⟨?_, Or.inr ?_⟩, ⟨hblock, hrestarts⟩, ?_, by simp⟩
    · dsimp only
      rw [hblock, hrestarts]
      exact h.restartsOff_le
    · dsimp only
      omega
    · refine fun _ => ⟨by omega, ?_⟩
      dsimp only
      omega

/-- The next entry that is returned lies in front of the iterator. -/
theorem settles_next (h : it.Sane) :
    Settles (fun r => r.2.Sane ∧ Same it r.2 ∧
      ∀ e, r.1 = some e → it.offset < it.restartsOff ∧ it.offset < r.2.offset) it.next := by
  refine (settles_advance h).bind ?_
  rintro ⟨_ | _, it'⟩ ⟨hsane, hsame, hmore, -⟩
  · exact ⟨hsane, hsame, by simp⟩
  · exact (settles_current it').bind fun _ _ => ⟨hsane, hsame, fun _ _ => hmore rfl⟩

/-- The last entry is in front of every other one that moving on leads to. -/
theorem settles_seekToLast (h : it.Sane) :
    Settles (fun it' => it'.Sane ∧ Same it it') it.seekToLast := by
  have hscan : ∀ it₁, it₁.Sane ∧ Same it it₁ → Settles (fun it' => it'.Sane ∧ Same it it') (do
      let it' ← whileLoop
        (fun it => pure (decide (it.offset < it.restartsOff)))
        (fun it => do
          let r ← it.advance
          pure r.2)
        (it₁.block.length + 1) it₁
      ensure (it'.valid = true)
      pure it') := by
    intro it₁ h₁
    refine Settles.bind (Q := fun it' => it'.Sane ∧ Same it it') ?_ fun it₂ h₂ => ?_
    case refine_2 => exact settles_ensure.bind fun _ _ => h₂
    refine Settles.whileLoop (fun it' => it'.Sane ∧ Same it it')
      (fun it' => it'.restartsOff - it'.offset) ?_ ?_ h₁ ?_
    · exact fun it' h' _ => h'
    · intro it' h' hmore
      have hlt : it'.offset < it'.restartsOff := by simpa using hmore
      refine (settles_advance h'.1).bind ?_
      rintro ⟨_ | _, it''⟩ ⟨hsane, hsame, hnext, hend⟩
      · exact absurd (hend rfl).1 (not_le.mpr hlt)
      · have hforward := (hnext rfl).2
        have hoff := hsame.2
        refine ⟨⟨hsane, h'.2.trans hsame⟩, ?_⟩
        dsimp only at hforward hoff ⊢
        omega
    · have hle := h₁.1.restartsOff_le
      omega
  refine (settles_numberRestarts it).bind fun numRestarts _ => ?_
  dsimp only
  split
  · exact (settles_seekToRestartPoint h _).bind hscan
  · exact hscan it.reset ⟨h.reset, Same.refl it⟩

/-- Going back goes down the restarts, and from there forward up to the entry in front of the
current one, which lies before the restarts. -/
theorem settles_prev (h : it.Sane) :
    Settles (fun r => r.2.Sane ∧ Same it r.2) it.prev := by
  unfold prev
  dsimp only
  split
  · exact ⟨h.reset, Same.refl it⟩
  · rename_i hnonzero
    have hlt : it.currentEntryOffset < it.restartsOff := h.entry_lt.resolve_left hnonzero
    have hrewind : Settles (fun it' => it'.Sane ∧ Same it it')
        (it.rewindRestartIx it.currentEntryOffset) := by
      refine Settles.loop (fun it' => it'.Sane ∧ Same it it') (fun it' => it'.currentRestartIx) ?_
        ⟨h, Same.refl it⟩ (Nat.lt_succ_self _)
      intro it' h'
      refine (settles_getRestartPoint it' _).bind fun point _ => ?_
      split
      · split
        · refine (settles_numberRestarts it').bind fun numRestarts _ => ?_
          exact ⟨⟨h'.1.restartsOff_le, h'.1.entry_lt⟩, h'.2⟩
        · rename_i hix
          refine ⟨⟨⟨h'.1.restartsOff_le, h'.1.entry_lt⟩, h'.2⟩, ?_⟩
          dsimp only
          omega
      · exact h'
    refine hrewind.bind fun it₁ h₁ => ?_
    refine (settles_getRestartPoint it₁ _).bind fun off _ => ?_
    refine settles_ensure.bind fun _ hoff => ?_
    refine Settles.loop
      (fun it' => (it'.Sane ∧ Same it it') ∧ it'.offset < it.currentEntryOffset)
      (fun it' => it.restartsOff - it'.offset) ?_
      ⟨⟨⟨h₁.1.restartsOff_le, h₁.1.entry_lt⟩, h₁.2⟩, hoff⟩ ?_
    · rintro it' ⟨⟨hsane', hsame'⟩, hbefore⟩
      refine (settles_advance hsane').bind ?_
      rintro ⟨moved, it''⟩ ⟨hsane, hsame, hnext, hend⟩
      have hrestarts := hsame'.2
      dsimp only
      split
      · exact ⟨hsane, hsame'.trans hsame⟩
      · rename_i hless
        refine ⟨⟨⟨hsane, hsame'.trans hsame⟩, not_le.mp hless⟩, ?_⟩
        cases moved with
        | true =>
            have hforward := (hnext rfl).2
            dsimp only at hforward
            omega
        | false =>
            have hpast := (hend rfl).1
            omega
    · have hle := h.restartsOff_le
      have hsame := h₁.2.1
      dsimp only
      rw [hsame]
      omega

/-- Searching the restarts halves what is left of them. -/
theorem settles_searchRestarts (h : it.Sane) (target : Bytes) (right : Nat) :
    Settles (fun r => r.2.2.Sane ∧ Same it r.2.2) (it.searchRestarts target right) := by
  refine Settles.whileLoop (fun s => s.2.2.Sane ∧ Same it s.2.2) (fun s => s.2.1 - s.1) ?_ ?_
    ⟨h, Same.refl it⟩ ?_
  · exact fun s h' _ => h'
  · rintro ⟨left, right, it'⟩ h' hmore
    have hlt : left < right := by simpa using hmore
    refine (settles_seekToRestartPoint h'.1 _).bind fun it'' h'' => ?_
    split
    · refine ⟨⟨h''.1, h'.2.trans h''.2⟩, ?_⟩
      dsimp only
      omega
    · refine ⟨⟨h''.1, h'.2.trans h''.2⟩, ?_⟩
      dsimp only
      omega
  · dsimp only
    omega

/-- A scan reads one entry after the other. -/
theorem settles_scanTo (h : it.Sane) (target : Bytes) :
    Settles (fun it' => it'.Sane ∧ Same it it') (it.scanTo target) := by
  refine Settles.loop (fun it' => it'.Sane ∧ Same it it')
    (fun it' => it'.restartsOff - it'.offset) ?_ ⟨h, Same.refl it⟩ ?_
  · rintro it' h'
    refine (settles_next h'.1).bind ?_
    rintro ⟨_ | ⟨k, v⟩, it''⟩ ⟨hsane, hsame, hmore⟩
    · exact ⟨hsane, h'.2.trans hsame⟩
    · obtain ⟨hlt, hforward⟩ := hmore _ rfl
      have hrestarts := hsame.2
      dsimp only at hforward hrestarts ⊢
      split
      · exact ⟨⟨hsane, h'.2.trans hsame⟩, by omega⟩
      · exact ⟨hsane, h'.2.trans hsame⟩
  · have hle := h.restartsOff_le
    omega

theorem settles_seek (h : it.Sane) (target : Bytes) :
    Settles (fun it' => it'.Sane ∧ Same it it') (it.seek target) := by
  refine (settles_numberRestarts _).bind fun numRestarts _ => ?_
  refine (settles_searchRestarts h.reset target _).bind ?_
  rintro ⟨left, right, it₁⟩ ⟨h₁, hsame⟩
  refine settles_ensure.bind fun _ _ => ?_
  refine (settles_getRestartPoint it₁ _).bind fun off _ => ?_
  have hmoved : Sane { it₁ with currentRestartIx := left, offset := off } :=
    ⟨h₁.restartsOff_le, h₁.entry_lt⟩
  exact (settles_scanTo hmoved target).mono fun it' h' => ⟨h'.1, hsame.trans h'.2⟩

end BlockIter

open BlockIter

variable [Crates]

/-- Every operation on an iterator over any bytes comes to an end. -/
theorem BlockOp.settles {it : BlockIter} (h : it.Sane) (op : BlockOp) :
    Settles (fun r => r.2.Sane ∧ Same it r.2) (op.onIter it) := by
  cases op with
  | advance => exact (settles_advance h).bind fun r hr => ⟨hr.1, hr.2.1⟩
  | prev => exact (settles_prev h).bind fun r hr => hr
  | seek target => exact (settles_seek h target).bind fun it hit => hit
  | seekToLast => exact (settles_seekToLast h).bind fun it hit => hit
  | reset => exact ⟨h.reset, Same.refl it⟩

omit [Crates] in
/-- An iterator over any block begins in front of its restarts. -/
theorem Block.settles_iter (b : Block) :
    Settles (fun it => it.Sane ∧ it.block = b.block) b.iter := by
  refine Settles.bind (Q := fun _ => True) ?_ fun restarts _ => ?_
  · exact (settles_wordSub _ _).bind fun _ _ => (settles_sliceFrom _ _).bind fun _ _ => trivial
  · refine (settles_wordSub _ _).bind fun last hlast => ?_
    refine (settles_wordSub _ _).bind fun off hoff => ?_
    refine ⟨⟨?_, Or.inl rfl⟩, rfl⟩
    dsimp only
    omega

end SSTable
