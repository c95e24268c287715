import SSTable.Verification.Block.Refinement

/-!
# What a block iterator remembers

A block iterator without a position still remembers on which entry it was last, and going back
starts from there.  The theorems below follow the iterator through every operation, whether it is
valid or not, and say when what it remembers can be seen.

Main results:

- Theorem {lit}`Tracked.step`: every operation moves the iterator where it moves the trail.
- Theorem {lit}`Tracked.observe_reset_iff`: when a reset iterator shows what a fresh one shows.
- Theorem {lit}`Driven.tracked`: every state that is reached in any way has a trail.
-/

namespace SSTable

open Foundation Foundation.Exec Foundation.Bytes

/-! ## The trail of an iterator -/

/-- The result of an operation on a trail over a list of entries. -/
def BlockOp.onTrail (es : List Entry) (τ : Trail) : BlockOp → Exec (Option Bool × Trail)
  | .advance =>
      let τ := τ.advance es.length
      pure (some τ.pos.isSome, τ)
  | .prev => pure (some τ.prev.pos.isSome, τ.prev)
  | .seek target => pure (none, .search es.length (Cursor.lowerBound (keysOf es) target))
  | .seekToLast => do
      ensure (0 < es.length)
      pure (none, .on (es.length - 1))
  | .reset => pure (none, τ.clear)

/-- An observed step of a trail. -/
def trailStep (es : List Entry) (τ : Trail) (op : BlockOp) : Exec (Observation × Trail) := do
  let (moved, τ) ← op.onTrail es τ
  pure (.at es moved τ.pos, τ)

/-- A trail without a position that has been on an entry is told from one that has not by going
back at once, and by nothing else. -/
theorem observe_trail_iff {es : List Entry} {l : Nat} (hl : l = 0 ∨ l < es.length)
    (ops : List BlockOp) :
    observe (trailStep es) ⟨none, l⟩ ops = observe (trailStep es) Trail.start ops ↔
      l = 0 ∨ ops.find? (· ≠ .reset) ≠ some .prev := by
  cases l with
  | zero => simp [Trail.start]
  | succ l =>
      have hpos : 0 < es.length := by omega
      refine (observe_eq_iff (fun op => op = .reset) (fun op => op ≠ .prev) ?_ ?_ ?_ ops).trans ?_
      · intro op hop
        obtain rfl : op = .reset := by simpa using hop
        exact ⟨_, rfl, rfl⟩
      · intro op hop hsame
        cases op with
        | advance => simp [trailStep, BlockOp.onTrail, Trail.advance, Trail.start, Cursor.advance, hpos]
        | prev => exact absurd rfl hsame
        | seek target => rfl
        | seekToLast => rfl
        | reset => simp at hop
      · intro op _ hprev
        obtain rfl : op = .prev := by simpa using hprev
        simp [observe, trailStep, BlockOp.onTrail, Trail.prev, Trail.start, Trail.on, Observation.at]
      · simp only [Nat.succ_ne_zero, false_or]
        constructor
        · intro h hprev
          exact h .prev (by simpa using hprev) rfl
        · rintro h op hop rfl
          exact h (by simpa using hop)

variable [Crates]

namespace BlockIter

/-- The iterator is where a trail over the slots of the layout is, and remembers what it does. -/
structure Tracked (L : BlockLayout) (τ : Trail) (it : BlockIter) : Prop where
  placed : Placed L τ.pos it
  entry_eq : it.currentEntryOffset = L.offsetOf τ.last
  last_lt : τ.last = 0 ∨ τ.last < L.slots.length

variable {L : BlockLayout} {it : BlockIter} {τ : Trail}

theorem At.tracked {i : Nat} {s : Slot} (h : At L i s it) : Tracked L (.on i) it where
  placed := ⟨s, h⟩
  entry_eq := h.entry_eq
  last_lt := Or.inr h.lt_length

/-- Resetting forgets the position, but not the last one. -/
theorem Tracked.reset (h : Tracked L τ it) : Tracked L τ.clear it.reset where
  placed := h.placed.over.reset
  entry_eq := h.entry_eq
  last_lt := h.last_lt

/-- Where there is no next entry, the iterator is reset. -/
theorem Tracked.advance_of_end (h : Tracked L τ it)
    (hend : Cursor.advance L.slots.length τ.pos = none) : it.advance = .ok (false, it.reset) :=
  BlockIter.advance_of_end h.placed.before (Cursor.advance_eq_none_iff.mp hend)

/-- There, it remembers the last entry. -/
theorem Tracked.entry_of_end (h : Tracked L τ it)
    (hend : Cursor.advance L.slots.length τ.pos = none) :
    it.currentEntryOffset = L.offsetOf (L.slots.length - 1) := by
  have hplaced := h.placed
  rw [Cursor.advance_eq_none_iff] at hend
  cases hpos : τ.pos with
  | none =>
      rw [hpos, Cursor.next] at hend
      have hlast : τ.last = 0 := by
        have := h.last_lt
        omega
      rw [h.entry_eq, hlast, Nat.le_zero.mp hend]
  | some i =>
      rw [hpos, Cursor.next] at hend
      rw [hpos] at hplaced
      obtain ⟨s, hat⟩ := hplaced
      have hlt := hat.lt_length
      have hlast : i = L.slots.length - 1 := by omega
      rw [hat.entry_eq, hlast]

theorem Tracked.advance (h : Tracked L τ it) :
    ∃ it', it.advance = .ok ((τ.advance L.slots.length).pos.isSome, it') ∧
      Tracked L (τ.advance L.slots.length) it' := by
  obtain ⟨it', hadvance, hplaced⟩ := advance_refines h.placed
  unfold Trail.advance
  cases hcursor : Cursor.advance L.slots.length τ.pos with
  | some i =>
      rw [hcursor] at hadvance hplaced
      obtain ⟨s, hat⟩ := hplaced
      exact ⟨it', hadvance, hat.tracked⟩
  | none => exact ⟨it.reset, h.advance_of_end hcursor, h.reset⟩

theorem Tracked.prev (h : Tracked L τ it) :
    ∃ it', it.prev = .ok (τ.prev.pos.isSome, it') ∧ Tracked L τ.prev it' := by
  unfold Trail.prev
  cases hlast : τ.last with
  | zero =>
      have hentry := h.entry_eq
      rw [hlast, L.offsetOf_zero] at hentry
      refine ⟨it.reset, prev_of_entry_zero hentry, h.placed.over.reset, ?_, Or.inl rfl⟩
      rw [Trail.start, L.offsetOf_zero]
      exact hentry
  | succ i =>
      have hentry := h.entry_eq
      have hlt := h.last_lt
      rw [hlast] at hentry hlt
      obtain ⟨it', s, hprev, hat⟩ := prev_of_entry h.placed.over hentry (by omega)
      exact ⟨it', hprev, hat.tracked⟩

theorem Tracked.seek (h : Tracked L τ it) (hord : L.Ordered) (target : Bytes) :
    ∃ it', it.seek target = .ok it' ∧
      Tracked L (.search L.slots.length (Cursor.lowerBound L.keys target)) it' := by
  obtain ⟨it', hseek, hplaced, hentry⟩ := seek_passes h.placed.over hord target
  refine ⟨it', hseek, ?_⟩
  cases hbound : Cursor.lowerBound L.keys target with
  | some i =>
      rw [hbound] at hplaced
      obtain ⟨s, hat⟩ := hplaced
      exact hat.tracked
  | none =>
      rw [hbound] at hplaced hentry
      refine ⟨hplaced, ?_, ?_⟩
      · rw [hentry rfl]
        by_cases hnil : L.slots = []
        · have hlast : τ.last = 0 := by
            have := h.last_lt
            simpa [hnil] using this
          rw [if_pos hnil, h.entry_eq, hlast]
          simp [Trail.search, hnil]
        · rw [if_neg hnil]
          rfl
      · simp only [Trail.search]
        omega

theorem Tracked.seekToLast (h : Tracked L τ it) (hord : L.Ordered) (hne : L.slots ≠ []) :
    ∃ it', it.seekToLast = .ok it' ∧ Tracked L (.on (L.slots.length - 1)) it' := by
  obtain ⟨it', s, hlast, hat⟩ := seekToLast_spec h.placed.over hne hord.key_ne_nil
  exact ⟨it', hlast, hat.tracked⟩

/-- Every operation moves the iterator where it moves the trail, and fails only where that does. -/
theorem Tracked.step (h : Tracked L τ it) (hord : L.Ordered) (op : BlockOp) :
    Mirrors (fun it τ => Tracked L τ it) (op.onIter it) (op.onTrail L.entries τ) := by
  have hlen := L.entries_length
  cases op with
  | advance =>
      obtain ⟨it', hadvance, htracked⟩ := h.advance
      rw [← hlen] at hadvance htracked
      exact ⟨it', by simp [BlockOp.onIter, hadvance], htracked⟩
  | prev =>
      obtain ⟨it', hprev, htracked⟩ := h.prev
      exact ⟨it', by simp [BlockOp.onIter, hprev], htracked⟩
  | seek target =>
      obtain ⟨it', hseek, htracked⟩ := h.seek hord target
      rw [← hlen, ← L.keysOf_entries] at htracked
      exact ⟨it', by simp [BlockOp.onIter, hseek], htracked⟩
  | seekToLast =>
      by_cases hnil : L.slots = []
      · have hstop : BlockOp.onTrail L.entries τ .seekToLast = .error .assertion := by
          simp [BlockOp.onTrail, hnil, ensure_of_false]
        rw [hstop]
        rintro ⟨r, hrun⟩
        simp only [BlockOp.onIter, bind_eq_ok_iff] at hrun
        obtain ⟨it', hlast, -⟩ := hrun
        exact seekToLast_of_nil h.placed.over hnil hlast
      · have hmove : BlockOp.onTrail L.entries τ .seekToLast =
            .ok (none, .on (L.entries.length - 1)) := by
          have hpos := List.length_pos_of_ne_nil hnil
          simp [BlockOp.onTrail, ensure_of_true hpos]
        obtain ⟨it', hlast, htracked⟩ := h.seekToLast hord hnil
        rw [hmove]
        refine ⟨it', by simp [BlockOp.onIter, hlast], ?_⟩
        rw [hlen]
        exact htracked
  | reset => exact ⟨it.reset, rfl, h.reset⟩

/-- So does every observed step. -/
theorem Tracked.observed_step (h : Tracked L τ it) (hord : L.Ordered) (op : BlockOp) :
    Mirrors (fun it τ => Tracked L τ it) (it.step op) (trailStep L.entries τ op) := by
  have hstep := h.step hord op
  cases htrail : op.onTrail L.entries τ with
  | error e =>
      rw [htrail] at hstep
      simp only [trailStep, htrail, error_bind]
      rintro ⟨r, hrun⟩
      simp only [BlockIter.step, bind_eq_ok_iff] at hrun
      obtain ⟨r', hop, -⟩ := hrun
      exact hstep ⟨r', hop⟩
  | ok r =>
      rw [htrail] at hstep
      obtain ⟨it', hop, htracked⟩ := hstep
      simp only [trailStep, htrail, ok_bind, pure_eq_ok]
      refine ⟨it', ?_, htracked⟩
      rw [BlockIter.step, hop, ok_bind]
      exact htracked.placed.observed hord _

/-- An iterator that was not last on another entry was on the first one or on none. -/
theorem Tracked.entry_zero_iff (h : Tracked L τ it) : it.currentEntryOffset = 0 ↔ τ.last = 0 := by
  rw [h.entry_eq]
  constructor
  · intro hzero
    by_contra hne
    have hin := h.last_lt.resolve_left hne
    have hlt := L.offsetOf_lt_offsetOf (Nat.pos_of_ne_zero hne) (Nat.zero_lt_of_lt hin)
    rw [L.offsetOf_zero, hzero] at hlt
    exact Nat.lt_irrefl 0 hlt
  · intro hzero
    rw [hzero, L.offsetOf_zero]

/-- A reset iterator shows what a fresh one shows, unless it remembers an entry other than the
first one and goes back before it moves in another way. -/
theorem Tracked.observe_reset_iff {it₀ : BlockIter} (h : Tracked L τ it) (hord : L.Ordered)
    (hfresh : Tracked L .start it₀) (ops : List BlockOp) :
    observe BlockIter.step it.reset ops = observe BlockIter.step it₀ ops ↔
      it.currentEntryOffset = 0 ∨ ops.find? (· ≠ .reset) ≠ some .prev := by
  have hmirror : ∀ (it : BlockIter) (τ : Trail) (op : BlockOp), Tracked L τ it →
      Mirrors (fun it τ => Tracked L τ it) (it.step op) (trailStep L.entries τ op) :=
    fun it τ op h => h.observed_step hord op
  rw [observe_mirrors hmirror h.reset ops, observe_mirrors hmirror hfresh ops, h.entry_zero_iff]
  exact observe_trail_iff (by rw [L.entries_length]; exact h.last_lt) ops

/-! ## Every history -/

/-- The states that are reached by any operations in any order. -/
def Driven : BlockIter → BlockIter → Prop :=
  Relation.ReflTransGen fun it it' => ∃ (op : BlockOp) (moved : Option Bool),
    op.onIter it = .ok (moved, it')

theorem Driven.tracked {it₀ : BlockIter} {τ₀ : Trail} (hord : L.Ordered) (h₀ : Tracked L τ₀ it₀)
    (hdriven : Driven it₀ it) : ∃ τ, Tracked L τ it := by
  induction hdriven with
  | refl => exact ⟨τ₀, h₀⟩
  | tail _ hmove ih =>
      obtain ⟨τ, htracked⟩ := ih
      obtain ⟨op, moved, hop⟩ := hmove
      have hmirror := htracked.step hord op
      rw [hop] at hmirror
      obtain ⟨τ', -, htracked'⟩ := hmirror.of_ok
      exact ⟨τ', htracked'⟩

theorem tracked_iter {b : Block} (hsmall : L.Small) (hcmp : b.opt.cmp = DefaultCmp)
    (hblock : b.block = L.contents) : ∃ it, b.iter = .ok it ∧ Tracked L .start it := by
  obtain ⟨it, hiter, hun⟩ := Block.iter_spec hsmall hcmp hblock
  exact ⟨it, hiter, hun, (Block.entry_of_iter hiter).trans L.offsetOf_zero.symm, Or.inl rfl⟩

end BlockIter

end SSTable
