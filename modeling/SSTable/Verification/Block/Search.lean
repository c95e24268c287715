import SSTable.Foundation.Cursor
import SSTable.Verification.Block.Iteration
import SSTable.Verification.Entries

/-!
# Seeking in a block

A seek searches the restarts for the last one below the target and scans forward from it.
In an ordered block it reaches the lower bound of the target; in any block it reaches
some entry or none.

Main results:

- Theorem {lit}`seek_spec`: in an ordered block, seeking reaches the lower bound.
- Theorem {lit}`seek_partial`: a seek that succeeds leaves the iterator at an entry of the
  block or at none, whatever the order of the keys.
-/

namespace SSTable

open Foundation Foundation.Exec Foundation.Bytes

namespace BlockLayout

/-- The keys of the block. -/
def keys (L : BlockLayout) : List Bytes := L.slots.map Slot.key

/-- The keys are not empty and increase strictly. -/
structure Ordered (L : BlockLayout) : Prop where
  key_ne_nil : ∀ s ∈ L.slots, s.key ≠ []
  keys_lt : L.keys.Pairwise (· < ·)

theorem keys_getElem? (L : BlockLayout) (i : Nat) : L.keys[i]? = L.slots[i]?.map Slot.key := by
  simp [keys]

@[simp] theorem keysOf_entries (L : BlockLayout) : keysOf L.entries = L.keys := by
  simp [keysOf, entries, keys, Slot.entry]

/-- The order of a block is that of its entries. -/
theorem ordered_of_entries {L : BlockLayout} (hinc : Increasing L.entries)
    (hkeys : NonEmptyKeys L.entries) : L.Ordered where
  key_ne_nil s hs := hkeys s.entry (List.mem_map_of_mem hs)
  keys_lt := L.keysOf_entries ▸ hinc

theorem Ordered.key_lt {L : BlockLayout} (h : L.Ordered) {i j : Nat} {s t : Slot}
    (hs : L.slots[i]? = some s) (ht : L.slots[j]? = some t) (hij : i < j) : s.key < t.key := by
  obtain ⟨hi, rfl⟩ := List.getElem?_eq_some_iff.mp hs
  obtain ⟨hj, rfl⟩ := List.getElem?_eq_some_iff.mp ht
  have hlt := List.pairwise_iff_getElem.mp h.keys_lt i j (by simpa [keys]) (by simpa [keys]) hij
  simpa [keys] using hlt

end BlockLayout

variable [Crates]

namespace BlockIter

/-- The iterator is where a cursor over the slots of the layout is. -/
def Placed (L : BlockLayout) : Option Nat → BlockIter → Prop
  | none, it => Unplaced L it
  | some i, it => ∃ s, At L i s it

variable {L : BlockLayout} {it : BlockIter} {i : Nat}

theorem Placed.over {p : Option Nat} (h : Placed L p it) : Over L it := by
  cases p with
  | none => exact h.toOver
  | some i =>
      obtain ⟨s, hat⟩ := h
      exact hat.toOver

/-- An iterator without a position is before the first entry. -/
theorem Placed.before {p : Option Nat} (h : Placed L p it) : Before L (Cursor.next p) it := by
  cases p with
  | none => exact Unplaced.before h
  | some i =>
      obtain ⟨s, hat⟩ := h
      exact hat.before

/-- The slots in front of an index have keys below the target. -/
def Below (L : BlockLayout) (target : Bytes) (i : Nat) : Prop :=
  ∀ j s, j < i → L.slots[j]? = some s → s.key < target

/-! ## The restarts -/

/-- The bounds of the binary search, with the iterator that looks at the restarts. -/
structure Bracket (L : BlockLayout) (s : Nat × Nat × BlockIter) : Prop where
  le : s.1 ≤ s.2.1
  lt_length : s.2.1 < L.restartIx.length
  placed : Over L s.2.2

/-- While the bounds differ, the restart between them has a slot. -/
theorem Bracket.middle {left right : Nat} (h : Bracket L (left, right, it)) (hmore : left < right) :
    ∃ r s, L.restartIx[(left + right + 1) / 2]? = some r ∧ L.slots[r]? = some s := by
  have hlt := h.lt_length
  have hmid : (left + right + 1) / 2 < L.restartIx.length := by
    simp only at hlt
    omega
  have hix := List.getElem?_eq_getElem hmid
  have hne : L.slots ≠ [] := by
    intro hnil
    have := congrArg List.length (L.restartIx_of_nil hnil)
    simp only [List.length_cons, List.length_nil] at this
    omega
  obtain ⟨s, hslot, -⟩ := L.restart_slot hne (List.mem_of_getElem? hix)
  exact ⟨_, s, hix, hslot⟩

theorem Bracket.lower {left right : Nat} (h : Bracket L (left, right, it)) (hmore : left < right)
    {it' : BlockIter} (hover : Over L it') : Bracket L (left, (left + right + 1) / 2 - 1, it') := by
  have hle := h.le
  have hlt := h.lt_length
  simp only at hle hlt
  exact ⟨by simp only; omega, by simp only; omega, hover⟩

theorem Bracket.raise {left right : Nat} (h : Bracket L (left, right, it)) (hmore : left < right)
    {it' : BlockIter} (hover : Over L it') : Bracket L ((left + right + 1) / 2, right, it') :=
  ⟨by simp only; omega, h.lt_length, hover⟩

/-- The restart at an index is the first slot or lies behind slots below the target. -/
def Admissible (L : BlockLayout) (target : Bytes) (left : Nat) : Prop :=
  ∃ r, L.restartIx[left]? = some r ∧ Below L target r

/-- The search ends at a restart in front of the lower bound. -/
theorem searchRestarts_spec (h : Over L it) (hord : L.Ordered) (target : Bytes) {right : Nat}
    (hright : right < L.restartIx.length) :
    ∃ left it', it.searchRestarts target right = .ok (left, left, it') ∧ Over L it' ∧
      Admissible L target left := by
  have hrun : ∃ s, it.searchRestarts target right = .ok s ∧
      s.1 = s.2.1 ∧ Over L s.2.2 ∧ Admissible L target s.1 := by
    refine whileLoop_total (fun s => Bracket L s ∧ Admissible L target s.1) _
      (fun s => s.2.1 - s.1) ?_ (s := (0, right, it)) ⟨⟨Nat.zero_le _, hright, h⟩,
        0, L.restart_first, fun _ _ hj => absurd hj (Nat.not_lt_zero _)⟩ (Nat.lt_add_one right)
    rintro ⟨left, right, it⟩ ⟨hbracket, hadm⟩
    by_cases hmore : left < right
    · refine Or.inr ⟨by simp [hmore], ?_⟩
      obtain ⟨r, s, hix, hslot⟩ := hbracket.middle hmore
      obtain ⟨it', hjump, hat⟩ := seekToRestartPoint_spec hbracket.placed hix hslot
        (hord.key_ne_nil s (List.mem_of_getElem? hslot))
      by_cases hcmp : s.key < target
      · refine ⟨((left + right + 1) / 2, right, it'),
          by simp [hjump, hat.cmp_eq, DefaultCmp, hat.key_eq, hcmp],
          ⟨hbracket.raise hmore hat.toOver, r, hix, ?_⟩, ?_⟩
        · intro j t hj ht
          exact (hord.key_lt ht hslot hj).trans hcmp
        · simp only
          omega
      · refine ⟨(left, (left + right + 1) / 2 - 1, it'),
          by simp [hjump, hat.cmp_eq, DefaultCmp, hat.key_eq, hcmp],
          ⟨hbracket.lower hmore hat.toOver, hadm⟩, ?_⟩
        simp only
        omega
    · have hle := hbracket.le
      exact Or.inl ⟨by simp [hmore], Nat.le_antisymm hle (not_lt.mp hmore), hbracket.placed, hadm⟩
  obtain ⟨⟨left, right', it'⟩, hsearch, hleft, hover, hadm⟩ := hrun
  simp only at hleft hover hadm
  exact ⟨left, it', hleft ▸ hsearch, hover, hadm⟩

/-- The scan stops at the lower bound, provided that it starts in front of it.  Where there is
none, it has passed the last entry. -/
theorem scanTo_spec (h : Before L i it) (hord : L.Ordered) {target : Bytes}
    (hbelow : Below L target i) :
    ∃ it', it.scanTo target = .ok it' ∧ Placed L (Cursor.lowerBound L.keys target) it' ∧
      (Cursor.lowerBound L.keys target = none → i < L.slots.length →
        it'.currentEntryOffset = L.offsetOf (L.slots.length - 1)) := by
  refine loop_total (fun it' => ∃ k, i ≤ k ∧ Before L k it' ∧ Below L target k ∧
      (i < k → it'.currentEntryOffset = L.offsetOf (k - 1))) _
    (fun it' => L.body.length - it'.offset) ?_
    ⟨i, le_rfl, h, hbelow, fun hi => absurd hi (Nat.lt_irrefl i)⟩
    (Nat.lt_of_le_of_lt (Nat.sub_le _ _) (Nat.lt_of_le_of_lt
      (L.body_le_contents.trans (by rw [h.block_eq]) : _ ≤ it.block.length) (by omega)))
  rintro it' ⟨k, hik, hbefore, hbelow, hentry⟩
  rcases Nat.lt_or_ge k L.slots.length with hmore | hend
  · have hslot := List.getElem?_eq_getElem hmore
    obtain ⟨it'', hnext, hat⟩ := next_of_before hbefore hslot
      (hord.key_ne_nil _ (List.getElem_mem hmore))
    by_cases hcmp : L.slots[k].key < target
    · refine Or.inl ⟨it'', by simp [hnext, Slot.entry, hat.cmp_eq, DefaultCmp, hcmp],
        ⟨k + 1, Nat.le_succ_of_le hik, hat.before, ?_, fun _ => hat.entry_eq⟩, ?_⟩
      · intro j s hj hs
        rcases Nat.lt_succ_iff_lt_or_eq.mp hj with hlt | rfl
        · exact hbelow j s hlt hs
        · rw [hslot, Option.some.injEq] at hs
          exact hs ▸ hcmp
      · have hstep := L.offsetOf_lt_offsetOf (Nat.lt_add_one k) hmore
        have hlast := L.offsetOf_le_body (k + 1)
        rw [hbefore.offset_eq, hat.offset_eq]
        omega
    · have hbound : Cursor.lowerBound L.keys target = some k := by
        refine Cursor.lowerBound_eq_some_iff.mpr ⟨L.slots[k].key, ?_, not_lt.mp hcmp, ?_⟩
        · rw [L.keys_getElem?, hslot, Option.map_some]
        · intro j key hj hkey
          rw [L.keys_getElem?, Option.map_eq_some_iff] at hkey
          obtain ⟨s, hs, rfl⟩ := hkey
          exact hbelow j s hj hs
      rw [hbound]
      exact Or.inr ⟨it'', by simp [hnext, Slot.entry, hat.cmp_eq, DefaultCmp, hcmp], ⟨_, hat⟩,
        by simp⟩
  · have hbound : Cursor.lowerBound L.keys target = none := by
      rw [Cursor.lowerBound_eq_none_iff]
      intro key hkey
      obtain ⟨s, hs, rfl⟩ := List.mem_map.mp hkey
      obtain ⟨j, hj, rfl⟩ := List.mem_iff_getElem.mp hs
      exact hbelow j _ (by omega) (List.getElem?_eq_getElem hj)
    rw [hbound]
    refine Or.inr ⟨it'.reset, by simp [next_of_end hbefore hend], hbefore.reset, ?_⟩
    intro _ hi
    have hlast : k - 1 = L.slots.length - 1 := by
      rw [le_antisymm hbefore.le_length hend]
    rw [← hlast]
    exact hentry (lt_of_lt_of_le hi hend)

/-- Behind the last entry, the scan ends at once. -/
theorem scanTo_of_end (h : Before L i it) (hend : L.slots.length ≤ i) (target : Bytes) :
    it.scanTo target = .ok it.reset :=
  loop_succ_done _ (by simp [next_of_end h hend])

/-- Without restarts to choose from, a search looks at nothing. -/
theorem searchRestarts_zero (it : BlockIter) (target : Bytes) :
    it.searchRestarts target 0 = .ok (0, 0, it) := by
  simp [searchRestarts, whileLoop, loop]

/-- In an ordered block, seeking reaches the lower bound of the target.  Where there is none, the
iterator was last on the last entry. -/
theorem seek_passes (h : Over L it) (hord : L.Ordered) (target : Bytes) :
    ∃ it', it.seek target = .ok it' ∧ Placed L (Cursor.lowerBound L.keys target) it' ∧
      (Cursor.lowerBound L.keys target = none → it'.currentEntryOffset =
        if L.slots = [] then it.currentEntryOffset else L.offsetOf (L.slots.length - 1)) := by
  have hcount := L.restartIx_length_pos
  have hne := Nat.pos_iff_ne_zero.mp hcount
  by_cases hnil : L.slots = []
  · have hfirst := h.reset.toOver.before_restartIx L.restart_first
    have hpoint := h.reset.toOver.getRestartPoint L.restart_first
    have hbound : Cursor.lowerBound L.keys target = none := by
      simp [BlockLayout.keys, hnil, Cursor.lowerBound]
    have hscan := scanTo_of_end hfirst (by simp [hnil]) target
    rw [hbound]
    refine ⟨_, ?_, hfirst.reset, fun _ => by rw [if_pos hnil]; rfl⟩
    have hone : L.restartIx.length - 1 = 0 := by
      rw [L.restartIx_of_nil hnil]
      rfl
    simp only [seek, h.reset.numberRestarts, ok_bind, if_neg hne, hone, searchRestarts_zero,
      ensure_of_true, hpoint, hscan]
  · obtain ⟨left, it₁, hsearch, hover, r, hix, hbelow⟩ :=
      searchRestarts_spec h.reset.toOver hord target (Nat.sub_lt hcount Nat.one_pos)
    obtain ⟨it₂, hscan, hplaced, hlast⟩ := scanTo_spec (hover.before_restartIx hix) hord hbelow
    refine ⟨it₂, ?_, hplaced, ?_⟩
    · simp only [seek, h.reset.numberRestarts, ok_bind, if_neg hne, hsearch, ensure_of_true,
        hover.getRestartPoint hix, hscan]
    · intro hbound
      rw [if_neg hnil]
      obtain ⟨s, hslot, -⟩ := L.restart_slot hnil (List.mem_of_getElem? hix)
      exact hlast hbound (List.getElem?_eq_some_iff.mp hslot).1

/-- In an ordered block, seeking reaches the lower bound of the target. -/
theorem seek_spec (h : Over L it) (hord : L.Ordered) (target : Bytes) :
    ∃ it', it.seek target = .ok it' ∧ Placed L (Cursor.lowerBound L.keys target) it' := by
  obtain ⟨it', hseek, hplaced, -⟩ := seek_passes h hord target
  exact ⟨it', hseek, hplaced⟩

/-! ## Blocks in any order -/

/-- A search that succeeds ends at some restart. -/
theorem searchRestarts_partial (h : Over L it) {target : Bytes} {right : Nat}
    {r : Nat × Nat × BlockIter} (hright : right < L.restartIx.length)
    (hsearch : it.searchRestarts target right = .ok r) : Bracket L r := by
  refine (whileLoop_invariant (Bracket L) ?_ ⟨Nat.zero_le _, hright, h⟩ hsearch).1
  rintro ⟨left, right, it⟩ s' hbracket hcond hbody
  have hmore : left < right := by simpa using hcond
  obtain ⟨r, s, hix, hslot⟩ := hbracket.middle hmore
  simp only [bind_eq_ok_iff] at hbody
  obtain ⟨it', hjump, hrest⟩ := hbody
  have hat := seekToRestartPoint_partial hbracket.placed hix hslot hjump
  split at hrest
  · simp only [pure_eq_ok, Except.ok.injEq] at hrest
    exact hrest ▸ hbracket.raise hmore hat.toOver
  · simp only [pure_eq_ok, Except.ok.injEq] at hrest
    exact hrest ▸ hbracket.lower hmore hat.toOver

/-- A step to the next entry that succeeds reaches it, or ends behind the last one. -/
theorem next_partial (h : Before L i it) {entry : Option Entry} {it' : BlockIter}
    (hnext : it.next = .ok (entry, it')) :
    Placed L (if i < L.slots.length then some i else none) it' := by
  rcases Nat.lt_or_ge i L.slots.length with hmore | hend
  · obtain ⟨it'', hadvance, hat⟩ := advance_of_before h (List.getElem?_eq_getElem hmore)
    simp only [next, hadvance, ok_bind, if_true, bind_eq_ok_iff, pure_eq_ok, Except.ok.injEq,
      Prod.mk.injEq] at hnext
    obtain ⟨_, _, _, rfl⟩ := hnext
    rw [if_pos hmore]
    exact ⟨_, hat⟩
  · rw [next_of_end h hend, Except.ok.injEq, Prod.mk.injEq] at hnext
    rw [if_neg (not_lt.mpr hend), ← hnext.2]
    exact h.reset

/-- A scan that succeeds ends at an entry or at none. -/
theorem scanTo_partial (h : Before L i it) {target : Bytes} {it' : BlockIter}
    (hscan : it.scanTo target = .ok it') : ∃ p, Placed L p it' := by
  refine loop_partial (fun it => ∃ k, Before L k it) (fun it => ∃ p, Placed L p it) ?_ ?_ ⟨i, h⟩
    hscan
  all_goals
    rintro it it₂ ⟨k, hbefore⟩ hbody
    simp only [bind_eq_ok_iff, Prod.exists] at hbody
    obtain ⟨entry, it₁, hnext, hrest⟩ := hbody
    have hplaced := next_partial hbefore hnext
    split at hrest
  · split at hrest
    · simp only [pure_eq_ok, Except.ok.injEq, LoopStep.next.injEq] at hrest
      exact ⟨_, hrest ▸ hplaced.before⟩
    · simp at hrest
  · simp at hrest
  · split at hrest
    · simp at hrest
    · simp only [pure_eq_ok, Except.ok.injEq, LoopStep.done.injEq] at hrest
      exact ⟨_, hrest ▸ hplaced⟩
  · simp only [pure_eq_ok, Except.ok.injEq, LoopStep.done.injEq] at hrest
    exact ⟨_, hrest ▸ hplaced⟩

/-- A seek that succeeds leaves the iterator at an entry of the block or at none. -/
theorem seek_partial (h : Over L it) {target : Bytes} {it' : BlockIter}
    (hseek : it.seek target = .ok it') : ∃ p, Placed L p it' := by
  have hcount := L.restartIx_length_pos
  simp only [seek, h.reset.numberRestarts, ok_bind, if_neg (Nat.pos_iff_ne_zero.mp hcount),
    bind_eq_ok_iff, ensure_eq_ok_iff, Prod.exists] at hseek
  obtain ⟨left, right, it₁, hsearch, -, hlr, off, hoff, hscan⟩ := hseek
  have hbracket := searchRestarts_partial h.reset.toOver (Nat.sub_lt hcount Nat.one_pos) hsearch
  have hleft : left < L.restartIx.length := Nat.lt_of_le_of_lt hbracket.le hbracket.lt_length
  have hix := List.getElem?_eq_getElem hleft
  rw [hbracket.placed.getRestartPoint hix, Except.ok.injEq] at hoff
  subst hoff
  exact scanTo_partial (hbracket.placed.before_restartIx hix) hscan

/-- What a placed iterator shows is an entry of the block. -/
theorem Placed.current_mem {p : Option Nat} (h : Placed L p it) {e : Entry}
    (hcurrent : it.current = .ok (some e)) : e ∈ L.entries := by
  cases p with
  | none => simp [Unplaced.current h] at hcurrent
  | some i =>
      obtain ⟨s, hat⟩ := h
      by_cases hkey : s.key = []
      · simp [hat.current_of_nil hkey] at hcurrent
      · rw [hat.current hkey, Except.ok.injEq, Option.some.injEq] at hcurrent
        exact hcurrent ▸ List.mem_map_of_mem (List.mem_of_getElem? hat.slot_eq)

end BlockIter

end SSTable
