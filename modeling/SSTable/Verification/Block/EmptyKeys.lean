import SSTable.Verification.Block.Resetting

/-!
# Blocks that begin with an empty key

A block builder takes the empty string as its first key, but an iterator with an empty key is not
valid.  So the blocks that are read back are those without an empty key.

Main results:

- Theorem {lit}`block_reads_back_iff`: exactly the blocks without an empty key are read back.
-/

namespace SSTable

open Foundation Foundation.Exec Foundation.Bytes

section

variable [Crates]

namespace BlockIter

/-- Take the next entry until there is none, for at most the given number of calls. -/
def drain : Nat → BlockIter → Exec (List Entry × BlockIter)
  | 0, _ => .error .divergence
  | calls + 1, it => do
      let (entry, it) ← it.next
      match entry with
      | some e => do
          let (rest, it) ← drain calls it
          pure (e :: rest, it)
      | none => pure ([], it)

/-- A block is read back as a sequence of entries: a fresh iterator yields exactly the sequence
before there is no next entry and, in every state that it reaches, seeking a key of the sequence
ends on its entry, and advancing returns true exactly if the iterator is valid afterwards. -/
structure ReadsBack (es : List Entry) (it₀ : BlockIter) : Prop where
  drains : ∃ calls it, drain calls it₀ = .ok (es, it)
  seeks : ∀ it, BlockIter.Driven it₀ it → ∀ e ∈ es,
    ∃ it', it.seek e.1 = .ok it' ∧ it'.valid = true ∧ it'.current = .ok (some e)
  advances : ∀ it, BlockIter.Driven it₀ it →
    ∃ more it', it.advance = .ok (more, it') ∧ (more = true ↔ it'.valid = true)

variable {L : BlockLayout} {it : BlockIter} {τ : Trail} {i : Nat}

/-- Without empty keys, every entry that is left is read. -/
theorem drain_spec (h : Before L i it) (hord : L.Ordered) :
    ∃ it', drain (L.slots.length - i + 1) it = .ok (L.entries.drop i, it') := by
  obtain ⟨m, hm⟩ : ∃ m, m = L.slots.length - i := ⟨_, rfl⟩
  rw [← hm]
  induction m generalizing i it with
  | zero =>
      have hend : L.slots.length ≤ i := by omega
      refine ⟨it.reset, ?_⟩
      rw [List.drop_of_length_le (by rwa [L.entries_length])]
      simp [drain, next_of_end h hend]
  | succ m ih =>
      have hlt : i < L.slots.length := by omega
      have hslot := List.getElem?_eq_getElem hlt
      obtain ⟨it₁, hnext, hat⟩ := next_of_before h hslot (hord.key_ne_nil _ (List.getElem_mem hlt))
      obtain ⟨it', hrest⟩ := ih hat.before (by omega)
      have hdrop : L.entries.drop i = L.slots[i].entry :: L.entries.drop (i + 1) := by
        have hget := L.entries_getElem? i
        rw [hslot, Option.map_some, List.getElem?_eq_some_iff] at hget
        obtain ⟨hi, hget⟩ := hget
        rw [List.drop_eq_getElem_cons hi, hget]
      refine ⟨it', ?_⟩
      rw [hdrop, drain, hnext, ok_bind]
      simp only [hrest, ok_bind, pure_eq_ok]

/-- An entry with an empty key is no next entry, and hides the entries behind it. -/
theorem drain_of_nil_key {s : Slot} (h : Before L i it) (hslot : L.slots[i]? = some s)
    (hkey : s.key = []) {calls : Nat} {es : List Entry} {it' : BlockIter}
    (hdrain : drain calls it = .ok (es, it')) : es = [] := by
  obtain ⟨it₁, hadvance, hat⟩ := advance_of_before h hslot
  have hnext : it.next = .ok (none, it₁) := by
    simp [next, hadvance, hat.current_of_nil hkey]
  cases calls with
  | zero => simp [drain] at hdrain
  | succ calls =>
      simp only [drain, hnext, ok_bind, pure_eq_ok, Except.ok.injEq, Prod.mk.injEq] at hdrain
      exact hdrain.1.symm

/-- In a block without empty keys, seeking a key ends on its entry. -/
theorem Tracked.seek_key (h : Tracked L τ it) (hord : L.Ordered) {e : Entry} (he : e ∈ L.entries) :
    ∃ it', it.seek e.1 = .ok it' ∧ it'.valid = true ∧ it'.current = .ok (some e) := by
  obtain ⟨i, hi⟩ := List.mem_iff_getElem?.mp he
  rw [L.entries_getElem?, Option.map_eq_some_iff] at hi
  obtain ⟨s, hslot, rfl⟩ := hi
  have hbound : Cursor.lowerBound L.keys s.key = some i := by
    refine Cursor.lowerBound_eq_some_iff.mpr ⟨s.key, ?_, le_rfl, ?_⟩
    · rw [L.keys_getElem?, hslot, Option.map_some]
    · intro j k hj hk
      rw [L.keys_getElem?, Option.map_eq_some_iff] at hk
      obtain ⟨s', hs', rfl⟩ := hk
      exact hord.key_lt hs' hslot hj
  obtain ⟨it', hseek, htracked⟩ := h.seek hord s.key
  rw [hbound] at htracked
  obtain ⟨s', hat⟩ := htracked.placed
  have hsame := hat.slot_eq
  rw [hslot, Option.some.injEq] at hsame
  subst hsame
  have hkey := hord.key_ne_nil s (List.mem_of_getElem? hslot)
  exact ⟨it', hseek, hat.valid_of_ne_nil hkey, hat.current hkey⟩

/-- There, advancing returns true exactly if the iterator is valid afterwards. -/
theorem Tracked.advance_valid (h : Tracked L τ it) (hord : L.Ordered) :
    ∃ more it', it.advance = .ok (more, it') ∧ (more = true ↔ it'.valid = true) := by
  obtain ⟨it', hadvance, htracked⟩ := h.advance
  refine ⟨_, it', hadvance, ?_⟩
  have hplaced := htracked.placed
  cases hpos : (τ.advance L.slots.length).pos with
  | none =>
      rw [hpos] at hplaced
      have hun : Unplaced L it' := hplaced
      simp [hun.valid]
  | some i =>
      rw [hpos] at hplaced
      obtain ⟨s, hat⟩ := hplaced
      simp [hat.valid_of_ne_nil (hord.key_ne_nil s (List.mem_of_getElem? hat.slot_eq))]

/-- A block in increasing order is read back exactly if it has no empty key. -/
theorem Tracked.readsBack_iff (h : Tracked L .start it) (hinc : Increasing L.entries) :
    ReadsBack L.entries it ↔ NonEmptyKeys L.entries := by
  have hbefore : Before L 0 it := h.placed.before
  constructor
  · intro hreads e he hkey
    -- The empty key is the least one, so it comes first.
    obtain ⟨i, hi⟩ := List.mem_iff_getElem?.mp he
    cases i with
    | zero =>
        rw [L.entries_getElem?, Option.map_eq_some_iff] at hi
        obtain ⟨s, hslot, rfl⟩ := hi
        obtain ⟨calls, it', hdrain⟩ := hreads.drains
        have hnil := drain_of_nil_key hbefore hslot hkey hdrain
        rw [hnil] at he
        cases he
    | succ i =>
        obtain ⟨hlt, rfl⟩ := List.getElem?_eq_some_iff.mp hi
        have hlt' : i + 1 < (keysOf L.entries).length := by rwa [keysOf_length]
        have hless := List.pairwise_iff_getElem.mp hinc 0 (i + 1) (Nat.zero_lt_of_lt hlt') hlt'
          (Nat.succ_pos i)
        simp only [keysOf, List.getElem_map] at hless
        rw [hkey] at hless
        exact absurd hless (List.not_lt_nil _)
  · intro hkeys
    have hord := BlockLayout.ordered_of_entries hinc hkeys
    refine ⟨?_, ?_, ?_⟩
    · obtain ⟨it', hdrain⟩ := drain_spec hbefore hord
      exact ⟨_, it', hdrain⟩
    · intro it' hdriven e he
      obtain ⟨τ, htracked⟩ := hdriven.tracked hord h
      exact htracked.seek_key hord he
    · intro it' hdriven
      obtain ⟨τ, htracked⟩ := hdriven.tracked hord h
      exact htracked.advance_valid hord

end BlockIter

end

/-- Every increasing sequence is accepted by a block builder, the empty string as its first key
included; the block is read back exactly if no key is empty. -/
theorem block_reads_back_iff [Crates] (opt ropt : Options) (es : List Entry)
    (hcmp : opt.cmp = DefaultCmp) (hrcmp : ropt.cmp = DefaultCmp)
    (hr : 1 ≤ opt.blockRestartInterval) (hinc : Increasing es) :
    ∃ b, (BlockBuilder.new opt).addAll es = .ok b ∧
      (b.finish.length < 2 ^ 32 →
        ∃ block it, Block.new ropt b.finish = .ok block ∧ block.iter = .ok it ∧
          (BlockIter.ReadsBack es it ↔ NonEmptyKeys es)) := by
  refine ⟨_, BlockBuilder.addAll_new hcmp hr hinc, ?_⟩
  intro hsmall
  obtain ⟨L, rfl, hfinish⟩ := BlockBuilder.exists_layout opt es
  rw [hfinish] at hsmall ⊢
  obtain ⟨it, hiter, htracked⟩ := BlockIter.tracked_iter
    (b := { block := L.contents, opt := ropt }) hsmall hrcmp rfl
  exact ⟨_, it, Block.new_contents L ropt, hiter, htracked.readsBack_iff hinc⟩

/-- A block of the empty key and another one. -/
theorem block_reads_back_iff_empty_key : letI := referenceCrates
    let es : List Entry := [([], [7]), ([1], [8])]
    ∃ b, (BlockBuilder.new .default).addAll es = .ok b ∧
      (b.finish.length < 2 ^ 32 →
        ∃ block it, Block.new .default b.finish = .ok block ∧ block.iter = .ok it ∧
          (BlockIter.ReadsBack es it ↔ NonEmptyKeys es)) :=
  letI := referenceCrates
  block_reads_back_iff .default .default [([], [7]), ([1], [8])] rfl rfl (by decide) (by decide)

/-- Build a block, open it and advance; the result says whether the block is small, what the next
entry is, whether the iterator has moved, and whether it is valid. -/
def firstOf [Crates] (opt : Options) (es : List Entry) :
    Exec (Bool × Option Entry × Bool × Bool) := do
  let b ← (BlockBuilder.new opt).addAll es
  let block ← Block.new opt b.finish
  let it ← block.iter
  let (entry, _) ← it.next
  let (more, it) ← it.advance
  pure (decide (b.finish.length < 2 ^ 32), entry, more, it.valid)

/-- The block of the empty key and another one is built, but a fresh iterator over it has no next
entry: it advances, and is not valid. -/
theorem empty_key_hides : letI := referenceCrates
    let es : List Entry := [([], [7]), ([1], [8])]
    Increasing es ∧ ∃ b block it it₁ it₂, (BlockBuilder.new .default).addAll es = .ok b ∧
      b.finish.length < 2 ^ 32 ∧ Block.new .default b.finish = .ok block ∧ block.iter = .ok it ∧
      it.next = .ok (none, it₁) ∧ it.advance = .ok (true, it₂) ∧ it₂.valid = false ∧
      ¬ BlockIter.ReadsBack es it := by
  let := referenceCrates
  refine ⟨by decide, ?_⟩
  have hrun : firstOf .default [([], [7]), ([1], [8])] = .ok (true, none, true, false) := by
    decide +kernel
  simp only [firstOf, bind_eq_ok_iff, pure_eq_ok, Except.ok.injEq, Prod.mk.injEq,
    decide_eq_true_eq] at hrun
  obtain ⟨b, hadd, block, hnew, it, hiter, ⟨entry, it₁⟩, hnext, ⟨more, it₂⟩, hadvance, hsmall, rfl,
    rfl, hvalid⟩ := hrun
  refine ⟨b, block, it, it₁, it₂, hadd, hsmall, hnew, hiter, hnext, hadvance, hvalid, ?_⟩
  rintro ⟨⟨calls, it', hdrain⟩, -, -⟩
  cases calls with
  | zero => simp [BlockIter.drain] at hdrain
  | succ calls => simp [BlockIter.drain, hnext] at hdrain

end SSTable
