import SSTable.Verification.Block.Construction
import SSTable.Verification.Block.Search
import SSTable.Model.ReferenceCrates

/-!
# A block iterator refines a cursor

An iterator over a block built from increasing entries shows, after every operation of every
run, what a cursor over the list of entries shows.

Main results:

- Theorem {lit}`step_refines`: one operation moves the iterator where it moves the cursor.
- Theorem {lit}`blockIter_refines_cursor`: so does every run, on every block a builder writes.
-/

namespace SSTable

open Foundation Foundation.Exec Foundation.Bytes

/-- The operations of a block iterator. -/
inductive BlockOp where
  | advance
  | prev
  | seek (target : Bytes)
  | seekToLast
  | reset
deriving DecidableEq

/-- What can be seen of an iterator after an operation: the operation's own result, if it has
one, and the answers of the functions that do not move it. -/
structure Observation where
  moved : Option Bool
  valid : Bool
  current : Option Entry
  currentKey : Option Bytes
deriving DecidableEq

/-- What a cursor over a list of entries shows. -/
def Observation.at (es : List Entry) (moved : Option Bool) (p : Option Nat) : Observation where
  moved := moved
  valid := p.isSome
  current := p.bind fun i => es[i]?
  currentKey := (p.bind fun i => es[i]?).map Prod.fst

/-- The result of an operation on a cursor over a list of entries. -/
def BlockOp.onCursor (es : List Entry) (p : Option Nat) : BlockOp → Option Bool × Option Nat
  | .advance =>
      let p := Cursor.advance es.length p
      (some p.isSome, p)
  | .prev =>
      let p := Cursor.prev p
      (some p.isSome, p)
  | .seek target => (none, Cursor.lowerBound (keysOf es) target)
  | .seekToLast => (none, Cursor.last es.length)
  | .reset => (none, none)

/-- An observed step of a cursor. -/
def cursorStep (es : List Entry) (p : Option Nat) (op : BlockOp) : Observation × Option Nat :=
  let (moved, p) := op.onCursor es p
  (.at es moved p, p)

section

variable [Crates]

/-- The result of an operation on a block iterator. -/
def BlockOp.onIter (it : BlockIter) : BlockOp → Exec (Option Bool × BlockIter)
  | .advance => do
      let (moved, it) ← it.advance
      pure (some moved, it)
  | .prev => do
      let (moved, it) ← it.prev
      pure (some moved, it)
  | .seek target => do
      let it ← it.seek target
      pure (none, it)
  | .seekToLast => do
      let it ← it.seekToLast
      pure (none, it)
  | .reset => pure (none, it.reset)

namespace BlockIter

/-- An observed step of a block iterator. -/
def step (it : BlockIter) (op : BlockOp) : Exec (Observation × BlockIter) := do
  let (moved, it) ← op.onIter it
  let entry ← it.current
  pure ({ moved := moved, valid := it.valid, current := entry, currentKey := it.currentKey }, it)

/-- Going back is allowed on a valid iterator only. -/
def Allowed (it : BlockIter) (op : BlockOp) : Prop := op = .prev → it.valid = true

variable {L : BlockLayout} {it : BlockIter} {p : Option Nat}

theorem Placed.lt_length {i : Nat} (h : Placed L (some i) it) : i < L.slots.length := by
  obtain ⟨s, hat⟩ := h
  exact hat.lt_length

/-- An iterator over an ordered block shows what its cursor shows. -/
theorem Placed.observed (h : Placed L p it) (hord : L.Ordered) (moved : Option Bool) :
    (do
      let entry ← it.current
      pure ({ moved := moved, valid := it.valid, current := entry,
              currentKey := it.currentKey : Observation }, it)) =
      .ok (Observation.at L.entries moved p, it) := by
  cases p with
  | none =>
      have hun : Unplaced L it := h
      simp [hun.current, hun.valid, hun.currentKey, Observation.at]
  | some i =>
      obtain ⟨s, hat⟩ := h
      have hkey := hord.key_ne_nil s (List.mem_of_getElem? hat.slot_eq)
      have hentry : L.entries[i]? = some s.entry := by
        rw [L.entries_getElem?, hat.slot_eq, Option.map_some]
      simp [hat.current hkey, hat.valid_of_ne_nil hkey, hat.currentKey hkey, Observation.at, hentry,
        Slot.entry]

theorem advance_refines (h : Placed L p it) :
    ∃ it', it.advance = .ok ((Cursor.advance L.slots.length p).isSome, it') ∧
      Placed L (Cursor.advance L.slots.length p) it' := by
  have hbefore := h.before
  rw [Cursor.advance_eq]
  rcases Nat.lt_or_ge (Cursor.next p) L.slots.length with hmore | hend
  · obtain ⟨it', hadvance, hat⟩ := advance_of_before hbefore (List.getElem?_eq_getElem hmore)
    rw [if_pos hmore]
    exact ⟨it', hadvance, _, hat⟩
  · rw [if_neg (not_lt.mpr hend)]
    exact ⟨it.reset, advance_of_end hbefore hend, hbefore.reset⟩

theorem prev_refines (h : Placed L p it) (hp : p ≠ none) :
    ∃ it', it.prev = .ok ((Cursor.prev p).isSome, it') ∧ Placed L (Cursor.prev p) it' := by
  rcases p with _ | _ | i
  · exact absurd rfl hp
  · obtain ⟨s, hat⟩ := h
    exact ⟨it.reset, prev_of_at_zero hat, hat.reset⟩
  · obtain ⟨s, hat⟩ := h
    obtain ⟨it', s', hprev, hat'⟩ := prev_of_at hat
    exact ⟨it', hprev, s', hat'⟩

/-- One operation moves the iterator where it moves the cursor. -/
theorem step_refines (h : Placed L p it) (hord : L.Ordered) (hne : L.slots ≠ []) {op : BlockOp}
    (hallowed : it.Allowed op) :
    ∃ it', it.step op = .ok ((cursorStep L.entries p op).1, it') ∧
      Placed L (cursorStep L.entries p op).2 it' := by
  have hmove : ∃ it', op.onIter it = .ok ((op.onCursor L.entries p).1, it') ∧
      Placed L (op.onCursor L.entries p).2 it' := by
    cases op with
    | advance =>
        obtain ⟨it', hadvance, hplaced⟩ := advance_refines h
        exact ⟨it', by simp [BlockOp.onIter, BlockOp.onCursor, hadvance], by
          simpa [BlockOp.onCursor] using hplaced⟩
    | prev =>
        have hp : p ≠ none := by
          rintro rfl
          have hvalid := hallowed rfl
          rw [Unplaced.valid h] at hvalid
          cases hvalid
        obtain ⟨it', hprev, hplaced⟩ := prev_refines h hp
        exact ⟨it', by simp [BlockOp.onIter, BlockOp.onCursor, hprev], hplaced⟩
    | seek target =>
        obtain ⟨it', hseek, hplaced⟩ := seek_spec h.over hord target
        exact ⟨it', by simp [BlockOp.onIter, BlockOp.onCursor, hseek], by
          simpa [BlockOp.onCursor] using hplaced⟩
    | seekToLast =>
        obtain ⟨it', s, hlast, hat⟩ := seekToLast_spec h.over hne hord.key_ne_nil
        refine ⟨it', by simp [BlockOp.onIter, BlockOp.onCursor, hlast], ?_⟩
        simp only [BlockOp.onCursor, Cursor.last, BlockLayout.entries_length,
          if_neg (mt List.length_eq_zero_iff.mp hne)]
        exact ⟨s, hat⟩
    | reset => exact ⟨it.reset, rfl, h.over.reset⟩
  obtain ⟨it', hop, hplaced⟩ := hmove
  refine ⟨it', ?_, hplaced⟩
  rw [step, hop, ok_bind]
  exact hplaced.observed hord _

end BlockIter

end

/-- An iterator over a block built from increasing entries with non-empty keys is a cursor: in
every run of operations in which the iterator goes back only while it is valid, no assertion
fails, every loop ends, and everything the iterator shows is what the cursor shows. -/
theorem blockIter_refines_cursor [Crates] (opt ropt : Options) (es : List Entry)
    (hcmp : opt.cmp = DefaultCmp) (hrcmp : ropt.cmp = DefaultCmp)
    (hr : 1 ≤ opt.blockRestartInterval) (hne : es ≠ []) (hinc : Increasing es)
    (hkeys : NonEmptyKeys es) :
    ∃ b, (BlockBuilder.new opt).addAll es = .ok b ∧
      (b.finish.length < 2 ^ 32 →
        ∃ block it, Block.new ropt b.finish = .ok block ∧ block.iter = .ok it ∧
          ∀ ops, Legal BlockIter.step BlockIter.Allowed it ops →
            ∃ it', runOps BlockIter.step it ops =
              .ok ((traceOps (cursorStep es) none ops).1, it')) := by
  refine ⟨_, BlockBuilder.addAll_new hcmp hr hinc, ?_⟩
  intro hsmall
  obtain ⟨L, rfl, hfinish⟩ := BlockBuilder.exists_layout opt es
  rw [hfinish] at hsmall ⊢
  obtain ⟨it, hiter, hplaced⟩ := Block.iter_spec (b := { block := L.contents, opt := ropt }) hsmall
    hrcmp rfl
  refine ⟨_, it, Block.new_contents L ropt, hiter, ?_⟩
  intro ops hlegal
  have hord := BlockLayout.ordered_of_entries hinc hkeys
  have hslots : L.slots ≠ [] := by
    rintro hnil
    exact hne (by rw [BlockLayout.entries, hnil, List.map_nil])
  obtain ⟨it', hrun, -⟩ := runOps_simulates (g := cursorStep L.entries)
    (fun it p => BlockIter.Placed L p it)
    (fun it p op hplaced hallowed => BlockIter.step_refines hplaced hord hslots hallowed)
    (a := none) hplaced hlegal
  exact ⟨it', hrun⟩

/-- A block of two entries. -/
theorem blockIter_refines_cursor_two_entries :
    letI := referenceCrates
    let es : List Entry := [([1], [7]), ([1, 2], [8])]
    ∃ b, (BlockBuilder.new .default).addAll es = .ok b ∧
      (b.finish.length < 2 ^ 32 →
        ∃ block it, Block.new .default b.finish = .ok block ∧ block.iter = .ok it ∧
          ∀ ops, Legal BlockIter.step BlockIter.Allowed it ops →
            ∃ it', runOps BlockIter.step it ops =
              .ok ((traceOps (cursorStep es) none ops).1, it')) :=
  letI := referenceCrates
  blockIter_refines_cursor .default .default [([1], [7]), ([1, 2], [8])] rfl rfl (by decide)
    (by decide) (by decide) (by decide)

end SSTable
