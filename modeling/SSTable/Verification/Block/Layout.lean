import SSTable.Foundation.Pieces
import SSTable.Model.Block
import SSTable.Model.BlockBuilder

/-!
# The layout of a block

A block layout is what the bytes of a well-formed block mean: a list of slots, each with
the number of key bytes it takes over from its predecessor, and the slots that are
restarts.  The conditions a reader relies on are fields, so a layout that breaks them
cannot be written down.

Main results:

- Theorem {lit}`drop_offsetOf`: every slot is found at its offset.
- Theorem {lit}`offsetOf_lt_offsetOf`: offsets are ordered as their slots are.
- Theorems {lit}`restartCount_contents` and {lit}`restart_word`: the restart area of a block
  below 2^32 bytes is read back exactly.
-/

namespace SSTable

open Foundation Foundation.Exec Foundation.Bytes Foundation.Pieces

/-- A stored entry with the number of key bytes it shares with its predecessor. -/
structure Slot where
  shared : Nat
  key : Bytes
  val : Bytes
deriving DecidableEq

/-- The entry a slot stores. -/
def Slot.entry (s : Slot) : Entry := (s.key, s.val)

/-- The meaning of a well-formed block: its slots, and the indices of its restarts. -/
structure BlockLayout where
  slots : List Slot
  restartIx : List Nat
  /-- A slot takes over no more than its whole key. -/
  shared_le : ∀ s ∈ slots, s.shared ≤ s.key.length
  /-- What a slot takes over is what its predecessor's key starts with. -/
  shared_eq : ∀ {i s t}, slots[i]? = some s → slots[i + 1]? = some t →
    s.key.take t.shared = t.key.take t.shared
  shared_first : ∀ {s}, slots[0]? = some s → s.shared = 0
  restart_first : restartIx[0]? = some 0
  /-- Only the restart of a block without slots has no slot. -/
  restart_lt : (∀ r ∈ restartIx, r < slots.length) ∨ restartIx = [0]
  restart_shared : ∀ r ∈ restartIx, ∀ {s}, slots[r]? = some s → s.shared = 0

namespace BlockLayout

/-- The entries of the block. -/
def entries (L : BlockLayout) : List Entry := L.slots.map Slot.entry

@[simp] theorem entries_length (L : BlockLayout) : L.entries.length = L.slots.length := by
  simp [entries]

theorem entries_getElem? (L : BlockLayout) (i : Nat) :
    L.entries[i]? = L.slots[i]?.map Slot.entry := by
  simp [entries]

theorem restartIx_length_pos (L : BlockLayout) : 0 < L.restartIx.length := by
  rcases List.getElem?_eq_some_iff.mp L.restart_first with ⟨h, _⟩
  exact h

/-- In a block with slots, every restart is the index of one. -/
theorem restart_slot (L : BlockLayout) (hne : L.slots ≠ []) {r : Nat} (hr : r ∈ L.restartIx) :
    ∃ s, L.slots[r]? = some s ∧ s.shared = 0 := by
  have hlt : r < L.slots.length := by
    rcases L.restart_lt with hlt | hzero
    · exact hlt r hr
    · rw [hzero, List.mem_singleton] at hr
      rw [hr]
      exact List.length_pos_of_ne_nil hne
  exact ⟨L.slots[r], List.getElem?_eq_getElem hlt,
    L.restart_shared r hr (List.getElem?_eq_getElem hlt)⟩

/-- A block without slots has one restart. -/
theorem restartIx_of_nil (L : BlockLayout) (hnil : L.slots = []) : L.restartIx = [0] := by
  rcases L.restart_lt with hlt | hzero
  · have := hlt 0 (List.mem_of_getElem? L.restart_first)
    simp [hnil] at this
  · exact hzero

end BlockLayout

namespace BlockLayout

/-- A slot cannot take over more than its predecessor's whole key. -/
theorem shared_le_previous (L : BlockLayout) {i : Nat} {s t : Slot} (hs : L.slots[i]? = some s)
    (ht : L.slots[i + 1]? = some t) : t.shared ≤ s.key.length := by
  have heq := congrArg List.length (L.shared_eq hs ht)
  have hle := L.shared_le t (List.mem_of_getElem? ht)
  simp only [List.length_take] at heq
  omega

end BlockLayout

variable [Crates]

namespace Slot

/-- The three lengths in front of a stored entry. -/
def head (s : Slot) : Bytes :=
  encodeVar s.shared ++ encodeVar (s.key.length - s.shared) ++ encodeVar s.val.length

/-- The bytes of a stored entry. -/
def encode (s : Slot) : Bytes := s.head ++ s.key.drop s.shared ++ s.val

theorem head_length (s : Slot) :
    s.head.length = (encodeVar s.shared).length + (encodeVar (s.key.length - s.shared)).length +
      (encodeVar s.val.length).length := by
  simp [head, Nat.add_assoc]

theorem head_length_pos (s : Slot) : 0 < s.head.length := by
  have := Crates.encodeVar_length_pos s.shared
  rw [head_length]
  omega

theorem encode_length (s : Slot) :
    s.encode.length = s.head.length + (s.key.length - s.shared) + s.val.length := by
  simp [encode, Nat.add_assoc]

end Slot

/-- The bytes of consecutive slots. -/
def slotBytes (slots : List Slot) : Bytes := (slots.map Slot.encode).flatten

@[simp] theorem slotBytes_nil : slotBytes [] = [] := rfl

@[simp] theorem slotBytes_append (xs ys : List Slot) :
    slotBytes (xs ++ ys) = slotBytes xs ++ slotBytes ys := by
  simp [slotBytes]

@[simp] theorem slotBytes_cons (s : Slot) (xs : List Slot) :
    slotBytes (s :: xs) = s.encode ++ slotBytes xs := by
  simp [slotBytes]

namespace BlockLayout

/-- The bytes in front of the restart area. -/
def body (L : BlockLayout) : Bytes := slotBytes L.slots

/-- The offset at which a slot begins. -/
def offsetOf (L : BlockLayout) (i : Nat) : Nat := (slotBytes (L.slots.take i)).length

/-- The restart area: the offset of every restart, and their number. -/
def trailer (L : BlockLayout) : Bytes :=
  words 4 (L.restartIx.map L.offsetOf) ++ encodeFixed32 L.restartIx.length

/-- The bytes of the block. -/
def contents (L : BlockLayout) : Bytes := L.body ++ L.trailer

/-- The format's limit on the size of a block. -/
def Small (L : BlockLayout) : Prop := L.contents.length < 2 ^ 32

variable (L : BlockLayout)

/-! ## Offsets -/

@[simp] theorem offsetOf_zero : L.offsetOf 0 = 0 := by
  simp [offsetOf]

theorem offsetOf_of_length_le {i : Nat} (h : L.slots.length ≤ i) :
    L.offsetOf i = L.body.length := by
  simp [offsetOf, body, List.take_of_length_le h]

theorem offsetOf_succ {i : Nat} {s : Slot} (h : L.slots[i]? = some s) :
    L.offsetOf (i + 1) = L.offsetOf i + s.encode.length := by
  simp [offsetOf, List.take_add_one, h]

/-- The bytes split at any slot boundary. -/
theorem body_split (i : Nat) :
    L.body = slotBytes (L.slots.take i) ++ slotBytes (L.slots.drop i) := by
  rw [body, ← slotBytes_append, List.take_append_drop]

/-- Every slot is found at its offset. -/
theorem drop_offsetOf {i : Nat} {s : Slot} (h : L.slots[i]? = some s) :
    L.contents.drop (L.offsetOf i) =
      s.encode ++ (slotBytes (L.slots.drop (i + 1)) ++ L.trailer) := by
  obtain ⟨hi, rfl⟩ := List.getElem?_eq_some_iff.mp h
  have hslot : slotBytes (L.slots.drop i) =
      L.slots[i].encode ++ slotBytes (L.slots.drop (i + 1)) := by
    rw [List.drop_eq_getElem_cons hi, slotBytes_cons]
  rw [contents, L.body_split i, hslot, List.append_assoc, offsetOf, List.drop_left,
    List.append_assoc]

theorem offsetOf_le_body (i : Nat) : L.offsetOf i ≤ L.body.length := by
  rw [L.body_split i, offsetOf, List.length_append]
  omega

theorem body_le_contents : L.body.length ≤ L.contents.length := by
  simp [contents]

/-- Offsets are ordered as their slots are. -/
theorem offsetOf_lt_offsetOf {i j : Nat} (hij : i < j) (hi : i < L.slots.length) :
    L.offsetOf i < L.offsetOf j := by
  induction j with
  | zero => omega
  | succ j ih =>
      by_cases hj : j < L.slots.length
      · have hstep := L.offsetOf_succ (List.getElem?_eq_getElem hj)
        have hpos := (L.slots[j]).head_length_pos
        rw [Slot.encode_length] at hstep
        rcases Nat.lt_or_eq_of_le (Nat.le_of_lt_succ hij) with hlt | rfl
        · have := ih hlt
          omega
        · omega
      · have hlt := ih (by omega)
        rw [L.offsetOf_of_length_le (i := j) (by omega)] at hlt
        rwa [L.offsetOf_of_length_le (i := j + 1) (by omega)]

theorem offsetOf_lt_body_iff {i : Nat} : L.offsetOf i < L.body.length ↔ i < L.slots.length := by
  constructor
  · intro h
    by_contra hge
    rw [L.offsetOf_of_length_le (by omega)] at h
    omega
  · intro h
    have := L.offsetOf_lt_offsetOf h h
    rwa [L.offsetOf_of_length_le le_rfl] at this

theorem offsetOf_mono {i j : Nat} (hij : i ≤ j) : L.offsetOf i ≤ L.offsetOf j := by
  rcases Nat.lt_or_ge i L.slots.length with hi | hi
  · rcases Nat.lt_or_eq_of_le hij with hlt | rfl
    · exact (L.offsetOf_lt_offsetOf hlt hi).le
    · exact le_rfl
  · rw [L.offsetOf_of_length_le hi, L.offsetOf_of_length_le (hi.trans hij)]

/-- Every slot takes at least one byte. -/
theorem le_offsetOf {i : Nat} (hi : i ≤ L.slots.length) : i ≤ L.offsetOf i := by
  induction i with
  | zero => omega
  | succ i ih =>
      have := L.offsetOf_lt_offsetOf (Nat.lt_add_one i) hi
      have := ih (by omega)
      omega

/-- No key is longer than the block up to its own slot's end. -/
theorem key_length_le {i : Nat} {s : Slot} (h : L.slots[i]? = some s) :
    s.key.length ≤ L.offsetOf (i + 1) := by
  induction i generalizing s with
  | zero =>
      have hstep := L.offsetOf_succ h
      rw [Slot.encode_length, L.shared_first h] at hstep
      omega
  | succ i ih =>
      have hi : i < L.slots.length := by
        have := (List.getElem?_eq_some_iff.mp h).1
        omega
      have hprev := List.getElem?_eq_getElem hi
      have hstep := L.offsetOf_succ h
      have hshared := L.shared_le_previous hprev h
      have hle := ih hprev
      rw [Slot.encode_length] at hstep
      omega

/-! ## The restart area -/

theorem trailer_length : L.trailer.length = 4 * L.restartIx.length + 4 := by
  simp [trailer, encodeFixed32]

theorem contents_length :
    L.contents.length = L.body.length + 4 * L.restartIx.length + 4 := by
  rw [contents, List.length_append, trailer_length]
  omega

theorem restartIx_length_lt (hsmall : L.Small) : L.restartIx.length < 2 ^ 32 := by
  have hlen := L.contents_length
  unfold Small at hsmall
  omega

/-- A block records how many restarts it has. -/
theorem restartCount_contents (hsmall : L.Small) :
    restartCount L.contents = .ok L.restartIx.length := by
  have hlen := L.contents_length
  have hcount := leValue_leBytes_of_lt (k := 4) (L.restartIx_length_lt hsmall)
  have hword : L.contents.drop (L.contents.length - 4) = encodeFixed32 L.restartIx.length := by
    have hfront : L.contents.length - 4 =
        (L.body ++ words 4 (L.restartIx.map L.offsetOf)).length := by
      rw [List.length_append, words_length, List.length_map, hlen]
      omega
    rw [hfront, contents, trailer, ← List.append_assoc, List.drop_left]
  rw [restartCount, wordSub_of_le (by omega), ok_bind, sliceFrom_of_le (by omega), ok_bind, hword]
  simp [decodeFixed32, encodeFixed32, hcount]

/-- Every restart's word is read back as the offset of its slot. -/
theorem restart_word {ix r : Nat} (h : L.restartIx[ix]? = some r) :
    slice L.contents (L.body.length + 4 * ix) (L.body.length + 4 * ix + 4) =
      .ok (encodeFixed32 (L.offsetOf r)) := by
  have hword : (L.restartIx.map L.offsetOf)[ix]? = some (L.offsetOf r) := by
    rw [List.getElem?_map, h, Option.map_some]
  rw [Nat.add_assoc, contents, slice_append_right, trailer]
  exact slice_word hword _

end BlockLayout

end SSTable
