import SSTable.Model.BlockHandle
import SSTable.Verification.Block.Construction

/-!
# What the bytes of a block determine

Stored entries delimit themselves and the restart area has a fixed width, so the bytes of a block
have only one meaning.

Main results:

- Theorem {lit}`Slot.encode_append_inj`: a stored entry is told from what follows it.
- Theorem {lit}`BlockLayout.slots_eq_of_contents`: a block has one sequence of slots.
- Theorem {lit}`BlockBuilder.finish_injective`: a block was built from one sequence of entries.
-/

namespace SSTable

open Foundation Foundation.Exec Foundation.Bytes Foundation.Pieces

variable [Crates]

/-- An encoded integer is told from what follows it. -/
theorem encodeVar_append_inj {m n : Nat} {x y : Bytes} (hm : m < wordLimit) (hn : n < wordLimit)
    (h : encodeVar m ++ x = encodeVar n ++ y) : m = n ∧ x = y := by
  have hdecode := Crates.decodeVar_encodeVar m x hm
  rw [h, Crates.decodeVar_encodeVar n y hn, Option.some.injEq, Prod.mk.injEq] at hdecode
  obtain ⟨rfl, -⟩ := hdecode
  exact ⟨rfl, List.append_cancel_left h⟩

namespace BlockHandle

/-- A handle is determined by its encoding. -/
theorem encode_injective {h k : BlockHandle} (hh : h.Fits) (hk : k.Fits)
    (heq : h.encode = k.encode) : h = k := by
  have hdecode := decode_encode hh []
  rw [heq, decode_encode hk, Except.ok.injEq, Prod.mk.injEq] at hdecode
  exact hdecode.1.symm

end BlockHandle

namespace Slot

/-- The lengths in front of a stored entry are machine words. -/
def Fits (s : Slot) : Prop :=
  s.shared < wordLimit ∧ s.key.length < wordLimit ∧ s.val.length < wordLimit

/-- A stored entry is told from what follows it. -/
theorem encode_append_inj {s t : Slot} {x y : Bytes} (hs : s.Fits) (ht : t.Fits)
    (h : s.encode ++ x = t.encode ++ y) :
    s.shared = t.shared ∧ s.key.drop s.shared = t.key.drop t.shared ∧ s.val = t.val := by
  obtain ⟨hsshared, hskey, hsval⟩ := hs
  obtain ⟨htshared, htkey, htval⟩ := ht
  simp only [encode, head, List.append_assoc] at h
  obtain ⟨hshared, h⟩ := encodeVar_append_inj hsshared htshared h
  obtain ⟨hrest, h⟩ := encodeVar_append_inj (lt_of_le_of_lt (Nat.sub_le _ _) hskey)
    (lt_of_le_of_lt (Nat.sub_le _ _) htkey) h
  obtain ⟨hlength, h⟩ := encodeVar_append_inj hsval htval h
  have hdrop : (s.key.drop s.shared).length = (t.key.drop t.shared).length := by
    rw [List.length_drop, List.length_drop, hrest]
  obtain ⟨hkey, h⟩ := List.append_inj h hdrop
  exact ⟨hshared, hkey, (List.append_inj h hlength).1⟩

end Slot

namespace BlockLayout

variable {L M : BlockLayout}

/-- The slots of a small block fit. -/
theorem slot_fits (hsmall : L.Small) {i : Nat} {s : Slot} (hs : L.slots[i]? = some s) :
    s.Fits := by
  have hlimit : 2 ^ 32 < wordLimit := by decide
  have hkey := L.key_length_le hs
  have hstep := L.offsetOf_succ hs
  have hbody := L.offsetOf_le_body (i + 1)
  have hcontents := L.body_le_contents
  have hshared := L.shared_le s (List.mem_of_getElem? hs)
  rw [Slot.encode_length] at hstep
  unfold Small at hsmall
  refine ⟨?_, ?_, ?_⟩ <;> omega

/-- Slots that are stored as the same bytes and continue the same slots are the same. -/
theorem slot_eq {i : Nat} {s t : Slot} {x y : Bytes} (hL : L.Small) (hM : M.Small)
    (hprev : L.slots.take i = M.slots.take i) (hs : L.slots[i]? = some s)
    (ht : M.slots[i]? = some t) (h : s.encode ++ x = t.encode ++ y) : s = t := by
  obtain ⟨hshared, hkey, hval⟩ := Slot.encode_append_inj (slot_fits hL hs) (slot_fits hM ht) h
  have htake : s.key.take s.shared = t.key.take t.shared := by
    cases i with
    | zero => rw [L.shared_first hs, M.shared_first ht, List.take_zero, List.take_zero]
    | succ i =>
        -- Both take over what the same predecessor's key begins with.
        have hi := (List.getElem?_eq_some_iff.mp hs).1
        have hprevL : L.slots[i]? = some L.slots[i] := List.getElem?_eq_getElem (by omega)
        have hprevM : M.slots[i]? = some L.slots[i] := by
          rw [← hprevL, ← List.getElem?_take_of_lt (Nat.lt_add_one i), ← hprev,
            List.getElem?_take_of_lt (Nat.lt_add_one i)]
        rw [← L.shared_eq hprevL hs, ← M.shared_eq hprevM ht, hshared]
  have hwhole : s.key = t.key := by
    rw [← List.take_append_drop s.shared s.key, htake, hkey, List.take_append_drop]
  obtain ⟨_, _, _⟩ := s
  obtain ⟨_, _, _⟩ := t
  simp only at hshared hwhole hval
  rw [hshared, hwhole, hval]

/-- The bytes in front of the restart area are determined by the block. -/
theorem body_eq_of_contents (hL : L.Small) (h : L.contents = M.contents) : L.body = M.body := by
  have hM : M.Small := by unfold Small; rwa [← h]
  have hcount := restartCount_contents L hL
  rw [h, restartCount_contents M hM, Except.ok.injEq] at hcount
  have hlenL := L.contents_length
  have hlenM := M.contents_length
  rw [h] at hlenL
  exact (List.append_inj h (by omega)).1

/-- A block has one sequence of slots. -/
theorem slots_eq_of_contents (hL : L.Small) (h : L.contents = M.contents) : L.slots = M.slots := by
  have hM : M.Small := by unfold Small; rwa [← h]
  have hbody := body_eq_of_contents hL h
  have hall : ∀ i, L.slots.take i = M.slots.take i := by
    intro i
    induction i with
    | zero => rfl
    | succ i ih =>
        have hoff : L.offsetOf i = M.offsetOf i := by rw [offsetOf, offsetOf, ih]
        have hboth : i < L.slots.length ↔ i < M.slots.length := by
          rw [← L.offsetOf_lt_body_iff, ← M.offsetOf_lt_body_iff, hoff, hbody]
        by_cases hi : i < L.slots.length
        · have hs := List.getElem?_eq_getElem hi
          have ht := List.getElem?_eq_getElem (hboth.mp hi)
          have hbytes := L.drop_offsetOf hs
          rw [h, hoff, M.drop_offsetOf ht] at hbytes
          rw [List.take_add_one, List.take_add_one, ih, hs, ht, slot_eq hL hM ih hs ht hbytes.symm]
        · have hnot := mt hboth.mpr hi
          rw [List.take_of_length_le (by omega), List.take_of_length_le (by omega)] at ih
          rw [List.take_of_length_le (by omega), List.take_of_length_le (by omega), ih]
  have hlong := hall (max L.slots.length M.slots.length)
  rwa [List.take_of_length_le (Nat.le_max_left _ _),
    List.take_of_length_le (Nat.le_max_right _ _)] at hlong

end BlockLayout

namespace BlockBuilder

/-- A block below 2^32 bytes was built from one sequence of entries. -/
theorem finish_injective {opt opt' : Options} {es es' : List Entry}
    (hsmall : (pushAll opt es).finish.length < 2 ^ 32)
    (h : (pushAll opt es).finish = (pushAll opt' es').finish) : es = es' := by
  obtain ⟨L, rfl, hL⟩ := exists_layout opt es
  obtain ⟨M, rfl, hM⟩ := exists_layout opt' es'
  have hslots : L.slots = M.slots := by
    apply BlockLayout.slots_eq_of_contents
    · rwa [BlockLayout.Small, ← hL]
    · rw [← hL, ← hM, h]
  rw [BlockLayout.entries, BlockLayout.entries, hslots]

end BlockBuilder

end SSTable
