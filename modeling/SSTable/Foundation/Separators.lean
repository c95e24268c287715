import SSTable.Foundation.Cursor
import SSTable.Foundation.Pieces

/-!
# Sorted blocks with separators

A sorted sequence that is cut into blocks can be searched in two steps if every block comes
with a separator that lies above its keys and not above those of the later blocks: first for
the block, among the separators, and then in the block.

Main results:

- Theorem {lit}`lt_of_lowerBound_none`: without a separator that reaches the target, every key
  lies below it.
- Theorems {lit}`lt_of_lowerBound_some` and {lit}`le_of_lowerBound_some`: the blocks in front of
  the first separator that reaches the target hold keys below it, those behind it do not.
- Theorems {lit}`lowerBound_flatten_of_some` and {lit}`lowerBound_flatten_eq_none_iff`: when the
  search in two steps finds the lower bound of the whole sequence.
- Theorems {lit}`start_le_boundary`, {lit}`boundary_le_start` and {lit}`boundary_mono`: where the
  first block that may reach a target begins.
-/

namespace Foundation

open Cursor Pieces

variable {κ : Type} [LinearOrder κ]

/-- Every block has a separator above its keys and not above those of the later blocks. -/
structure Separated (seps : List κ) (blocks : List (List κ)) : Prop where
  length_eq : seps.length = blocks.length
  lt_sep : ∀ {i : Nat} {s : κ} {b : List κ} {k : κ},
    seps[i]? = some s → blocks[i]? = some b → k ∈ b → k < s
  sep_le : ∀ {i j : Nat} {s : κ} {b : List κ} {k : κ},
    i < j → seps[i]? = some s → blocks[j]? = some b → k ∈ b → s ≤ k

namespace Separated

variable {seps : List κ} {blocks : List (List κ)} {target : κ} {i : Nat}

/-- Separated blocks stay separated if keys are taken out of them. -/
theorem of_subset (h : Separated seps blocks) {others : List (List κ)}
    (hlen : others.length = blocks.length)
    (hsub : ∀ {j : Nat} {b d : List κ}, others[j]? = some b → blocks[j]? = some d → b ⊆ d) :
    Separated seps others where
  length_eq := h.length_eq.trans hlen.symm
  lt_sep := by
    intro j s b k hs hb hk
    have hj := (List.getElem?_eq_some_iff.mp hb).1
    have hd := List.getElem?_eq_getElem (hlen ▸ hj)
    exact h.lt_sep hs hd (hsub hb hd hk)
  sep_le := by
    intro j l s b k hjl hs hb hk
    have hl := (List.getElem?_eq_some_iff.mp hb).1
    have hd := List.getElem?_eq_getElem (hlen ▸ hl)
    exact h.sep_le hjl hs hd (hsub hb hd hk)

/-- Every block has a separator. -/
theorem exists_sep (h : Separated seps blocks) {j : Nat} {b : List κ} (hb : blocks[j]? = some b) :
    ∃ s, seps[j]? = some s := by
  have hj := (List.getElem?_eq_some_iff.mp hb).1
  exact ⟨_, List.getElem?_eq_getElem (h.length_eq ▸ hj)⟩

/-- No key is in two blocks. -/
theorem index_unique (h : Separated seps blocks) {i j : Nat} {b d : List κ} {k : κ}
    (hb : blocks[i]? = some b) (hd : blocks[j]? = some d) (hkb : k ∈ b) (hkd : k ∈ d) : i = j := by
  obtain ⟨s, hs⟩ := h.exists_sep hb
  obtain ⟨s', hs'⟩ := h.exists_sep hd
  rcases Nat.lt_trichotomy i j with hij | hij | hij
  · exact absurd (h.lt_sep hs hb hkb) (not_lt.mpr (h.sep_le hij hs hd hkd))
  · exact hij
  · exact absurd (h.lt_sep hs' hd hkd) (not_lt.mpr (h.sep_le hij hs' hb hkb))

theorem lt_of_lowerBound_none (h : Separated seps blocks) (hnone : lowerBound seps target = none)
    {b : List κ} {k : κ} (hb : b ∈ blocks) (hk : k ∈ b) : k < target := by
  obtain ⟨j, hj, rfl⟩ := List.getElem_of_mem hb
  obtain ⟨s, hs⟩ := h.exists_sep (List.getElem?_eq_getElem hj)
  have hlt := h.lt_sep hs (List.getElem?_eq_getElem hj) hk
  exact lt_trans hlt (lowerBound_eq_none_iff.mp hnone s (List.mem_of_getElem? hs))

theorem lt_of_lowerBound_some (h : Separated seps blocks)
    (hsome : lowerBound seps target = some i) {j : Nat} {b : List κ} {k : κ} (hj : j < i)
    (hb : blocks[j]? = some b) (hk : k ∈ b) : k < target := by
  obtain ⟨s, hs⟩ := h.exists_sep hb
  obtain ⟨-, -, -, hbefore⟩ := lowerBound_eq_some_iff.mp hsome
  exact lt_trans (h.lt_sep hs hb hk) (hbefore j s hj hs)

theorem le_of_lowerBound_some (h : Separated seps blocks)
    (hsome : lowerBound seps target = some i) {j : Nat} {b : List κ} {k : κ} (hj : i < j)
    (hb : blocks[j]? = some b) (hk : k ∈ b) : target ≤ k := by
  obtain ⟨s, hs, hle, -⟩ := lowerBound_eq_some_iff.mp hsome
  exact hle.trans (h.sep_le hj hs hb hk)

/-- The lower bound in the whole sequence, found in the block whose separator reaches the target
first and in the blocks behind it. -/
theorem lowerBound_flatten (h : Separated seps blocks) (hsome : lowerBound seps target = some i)
    {b : List κ} (hb : blocks[i]? = some b) :
    lowerBound blocks.flatten target =
      (lowerBound (b ++ (blocks.drop (i + 1)).flatten) target).map
        (· + (blocks.take i).flatten.length) := by
  rw [flatten_around hb]
  apply lowerBound_append_of_lt
  intro k hk
  obtain ⟨x, hx, hkx⟩ := List.mem_flatten.mp hk
  obtain ⟨j, hj, rfl⟩ := List.mem_take_iff_getElem.mp hx
  exact h.lt_of_lowerBound_some hsome (Nat.lt_of_lt_of_le hj (Nat.min_le_left _ _))
    (List.getElem?_eq_getElem _) hkx

/-- A key that is found in the block is the lower bound. -/
theorem lowerBound_flatten_of_some (h : Separated seps blocks)
    (hsome : lowerBound seps target = some i) {b : List κ} (hb : blocks[i]? = some b) {j : Nat}
    (hj : lowerBound b target = some j) :
    lowerBound blocks.flatten target = some ((blocks.take i).flatten.length + j) := by
  rw [h.lowerBound_flatten hsome hb, lowerBound_append_of_some hj, Option.map_some, Nat.add_comm]

/-- If the block has no key that reaches the target, the first key behind it does. -/
theorem lowerBound_flatten_eq_none_iff (h : Separated seps blocks)
    (hsome : lowerBound seps target = some i) {b : List κ} (hb : blocks[i]? = some b)
    (hnone : lowerBound b target = none) :
    lowerBound blocks.flatten target = none ↔
      ∀ (j : Nat) (d : List κ), i < j → blocks[j]? = some d → d = [] := by
  have hlt := lowerBound_eq_none_iff.mp hnone
  rw [h.lowerBound_flatten hsome hb, lowerBound_append_of_lt hlt, Option.map_eq_none_iff,
    Option.map_eq_none_iff, lowerBound_eq_none_iff]
  constructor
  · intro hbelow j d hij hd
    apply List.eq_nil_iff_forall_not_mem.mpr
    intro k hk
    have hmem : k ∈ (blocks.drop (i + 1)).flatten := by
      refine List.mem_flatten.mpr ⟨d, ?_, hk⟩
      apply List.mem_of_getElem? (i := j - (i + 1))
      rw [List.getElem?_drop, Nat.add_sub_cancel' hij, hd]
    exact absurd (h.le_of_lowerBound_some hsome hij hd hk) (not_le.mpr (hbelow k hmem))
  · intro hempty k hk
    obtain ⟨d, hd, hkd⟩ := List.mem_flatten.mp hk
    obtain ⟨m, hm⟩ := List.mem_iff_getElem?.mp hd
    rw [List.getElem?_drop] at hm
    rw [hempty _ d (by omega) hm] at hkd
    cases hkd

end Separated

/-! ## Where blocks begin -/

/-- Blocks begin one behind the other, in front of an end. -/
structure Consecutive (starts : List Nat) (stop : Nat) : Prop where
  sorted : starts.Pairwise (· ≤ ·)
  le_stop : ∀ o ∈ starts, o ≤ stop

/-- Where the first block whose separator reaches the target begins, or the end. -/
def boundary (seps : List κ) (starts : List Nat) (stop : Nat) (target : κ) : Nat :=
  match lowerBound seps target with
  | some i => starts[i]?.getD stop
  | none => stop

section

variable {seps : List κ} {blocks : List (List κ)} {starts : List Nat} {stop : Nat} {target : κ}

theorem boundary_of_some {i o : Nat} (hsome : lowerBound seps target = some i)
    (ho : starts[i]? = some o) : boundary seps starts stop target = o := by
  rw [boundary, hsome]
  exact congrArg (Option.getD · stop) ho

theorem boundary_of_none (hnone : lowerBound seps target = none) :
    boundary seps starts stop target = stop := by
  rw [boundary, hnone]

/-- Where every separator lies below the target, there is no block to reach it. -/
theorem boundary_eq_stop (h : ∀ s ∈ seps, s < target) : boundary seps starts stop target = stop :=
  boundary_of_none (lowerBound_eq_none_iff.mpr h)

theorem Consecutive.start_le_start (hc : Consecutive starts stop) {i j o o' : Nat} (hij : i ≤ j)
    (ho : starts[i]? = some o) (ho' : starts[j]? = some o') : o ≤ o' := by
  obtain ⟨hi, rfl⟩ := List.getElem?_eq_some_iff.mp ho
  obtain ⟨hj, rfl⟩ := List.getElem?_eq_some_iff.mp ho'
  rcases Nat.lt_or_eq_of_le hij with hlt | rfl
  · exact List.pairwise_iff_getElem.mp hc.sorted i j hi hj hlt
  · exact le_rfl

theorem Consecutive.boundary_le_stop (hc : Consecutive starts stop) :
    boundary seps starts stop target ≤ stop := by
  cases hbound : lowerBound seps target with
  | none => rw [boundary_of_none hbound]
  | some i =>
      cases hstart : starts[i]? with
      | none => simp [boundary, hbound, hstart]
      | some o =>
          rw [boundary_of_some hbound hstart]
          exact hc.le_stop o (List.mem_of_getElem? hstart)

/-- The block whose separator reaches the target begins somewhere. -/
theorem Separated.exists_start (h : Separated seps blocks) (hlen : starts.length = blocks.length)
    {i : Nat} (hsome : lowerBound seps target = some i) : ∃ o, starts[i]? = some o := by
  obtain ⟨s, hs, -⟩ := lowerBound_eq_some_iff.mp hsome
  have hi := (List.getElem?_eq_some_iff.mp hs).1
  rw [h.length_eq, ← hlen] at hi
  exact ⟨_, List.getElem?_eq_getElem hi⟩

/-- A block with a key below the target does not begin behind the boundary. -/
theorem Consecutive.start_le_boundary (hc : Consecutive starts stop) (h : Separated seps blocks)
    (hlen : starts.length = blocks.length) {j : Nat} {b : List κ} {k : κ} {o : Nat}
    (hb : blocks[j]? = some b) (ho : starts[j]? = some o) (hk : k ∈ b) (hbelow : k < target) :
    o ≤ boundary seps starts stop target := by
  cases hbound : lowerBound seps target with
  | none =>
      rw [boundary_of_none hbound]
      exact hc.le_stop o (List.mem_of_getElem? ho)
  | some i =>
      obtain ⟨start, hstart⟩ := h.exists_start hlen hbound
      rw [boundary_of_some hbound hstart]
      apply hc.start_le_start _ ho hstart
      by_contra hbehind
      exact absurd hbelow (not_lt.mpr (h.le_of_lowerBound_some hbound (not_le.mp hbehind) hb hk))

/-- A block with a key that is not below the target does not begin in front of the boundary. -/
theorem Consecutive.boundary_le_start (hc : Consecutive starts stop) (h : Separated seps blocks)
    (hlen : starts.length = blocks.length) {j : Nat} {b : List κ} {k : κ} {o : Nat}
    (hb : blocks[j]? = some b) (ho : starts[j]? = some o) (hk : k ∈ b) (hreach : target ≤ k) :
    boundary seps starts stop target ≤ o := by
  cases hbound : lowerBound seps target with
  | none =>
      have hlt := h.lt_of_lowerBound_none hbound (List.mem_of_getElem? hb) hk
      exact absurd hreach (not_le.mpr hlt)
  | some i =>
      obtain ⟨start, hstart⟩ := h.exists_start hlen hbound
      rw [boundary_of_some hbound hstart]
      apply hc.start_le_start _ hstart ho
      by_contra hbefore
      exact absurd hreach (not_le.mpr (h.lt_of_lowerBound_some hbound (not_le.mp hbefore) hb hk))

/-- A greater target has no earlier boundary. -/
theorem Consecutive.boundary_mono (hc : Consecutive starts stop) {target' : κ}
    (hle : target ≤ target') :
    boundary seps starts stop target ≤ boundary seps starts stop target' := by
  cases hbound : lowerBound seps target' with
  | none =>
      rw [boundary_of_none hbound]
      exact hc.boundary_le_stop
  | some i =>
      obtain ⟨j, hj, hji⟩ := lowerBound_le hle hbound
      cases hstart : starts[i]? with
      | none =>
          simp only [boundary, hbound, hstart, Option.getD_none]
          exact hc.boundary_le_stop
      | some o =>
          have hi := (List.getElem?_eq_some_iff.mp hstart).1
          have hjo := List.getElem?_eq_getElem (show j < starts.length by omega)
          rw [boundary_of_some hbound hstart, boundary_of_some hj hjo]
          exact hc.start_le_start hji hjo hstart

end

end Foundation
