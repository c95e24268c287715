import Mathlib.Data.List.Nodup
import Mathlib.Logic.Function.Basic

/-!
# Doubly linked lists in pointer form

A doubly linked list with a head node is given by two pointer functions.  The nodes behind
the head form a segment: every node points forward to the next one and back to the one in
front of it.

Main results:

- Theorem {lit}`Linked.unlink`: taking a node out rewrites the pointers of its two neighbors.
- Theorem {lit}`Linked.pushFront`: putting a node behind the head rewrites the pointers of the
  head, of the node and of the node that was first.
- Theorems {lit}`Linked.walk_next` and {lit}`Linked.walk_prev`: going forward from the head visits
  the nodes, and going back from the last one visits them in the opposite order.
-/

namespace Foundation

open Function

/-- A node of the list by its address. -/
abbrev Address := Nat

/-- A forward or backward pointer for every address. -/
abbrev Pointers := Address → Option Address

/-- From an address on, exactly the given nodes follow, each pointing back. -/
def Segment (next prev : Pointers) : Address → List Address → Prop
  | p, [] => next p = none
  | p, q :: ps => (next p = some q ∧ prev q = some p) ∧ Segment next prev q ps

/-- The nodes behind a head, and the head's own backward pointer to the last of them.  The
backward pointer of the head of an empty list is arbitrary. -/
structure Linked (head : Address) (next prev : Pointers) (ps : List Address) : Prop where
  nodup : (head :: ps).Nodup
  segment : Segment next prev head ps
  prev_head : ∀ p, ps.getLast? = some p → prev head = some p

/-- Going from pointer to pointer visits the given nodes and then ends at the stop. -/
def Walk (follow : Pointers) (stop : Option Address) : Option Address → List Address → Prop
  | p, [] => p = stop
  | p, q :: qs => p = some q ∧ Walk follow stop (follow q) qs

/-- A walk goes on over one more node where it stopped. -/
theorem Walk.concat {follow : Pointers} {p : Option Address} {q : Address} {qs : List Address}
    (h : Walk follow (some q) p qs) : Walk follow (follow q) p (qs ++ [q]) := by
  induction qs generalizing p with
  | nil => exact ⟨h, rfl⟩
  | cons r qs ih => exact ⟨h.1, ih h.2⟩

/-- A walk to the end visits determined nodes. -/
theorem Walk.unique {follow : Pointers} {p : Option Address} {qs rs : List Address}
    (hq : Walk follow none p qs) (hr : Walk follow none p rs) : qs = rs := by
  induction qs generalizing p rs with
  | nil =>
      cases rs with
      | nil => rfl
      | cons r rs => cases hq.symm.trans hr.1
  | cons q qs ih =>
      cases rs with
      | nil => cases hr.symm.trans hq.1
      | cons r rs =>
          obtain rfl := Option.some.inj (hq.1.symm.trans hr.1)
          rw [ih hq.2 hr.2]

namespace Segment

variable {next prev next' prev' : Pointers} {p q : Address} {ps qs : List Address}

/-- A segment depends on the pointers between its nodes only. -/
theorem congr (h : Segment next prev p ps) (hnext : ∀ r ∈ p :: ps, next' r = next r)
    (hprev : ∀ r ∈ ps, prev' r = prev r) : Segment next' prev' p ps := by
  induction ps generalizing p with
  | nil => exact (hnext p (by simp)).trans h
  | cons q ps ih =>
      obtain ⟨⟨hpq, hqp⟩, hrest⟩ := h
      refine ⟨⟨(hnext p (by simp)).trans hpq, (hprev q (by simp)).trans hqp⟩, ih hrest ?_ ?_⟩
      · intro r hr
        exact hnext r (List.mem_cons_of_mem _ hr)
      · intro r hr
        exact hprev r (List.mem_cons_of_mem _ hr)

/-- The node in front of a node of the segment. -/
theorem prev_eq (h : Segment next prev p (ps ++ q :: qs)) :
    prev q = some ((p :: ps).getLast (by simp)) := by
  induction ps generalizing p with
  | nil => exact h.1.2
  | cons r ps ih =>
      rw [List.getLast_cons (by simp)]
      exact ih h.2

/-- The node in front of a node of the segment points to it. -/
theorem next_front (h : Segment next prev p (ps ++ q :: qs)) :
    next ((p :: ps).getLast (by simp)) = some q := by
  induction ps generalizing p with
  | nil => exact h.1.1
  | cons r ps ih =>
      rw [List.getLast_cons (by simp)]
      exact ih h.2

/-- The node behind a node of the segment. -/
theorem next_eq (h : Segment next prev p (ps ++ q :: qs)) : next q = qs.head? := by
  induction ps generalizing p with
  | nil =>
      cases qs with
      | nil => exact h.2
      | cons r qs => exact h.2.1.1
  | cons r ps ih => exact ih h.2

theorem prev_first (h : Segment next prev p ps) (hq : ps.head? = some q) : prev q = some p := by
  cases ps with
  | nil => simp at hq
  | cons r ps =>
      rw [List.head?_cons, Option.some.injEq] at hq
      exact hq ▸ h.1.2

theorem next_first (h : Segment next prev p ps) : next p = ps.head? := by
  cases ps with
  | nil => exact h
  | cons q ps => exact h.1.1

/-- Taking a node out of a segment: the node in front of it goes on where it went on, and the
node behind it, if there is one, points back past it.  What the other pointers become does
not matter for nodes outside the segment. -/
theorem unlink (h : Segment next prev p (ps ++ q :: qs)) (hnodup : (p :: ps ++ q :: qs).Nodup)
    {other : Address} (hother : other ∉ ps) :
    Segment (update next ((p :: ps).getLast (by simp)) (next q))
      (update prev (qs.head?.getD other) (some ((p :: ps).getLast (by simp)))) p (ps ++ qs) := by
  induction ps generalizing p with
  | nil =>
      obtain ⟨⟨hpq, hqp⟩, hrest⟩ := h
      cases qs with
      | nil => simpa [Segment] using hrest
      | cons r qs =>
          have hnext : next q = some r := hrest.1.1
          simp only [List.cons_append, List.nil_append, List.nodup_cons, List.mem_cons] at hnodup
          refine ⟨by simp [hnext], hrest.2.congr ?_ ?_⟩
          · intro t ht
            refine update_of_ne ?_ _ _
            rintro rfl
            simp only [List.mem_cons] at ht
            tauto
          · intro t ht
            refine update_of_ne ?_ _ _
            rintro rfl
            tauto
  | cons r ps ih =>
      obtain ⟨⟨hpr, hrp⟩, hrest⟩ := h
      have hnodup' : (r :: ps ++ q :: qs).Nodup := (List.nodup_cons.mp hnodup).2
      have hout : p ∉ r :: ps ++ q :: qs := (List.nodup_cons.mp hnodup).1
      have hlast : (p :: r :: ps).getLast (by simp) = (r :: ps).getLast (by simp) :=
        List.getLast_cons (by simp)
      rw [hlast]
      have hne : p ≠ (r :: ps).getLast (by simp) := by
        intro heq
        exact hout (heq ▸ List.mem_append_left _ (List.getLast_mem _))
      have hne' : r ≠ qs.head?.getD other := by
        intro heq
        cases qs with
        | nil => exact hother (by simp [heq])
        | cons t qs =>
            have := (List.nodup_cons.mp hnodup').1
            simp only [List.head?_cons, Option.getD_some] at heq
            exact this (by simp [heq])
      refine ⟨⟨(update_of_ne hne _ _).trans hpr, (update_of_ne hne' _ _).trans hrp⟩, ?_⟩
      exact ih hrest hnodup' fun hmem => hother (List.mem_cons_of_mem _ hmem)

theorem walk_next (h : Segment next prev p ps) : Walk next none (next p) ps := by
  induction ps generalizing p with
  | nil => exact h
  | cons q ps ih => exact ⟨h.1.1, ih h.2⟩

theorem walk_prev (h : Segment next prev p ps) :
    Walk prev (some p) (some ((p :: ps).getLast (by simp))) ps.reverse := by
  induction ps generalizing p with
  | nil => rfl
  | cons q ps ih =>
      have hback : prev q = some p := h.1.2
      rw [List.getLast_cons (by simp), List.reverse_cons, ← hback]
      exact (ih h.2).concat

end Segment

namespace Linked

variable {head : Address} {next prev next' prev' : Pointers} {q : Address} {ps qs : List Address}

/-- A list depends on the pointers of its own nodes only. -/
theorem congr (h : Linked head next prev ps) (hnext : ∀ r ∈ head :: ps, next' r = next r)
    (hprev : ∀ r ∈ head :: ps, prev' r = prev r) : Linked head next' prev' ps where
  nodup := h.nodup
  segment := h.segment.congr hnext fun r hr => hprev r (List.mem_cons_of_mem _ hr)
  prev_head p hp := (hprev head (by simp)).trans (h.prev_head p hp)

theorem empty (hnext : next head = none) : Linked head next prev [] where
  nodup := by simp
  segment := hnext
  prev_head := by simp

theorem not_mem (h : Linked head next prev (ps ++ q :: qs)) : q ∉ head :: (ps ++ qs) := by
  have hnodup := h.nodup
  rw [← List.cons_append, List.nodup_middle, List.nodup_cons] at hnodup
  exact hnodup.1

/-- Taking a node out of a list. -/
theorem unlink (h : Linked head next prev (ps ++ q :: qs)) :
    Linked head (update next ((head :: ps).getLast (by simp)) (next q))
      (update prev (qs.head?.getD head) (some ((head :: ps).getLast (by simp)))) (ps ++ qs) where
  nodup := h.nodup.sublist (by simp)
  segment := h.segment.unlink h.nodup fun hmem =>
    (List.nodup_cons.mp h.nodup).1 (List.mem_append_left _ hmem)
  prev_head p hp := by
    cases qs with
    | nil =>
        rw [List.append_nil] at hp
        rw [List.head?_nil, Option.getD_none, update_self]
        cases ps with
        | nil => simp at hp
        | cons r ps =>
            rw [List.getLast_cons (by simp), ← List.getLast?_eq_some_getLast (by simp), hp]
    | cons r qs =>
        have hne : head ≠ r := by
          rintro rfl
          exact (List.nodup_cons.mp h.nodup).1 (by simp)
        rw [List.head?_cons, Option.getD_some, update_of_ne hne]
        refine h.prev_head p ?_
        rw [← hp]
        simp [List.getLast?_append]

/-- Putting a node behind the head. -/
theorem pushFront (h : Linked head next prev ps) (hnew : q ∉ head :: ps) :
    Linked head (update (update next q (next head)) head (some q))
      (update (update prev q (some head)) (ps.head?.getD head) (some q)) (q :: ps) where
  nodup := by
    have hout := List.nodup_cons.mp h.nodup
    simp only [List.mem_cons, not_or] at hnew
    simp only [List.nodup_cons, List.mem_cons, not_or]
    exact ⟨⟨fun heq => hnew.1 heq.symm, hout.1⟩, hnew.2, hout.2⟩
  segment := by
    have hout := List.nodup_cons.mp h.nodup
    simp only [List.mem_cons, not_or] at hnew
    have hfirst := h.segment.next_first
    cases ps with
    | nil => simp_all [Segment]
    | cons r ps =>
        simp only [List.head?_cons] at hfirst
        simp only [List.mem_cons, not_or] at hnew hout
        refine ⟨⟨by simp, ?_⟩, ⟨?_, by simp⟩, h.segment.2.congr ?_ ?_⟩
        · simp [hnew.2.1]
        · simp [hnew.1, hfirst]
        · intro t ht
          have h₁ : t ≠ head := by
            rintro rfl
            simp_all
          have h₂ : t ≠ q := by
            rintro rfl
            simp_all
          rw [update_of_ne h₁, update_of_ne h₂]
        · intro t ht
          have h₁ : t ≠ r := by
            rintro rfl
            simp_all
          have h₂ : t ≠ q := by
            rintro rfl
            simp_all
          simp [h₁, h₂]
  prev_head p hp := by
    cases ps with
    | nil => simpa using hp
    | cons r ps =>
        simp only [List.mem_cons, not_or] at hnew
        have hne : head ≠ r := by
          rintro rfl
          exact (List.nodup_cons.mp h.nodup).1 (by simp)
        rw [List.head?_cons, Option.getD_some, update_of_ne hne,
          update_of_ne (fun heq => hnew.1 heq.symm)]
        exact h.prev_head p (by simpa using hp)

/-- Forward from the head. -/
theorem walk_next (h : Linked head next prev ps) : Walk next none (next head) ps :=
  h.segment.walk_next

/-- Back from the last node, to which the head of a list that is not empty points. -/
theorem walk_prev (h : Linked head next prev ps) (hne : ps ≠ []) :
    Walk prev (some head) (prev head) ps.reverse := by
  have hlast : prev head = some ((head :: ps).getLast (by simp)) := by
    rw [List.getLast_cons hne]
    exact h.prev_head _ (List.getLast?_eq_some_getLast hne)
  rw [hlast]
  exact h.segment.walk_prev

end Linked

end Foundation
