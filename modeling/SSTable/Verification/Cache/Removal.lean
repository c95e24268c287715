import SSTable.Verification.Cache.Recency

/-!
# Removing a key from the cache

A node is unlinked by two swaps.  Where a node lies behind it, the first swap makes the node point
back to itself, so that the second one swaps it with itself and the node stays in the list.  The last
node leaves the list, but the head still points back to it, also if it is the only one.  So no removal
of a present key leaves a list that is right in both directions.

Main results:

- Theorem {lit}`LRUList.remove_spec`: what is left of the pointers after a removal.
- Theorem {lit}`Simulates.remove_iff`: the cache stands for the map without the key, as far as it is
  followed forward, exactly if the key was the only one.
- Theorem {lit}`remove_refines_recency`: runs that remove absent keys only, and what the removal of a
  present key does to the cache they reach.
-/

namespace SSTable

open Foundation Foundation.Exec Foundation.Bytes Function

namespace LRUList

variable {T : Type} {l : LRUList T} {p q : LRUHandle} {k : T} {xs ys : List (LRUHandle × T)}

theorem swapPrev_shape (hp : l.shape.live p = true) (hq : l.shape.live q = true) :
    ∃ l', l.swapPrev p q = .ok l' ∧ l'.shape = { l.shape with
      prev := update (update l.shape.prev p (l.shape.prev q)) q (l.shape.prev p) } := by
  obtain ⟨np, hreadp, -, hprevp, -⟩ := read_shape hp
  obtain ⟨nq, hreadq, -, hprevq, -⟩ := read_shape hq
  obtain ⟨l₁, hset₁, hshape₁⟩ := setPrev_shape hp nq.prev
  obtain ⟨l₂, hset₂, hshape₂⟩ := setPrev_shape (l := l₁) (p := q) (by rw [hshape₁]; exact hq)
    np.prev
  refine ⟨l₂, by simp only [swapPrev, hreadp, hreadq, hset₁, hset₂, ok_bind], ?_⟩
  rw [hshape₂, hshape₁, hprevp, hprevq]

theorem takeData_shape (hp : l.shape.live p = true) (hk : l.shape.data p = some k) :
    ∃ l', l.takeData p = .ok (k, l') ∧
      l'.shape = { l.shape with data := update l.shape.data p none } := by
  obtain ⟨n, hn⟩ := Option.isSome_iff_exists.mp hp
  have hdata : n.data = some k := by simpa [shape, hn] using hk
  refine ⟨l.store p (some { n with data := none }), by simp [takeData, read, hn, hdata], ?_⟩
  simp only [shape, store, Shape.mk.injEq, and_true]
  refine ⟨?_, ?_, ?_, ?_⟩ <;> funext r <;> by_cases hr : r = p <;> simp [update, hr, hn]

/-- What is left of the pointers around a removed node: the node behind it points back past it while
the node in front still points to it, or the list ends in front of it while the head still points
back to it. -/
def Shape.removed (s : Shape T) (p before : LRUHandle) : Option LRUHandle → Shape T
  | some behind => { s with
      prev := update (update s.prev behind (some before)) p (some p)
      data := update s.data p none
      count := s.count - 1 }
  | none => { s with
      next := update (update s.next before none) p (some p)
      data := update s.data p none
      count := s.count - 1 }

/-- The node in front of a node. -/
def before (xs : List (LRUHandle × T)) : LRUHandle := (head :: xs.map Prod.fst).getLast (by simp)

/-- What follows the two swaps. -/
theorem remove_of_swaps {l₁ l₂ : LRUList T} (hfirst : l.swapPrevBehind p = .ok l₁)
    (hsecond : l₁.swapNextBefore p = .ok l₂) (hlive : l₂.shape.live p = true)
    (hdata : l₂.shape.data p = some k) (hcount : 1 ≤ l₂.count) :
    ∃ l', l.remove p = .ok (k, l') ∧ l'.shape = { l₂.shape with
      data := update l₂.shape.data p none
      count := l₂.count - 1 } := by
  obtain ⟨l', htake, hshape⟩ := takeData_shape (l := { l₂ with count := l₂.count - 1 })
    hlive hdata
  refine ⟨l', ?_, hshape⟩
  simp only [remove, hfirst, hsecond, ok_bind, wordSub_of_le hcount, htake]

/-- Removing a node returns its element. -/
theorem remove_spec (h : Holds l.shape (xs ++ (p, k) :: ys)) :
    ∃ l', l.remove p = .ok (k, l') ∧
      l'.shape = l.shape.removed p (before xs) (ys.map Prod.fst).head? := by
  have hps : (xs ++ (p, k) :: ys).map Prod.fst = xs.map Prod.fst ++ p :: ys.map Prod.fst := by simp
  have hlinked := h.linked
  rw [hps] at hlinked
  have hnext := hlinked.segment.next_eq
  have hprev := hlinked.segment.prev_eq
  have hfront := hlinked.segment.next_front
  rw [← before] at hprev hfront
  have hlive : ∀ q ∈ head :: xs.map Prod.fst ++ p :: ys.map Prod.fst, l.shape.live q = true := by
    intro q hq
    exact h.live q (by rwa [hps])
  have hlivep : l.shape.live p = true := hlive p (by simp)
  have hlivebefore : l.shape.live (before xs) = true :=
    hlive _ (List.mem_append_left _ (List.getLast_mem _))
  have hdata : l.shape.data p = some k := h.data (p, k) (by simp)
  have hcount : 1 ≤ l.count := by
    have hlen := h.count
    rw [List.length_append, List.length_cons, shape_count] at hlen
    omega
  obtain ⟨node, hread, hnodeNext, hnodePrev, -⟩ := read_shape hlivep
  cases ys with
  | nil =>
      -- The node in front and the node are swapped, and the latter owns itself from then on.
      have hfirst : l.swapPrevBehind p = .ok l := by
        simp only [swapPrevBehind, hread, ok_bind, hnodeNext.trans hnext]
        rfl
      obtain ⟨l₁, hswap, hshape₁⟩ := swapNext_shape hlivebefore hlivep
      have hsecond : l.swapNextBefore p = .ok l₁ := by
        simp only [swapNextBefore, hread, ok_bind, hnodePrev.trans hprev, hswap]
      have hcount₁ : l₁.count = l.count := congrArg Shape.count hshape₁
      obtain ⟨l', hremove, hshape⟩ := remove_of_swaps hfirst hsecond (by rw [hshape₁]; exact hlivep)
        (by rw [hshape₁]; exact hdata) (by rwa [hcount₁])
      refine ⟨l', hremove, ?_⟩
      rw [hshape, hshape₁, hcount₁, hnext, hfront]
      rfl
  | cons e ys =>
      have hliveNext : l.shape.live e.1 = true := hlive e.1 (by simp)
      have hback : l.shape.prev e.1 = some p := by
        have hsegment : Segment l.shape.next l.shape.prev head
            ((xs.map Prod.fst ++ [p]) ++ e.1 :: ys.map Prod.fst) := by
          simpa using hlinked.segment
        simpa using hsegment.prev_eq
      obtain ⟨l₁, hswap, hshape₁⟩ := swapPrev_shape hliveNext hlivep
      have hfirst : l.swapPrevBehind p = .ok l₁ := by
        simp only [swapPrevBehind, hread, ok_bind, hnodeNext.trans hnext]
        exact hswap
      rw [hprev, hback] at hshape₁
      have hlive₁ : l₁.shape.live p = true := by
        rw [hshape₁]
        exact hlivep
      -- The node points back to itself, and is swapped with itself.
      obtain ⟨node₁, hread₁, -, hnode₁Prev, -⟩ := read_shape hlive₁
      have hself : node₁.prev = some p := by
        rw [hnode₁Prev, hshape₁]
        exact update_self _ _ _
      obtain ⟨l₂, hswap₂, hshape₂⟩ := swapNext_shape hlive₁ hlive₁
      rw [update_eq_self, update_eq_self] at hshape₂
      have hsecond : l₁.swapNextBefore p = .ok l₂ := by
        simp only [swapNextBefore, hread₁, ok_bind, hself, hswap₂]
      have hcount₂ : l₂.count = l.count := by
        rw [← shape_count, hshape₂, hshape₁]
        rfl
      obtain ⟨l', hremove, hshape⟩ := remove_of_swaps hfirst hsecond (by rw [hshape₂]; exact hlive₁)
        (by rw [hshape₂, hshape₁]; exact hdata) (by rwa [hcount₂])
      refine ⟨l', hremove, ?_⟩
      rw [hshape, hcount₂, hshape₂, hshape₁]
      rfl

/-- The head points back to the last node. -/
theorem Holds.prev_head {s : Shape T} (h : Holds s (xs ++ [(p, k)])) : s.prev head = some p := by
  apply h.linked.prev_head
  rw [List.map_append, List.map_singleton, List.getLast?_concat]

/-- Going forward, the nodes in front of a removed last node are found. -/
theorem Holds.forward_removed {s : Shape T} (h : Holds s (xs ++ [(p, k)])) :
    Walk (s.removed p (before xs) none).next none ((s.removed p (before xs) none).next head)
      (xs.map Prod.fst) := by
  have hlinked := h.linked
  rw [List.map_append, List.map_singleton] at hlinked
  have hunlink := hlinked.unlink
  have hout := hlinked.not_mem
  rw [List.append_nil] at hunlink hout
  rw [hlinked.segment.next_eq, List.head?_nil, ← before] at hunlink
  have hne : ∀ q ∈ head :: xs.map Prod.fst, q ≠ p := fun q hq heq => hout (heq ▸ hq)
  have hsegment : Segment (s.removed p (before xs) none).next
      (update s.prev (none.getD head) (some (before xs))) head (xs.map Prod.fst) :=
    hunlink.segment.congr (fun q hq => update_of_ne (hne q hq) _ _) fun _ _ => rfl
  exact hsegment.walk_next

/-- Going back, the removed last node is found first. -/
theorem Holds.not_backward_removed {s : Shape T} (h : Holds s (xs ++ [(p, k)])) (hxs : xs ≠ []) :
    ¬ Walk (s.removed p (before xs) none).prev (some head) ((s.removed p (before xs) none).prev head)
      (xs.map Prod.fst).reverse := by
  intro hback
  have hlinked := h.linked
  rw [List.map_append, List.map_singleton] at hlinked
  have hout := hlinked.not_mem
  rw [List.append_nil] at hout
  cases hrev : (xs.map Prod.fst).reverse with
  | nil =>
      rw [List.reverse_eq_nil_iff, List.map_eq_nil_iff] at hrev
      exact hxs hrev
  | cons q qs =>
      rw [hrev] at hback
      have heq : p = q := Option.some.inj (h.prev_head.symm.trans hback.1)
      apply hout
      rw [List.mem_cons, ← List.mem_reverse, hrev, heq]
      exact Or.inr List.mem_cons_self

end LRUList

namespace Cache

variable {T : Type} {c c' : Cache T} {m : Recency CacheKey T} {key : CacheKey} {v : T}
  {p : LRUHandle} {xs ys : List (CacheKey × T × LRUHandle)}

/-! ## One removal -/

/-- Removing a key that is not present changes nothing. -/
theorem Simulates.remove_absent (h : c.Simulates m) (habsent : c.find key = none) :
    c.remove key = .ok (none, c) ∧ m.remove key = m := by
  have hfind : m.find key = none := by rwa [← h.find_eq key]
  obtain ⟨-, es, hes, -⟩ := h
  have hlookup := hes.lookup_eq_none_iff.mpr (hes.find_eq_none_iff.mp habsent)
  exact ⟨by simp [Cache.remove, hlookup], Recency.remove_of_none hfind⟩

/-- Removing a key returns its element and takes it out of the map. -/
theorem Models.remove (h : c.Models (xs ++ (key, v, p) :: ys)) :
    ∃ list, c.remove key = .ok (some v, { c with list := list, map := mapRemove c.map key }) ∧
      list.shape = c.list.shape.removed p (LRUList.before (xs.map nodeOf))
        ((ys.map nodeOf).map Prod.fst).head? := by
  have hlookup : c.map.lookup key = some (v, p) := h.lookup_eq_some_iff.mpr (by simp)
  have hlist : LRUList.Holds c.list.shape (xs.map nodeOf ++ (p, key) :: ys.map nodeOf) := by
    have hnodes := h.list
    rwa [List.map_append, List.map_cons] at hnodes
  obtain ⟨list, hremove, hshape⟩ := LRUList.remove_spec hlist
  exact ⟨list, by simp [Cache.remove, hlookup, hremove], hshape⟩

/-- A key that is alone in the cache is removed. -/
theorem Models.remove_only (h : c.Models [(key, v, p)]) :
    ∃ c', c.remove key = .ok (some v, c') ∧ c'.Models [] ∧ c'.cap = c.cap := by
  have hmiddle : c.Models ([] ++ (key, v, p) :: []) := h
  obtain ⟨list, hremove, hshape⟩ := hmiddle.remove
  have hne : LRUList.head ≠ p := by
    have hnodup := h.list.linked.nodup
    simp only [List.map_cons, List.map_nil, List.nodup_cons, List.mem_singleton] at hnodup
    exact hnodup.1
  have hcount := h.list.count
  rw [List.map_cons, List.map_nil, List.length_singleton] at hcount
  refine ⟨_, hremove, ?_, rfl⟩
  exact {
    cap_pos := h.cap_pos
    map := by
      have hperm := h.map.filter fun e => e.1 != key
      rw [mapRemove_eq]
      simpa [Recency.without] using hperm
    list := {
      linked := .empty (by
        rw [hshape]
        exact (update_of_ne hne _ _).trans (update_self _ _ _))
      live := by
        intro q hq
        rw [List.map_nil, List.map_nil, List.mem_singleton] at hq
        rw [hq, hshape]
        exact h.list.live_head
      data := by simp
      fresh := by
        intro q hq
        rw [List.map_nil, List.map_nil, List.mem_singleton] at hq
        rw [hq, hshape]
        exact h.list.fresh _ List.mem_cons_self
      count := by
        rw [hshape]
        exact congrArg (· - 1) hcount }
    nodup := List.nodup_nil
    length_le := Nat.zero_le _ }

/-- A present key of a cache with one entry is in that entry. -/
theorem Simulates.models_only (h : c.Simulates m) (hfind : m.find key = some v)
    (hcount : c.count = 1) : ∃ p, c.Models [(key, v, p)] ∧ m.entries = [(key, v)] := by
  obtain ⟨-, es, hes, hentries⟩ := h
  rw [hes.count_eq] at hcount
  obtain ⟨⟨k, w, p⟩, rfl⟩ := List.length_eq_one_iff.mp hcount
  rw [Recency.find_eq_some_iff, ← hentries, List.map_singleton, List.mem_singleton] at hfind
  obtain ⟨rfl, rfl⟩ := Prod.mk.inj hfind
  exact ⟨p, hes, hentries.symm⟩

theorem Simulates.remove_only (h : c.Simulates m) (hfind : m.find key = some v)
    (hcount : c.count = 1) :
    ∃ c', c.remove key = .ok (some v, c') ∧ c'.Simulates (m.remove key) := by
  obtain ⟨p, hes, hentries⟩ := h.models_only hfind hcount
  obtain ⟨c', hremove, hmodels, hcap⟩ := hes.remove_only
  refine ⟨c', hremove, hcap.trans h.1, [], hmodels, ?_⟩
  rw [Recency.entries_remove, hentries]
  simp [Recency.without]

/-- The nodes of a cache that stands for a map are those that are found going forward. -/
theorem Represents.length_eq {ps : List LRUHandle} (h : c.Represents m ps) :
    ps.length = m.entries.length := by
  have hkeys := congrArg List.length h.keys
  rwa [List.length_map, List.length_map, Recency.keys, List.length_map] at hkeys

/-- A removal leaves a cache that stands for the map without the key exactly if the key was
alone. -/
theorem Simulates.remove_iff (h : c.Simulates m) (hfind : m.find key = some v) :
    (∃ c', c.remove key = .ok (some v, c') ∧ ∃ ps, c'.Represents (m.remove key) ps) ↔
      c.count = 1 := by
  constructor
  · rintro ⟨c', hremove, ps, hps⟩
    obtain ⟨-, es, hes, hentries⟩ := h
    obtain ⟨p, hmem⟩ : ∃ p, (key, v, p) ∈ es := by
      rw [Recency.find_eq_some_iff, ← hentries, List.mem_map] at hfind
      obtain ⟨⟨k, w, p⟩, he, heq⟩ := hfind
      obtain ⟨rfl, rfl⟩ := Prod.mk.inj heq
      exact ⟨p, he⟩
    obtain ⟨xs, ys, rfl⟩ := List.append_of_mem hmem
    obtain ⟨list, hremove', hshape⟩ := hes.remove
    rw [hremove, Except.ok.injEq, Prod.mk.injEq] at hremove'
    obtain ⟨-, rfl⟩ := hremove'
    have hlength : ps.length = xs.length + ys.length := by
      have hnodup : ((xs.map entryOf ++ (key, v) :: ys.map entryOf).map Prod.fst).Nodup := by
        have hkeys := m.nodup
        rwa [← hentries, List.map_append] at hkeys
      have hrest : (m.remove key).entries = xs.map entryOf ++ ys.map entryOf := by
        rw [Recency.entries_remove, ← hentries, List.map_append]
        exact Recency.without_middle hnodup
      rw [hps.length_eq, hrest, List.length_append, List.length_map, List.length_map]
    have hlinked := hes.list.linked
    have hforward := hps.forward
    have hbackward := hps.backward
    simp only [hshape] at hforward hbackward
    cases ys with
    | cons e ys =>
        -- Going forward, the removed node is still found.
        have hsame := hforward.unique hlinked.walk_next
        rw [hsame] at hlength
        simp at hlength
    | nil =>
        cases xs with
        | nil => exact hes.count_eq
        | cons e xs =>
            -- Going back, the first node that is found is the removed one.
            have hlist : LRUList.Holds c.list.shape ((e :: xs).map nodeOf ++ [(p, key)]) := by
              have hnodes := hes.list
              rwa [List.map_append, List.map_singleton] at hnodes
            have hps' := hforward.unique hlist.forward_removed
            have hback := hbackward (by rw [hps']; exact List.cons_ne_nil _ _)
            rw [hps'] at hback
            exact absurd hback (hlist.not_backward_removed (List.cons_ne_nil _ _))
  · intro hcount
    obtain ⟨c', hremove, hsim⟩ := h.remove_only hfind hcount
    exact ⟨c', hremove, hsim.represents⟩

/-! ## What the only key leaves behind -/

/-- The head points back to no node. -/
def Tailless (c : Cache T) : Prop :=
  c.list.shape.prev LRUList.head = none ∨ c.list.shape.prev LRUList.head = some LRUList.head

/-- A cache stands for an abstract map, and if the map is empty, so is the chain back from the
head. -/
structure FullyRepresents (c : Cache T) (m : Recency CacheKey T) (ps : List LRUHandle) : Prop extends
    c.Represents m ps where
  tailless : ps = [] → c.Tailless

/-- The head points back to a node without an element, which owns itself. -/
structure Trails (c : Cache T) (p : LRUHandle) : Prop where
  ne_head : p ≠ LRUList.head
  tail : c.list.shape.prev LRUList.head = some p
  back : c.list.shape.prev p = some LRUList.head
  next : c.list.shape.next p = some p
  data : c.list.shape.data p = none

theorem Trails.not_tailless (h : c.Trails p) : ¬ c.Tailless := by
  rintro (hnone | hhead)
  · rw [h.tail] at hnone
    cases hnone
  · exact h.ne_head (Option.some.inj (h.tail.symm.trans hhead))

/-- The only node is left behind its head. -/
theorem Models.trails_of_remove (h : c.Models [(key, v, p)])
    (hremove : c.remove key = .ok (some v, c')) : c'.Trails p := by
  have hmiddle : c.Models ([] ++ (key, v, p) :: []) := h
  obtain ⟨list, hremove', hshape⟩ := hmiddle.remove
  obtain ⟨-, rfl⟩ := Prod.mk.inj (Except.ok.inj (hremove.symm.trans hremove'))
  have hlist : LRUList.Holds c.list.shape ([] ++ [(p, key)]) := h.list
  have hback : c.list.shape.prev p = some LRUList.head := hlist.linked.segment.prev_first rfl
  have hnodup := h.list.linked.nodup
  simp only [List.map_cons, List.map_nil, List.nodup_cons, List.mem_singleton] at hnodup
  constructor
  · exact fun heq => hnodup.1 heq.symm
  · rw [hshape]
    exact hlist.prev_head
  · rw [hshape]
    exact hback
  · rw [hshape]
    exact update_self _ _ _
  · rw [hshape]
    exact update_self _ _ _

/-- The removal of the only key shows its element.  Going forward, nothing is found afterwards, but
the head points back to the removed node. -/
theorem Simulates.remove_trails (h : c.Simulates m) (hfind : m.find key = some v)
    (hcount : c.count = 1) : ∃ c' p, c.remove key = .ok (some v, c') ∧
      c'.Simulates (m.remove key) ∧ c'.Represents (m.remove key) [] ∧ c'.Trails p := by
  obtain ⟨p, hes, hentries⟩ := h.models_only hfind hcount
  obtain ⟨c', hremove, hsim⟩ := h.remove_only hfind hcount
  obtain ⟨ps, hps⟩ := hsim.represents
  have hnone : ps = [] := by
    rw [← List.length_eq_zero_iff, hps.length_eq, Recency.entries_remove, hentries]
    simp [Recency.without]
  exact ⟨c', p, hremove, hsim, hnone ▸ hps, hes.trails_of_remove hremove⟩

/-- No removal of a present key leaves a cache that stands for the map without the key in both
directions. -/
theorem Simulates.not_fullyRepresents_remove (h : c.Simulates m) (hfind : m.find key = some v) :
    ¬ ∃ c' ps, c.remove key = .ok (some v, c') ∧ c'.FullyRepresents (m.remove key) ps := by
  rintro ⟨c', ps, hremove, hps⟩
  have hcount : c.count = 1 := (h.remove_iff hfind).mp ⟨c', hremove, ps, hps.toRepresents⟩
  obtain ⟨c'', p, hremove', -, hempty, htrails⟩ := h.remove_trails hfind hcount
  obtain ⟨-, rfl⟩ := Prod.mk.inj (Except.ok.inj (hremove.symm.trans hremove'))
  have hnone : ps = [] := hps.forward.unique hempty.forward
  exact htrails.not_tailless (hps.tailless hnone)

/-! ## Runs with removals -/

/-- An operation on the cache; a removal shows the element that it takes out. -/
def change (c : Cache T) : Recency.Change CacheKey T → Exec (Option T × Cache T)
  | .use u => c.step u
  | .remove key => c.remove key

/-- Only keys that are not present are inserted, and only keys are removed that are not present or
alone in the cache. -/
def Removable (c : Cache T) : Recency.Change CacheKey T → Prop
  | .use u => c.Allowed u
  | .remove key => c.find key = none ∨ c.count = 1

/-- Only keys that are not present are inserted or removed. -/
def RemovesAbsent (c : Cache T) : Recency.Change CacheKey T → Prop
  | .use u => c.Allowed u
  | .remove key => c.find key = none

/-- The removal of a key that is absent or alone shows the same on both sides and keeps them
together. -/
theorem Simulates.remove (h : c.Simulates m) (key : CacheKey)
    (hkey : c.find key = none ∨ c.count = 1) :
    ∃ c', c.remove key = .ok (m.find key, c') ∧ c'.Simulates (m.remove key) := by
  cases hfind : m.find key with
  | none =>
      obtain ⟨hremove, hsame⟩ := h.remove_absent ((h.find_eq key).trans hfind)
      rw [hsame]
      exact ⟨c, hremove, h⟩
  | some v =>
      have hcount : c.count = 1 := by
        rcases hkey with habsent | hcount
        · rw [h.find_eq key, hfind] at habsent
          cases habsent
        · exact hcount
      exact h.remove_only hfind hcount

/-- One operation shows the same on both sides and keeps them together. -/
theorem Simulates.change (h : c.Simulates m) {u : Recency.Change CacheKey T} (hu : c.Removable u) :
    ∃ c', c.change u = .ok ((m.change u).1, c') ∧ c'.Simulates (m.change u).2 := by
  cases u with
  | use u => exact h.step hu
  | remove key => exact h.remove key hu

/-- The entries of the cache are those of the abstract map, and if there are none, the head points
back to no node. -/
def FullySimulates (c : Cache T) (m : Recency CacheKey T) : Prop :=
  c.Simulates m ∧ (m.entries = [] → c.Tailless)

theorem FullySimulates.fullyRepresents (h : c.FullySimulates m) : ∃ ps, c.FullyRepresents m ps := by
  obtain ⟨ps, hps⟩ := h.1.represents
  refine ⟨ps, hps, fun hnone => h.2 ?_⟩
  rw [← List.length_eq_zero_iff, ← hps.length_eq, hnone, List.length_nil]

/-- An operation that removes no present key keeps both sides together in both directions. -/
theorem FullySimulates.change (h : c.FullySimulates m) {u : Recency.Change CacheKey T}
    (hu : c.RemovesAbsent u) :
    ∃ c', c.change u = .ok ((m.change u).1, c') ∧ c'.FullySimulates (m.change u).2 := by
  obtain ⟨hsim, htailless⟩ := h
  cases u with
  | use u =>
      obtain ⟨c', hstep, hsim'⟩ := hsim.step hu
      refine ⟨c', hstep, hsim', ?_⟩
      cases u with
      | insert key v => exact fun hnone => absurd hnone (List.cons_ne_nil _ _)
      | get key =>
          cases hfind : m.find key with
          | none =>
              -- A lookup in vain leaves the cache as it is.
              have hlookup : c.map.lookup key = none :=
                Option.map_eq_none_iff.mp ((hsim.find_eq key).trans hfind)
              have hget : c.get key = .ok (none, c) := by simp [Cache.get, hlookup]
              obtain ⟨-, rfl⟩ := Prod.mk.inj (Except.ok.inj (hget.symm.trans hstep))
              simpa only [Recency.change, Recency.step, Recency.touch_of_none hfind] using htailless
          | some v =>
              intro hnone
              have hcons := Recency.entries_touch_of_some hfind
              rw [show (m.touch key).entries = [] from hnone] at hcons
              cases hcons
  | remove key =>
      obtain ⟨hremove, hsame⟩ := hsim.remove_absent hu
      have hfind : m.find key = none := (hsim.find_eq key).symm.trans hu
      simp only [Cache.change, Recency.change, hfind, hsame]
      exact ⟨c, hremove, hsim, htailless⟩

theorem exists_new_fully {capacity : Nat} (hcap : 0 < capacity) :
    ∃ c : Cache T, Cache.new capacity = .ok c ∧ c.FullySimulates (Recency.empty capacity hcap) := by
  obtain ⟨c, hnew, hempty⟩ := exists_new (T := T) hcap
  refine ⟨c, hnew, hempty, fun _ => Or.inl ?_⟩
  rw [Cache.new, ensure_of_true hcap] at hnew
  obtain rfl := Except.ok.inj hnew
  rfl

end Cache

/-- Every run of lookups, insertions of absent keys and removals of absent keys shows what the
abstract map shows, on a cache of any capacity, and the chains of the cache hold the keys of the map in
both directions.  From the cache that is reached, no removal of a present key leaves such chains: the
forward chain is the one without the key exactly if the key is alone.  Then the head is left pointing
back to the removed node, and further runs in which keys are removed that are absent or alone still
show what the map without the key shows. -/
theorem remove_refines_recency {T : Type} (capacity : Nat) (hcap : 0 < capacity)
    (us : List (Recency.Change CacheKey T))
    (hlegal : ∀ c, Cache.new capacity = .ok c → Legal Cache.change Cache.RemovesAbsent c us) :
    ∃ c₀ c shown m ps, Cache.new capacity = .ok c₀ ∧
      runOps Cache.change c₀ us = .ok (shown, c) ∧
      traceOps Recency.change (Recency.empty capacity hcap) us = (shown, m) ∧
      c.FullyRepresents m ps ∧
      ∀ key v, m.find key = some v →
        (¬ ∃ c' ps, c.remove key = .ok (some v, c') ∧ c'.FullyRepresents (m.remove key) ps) ∧
        ((∃ c', c.remove key = .ok (some v, c') ∧ ∃ ps, c'.Represents (m.remove key) ps) ↔
          c.count = 1) ∧
        (c.count = 1 → ∃ c' p, c.remove key = .ok (some v, c') ∧
          c'.Represents (m.remove key) [] ∧ c'.Trails p ∧
          ∀ us', Legal Cache.change Cache.Removable c' us' →
            ∃ c'', runOps Cache.change c' us' =
              .ok ((traceOps Recency.change (m.remove key) us').1, c'')) := by
  obtain ⟨c₀, hnew, hempty⟩ := Cache.exists_new_fully (T := T) hcap
  obtain ⟨c, hrun, hsim⟩ := runOps_simulates (f := Cache.change) (g := Recency.change)
    Cache.FullySimulates (fun _ _ _ h hu => h.change hu) hempty (hlegal c₀ hnew)
  obtain ⟨ps, hps⟩ := hsim.fullyRepresents
  refine ⟨c₀, c, _, _, ps, hnew, hrun, rfl, hps, fun key v hfind => ?_⟩
  refine ⟨hsim.1.not_fullyRepresents_remove hfind, hsim.1.remove_iff hfind, fun hcount => ?_⟩
  obtain ⟨c', p, hremove, hsim', hrepresents, htrails⟩ := hsim.1.remove_trails hfind hcount
  refine ⟨c', p, hremove, hrepresents, htrails, fun us' hlegal' => ?_⟩
  obtain ⟨c'', hrun', -⟩ := runOps_simulates (f := Cache.change) (g := Recency.change)
    Cache.Simulates (fun _ _ _ h hu => h.change hu) hsim' hlegal'
  exact ⟨c'', hrun'⟩

/-- A key that is alone in the cache is looked up after removals in vain.  Its own removal leaves its
node behind the head. -/
theorem remove_refines_recency_one_element :
    ∃ c₀ c c' m ps p, Cache.new 2 = .ok c₀ ∧
      runOps Cache.change c₀ [.remove [1], .use (.insert [1] true), .remove [2], .use (.get [1])] =
        .ok ([none, none, none, some true], c) ∧
      c.FullyRepresents m ps ∧ m.keys = [[1]] ∧
      c.remove [1] = .ok (some true, c') ∧ c'.Trails p := by
  obtain ⟨c₀, c, shown, m, ps, hnew, hrun, htrace, hrepresents, hremove⟩ :=
    remove_refines_recency 2 (by decide) [.remove [1], .use (.insert [1] true), .remove [2],
      .use (.get [1])] (by
        intro c hc
        obtain rfl := Except.ok.inj hc
        refine ⟨rfl, fun _ _ h₁ => ?_⟩
        obtain ⟨rfl, rfl⟩ := Prod.mk.inj (Except.ok.inj h₁)
        refine ⟨rfl, fun _ _ h₂ => ?_⟩
        obtain ⟨rfl, rfl⟩ := Prod.mk.inj (Except.ok.inj h₂)
        exact ⟨rfl, fun _ _ _ => ⟨trivial, fun _ _ _ => trivial⟩⟩)
  obtain ⟨rfl, rfl⟩ := Prod.mk.inj htrace
  obtain ⟨c', p, hremoved, -, htrails, -⟩ := (hremove [1] true rfl).2.2 (by
    rw [hrepresents.count]
    rfl)
  exact ⟨c₀, c, c', _, ps, p, hnew, hrun, hrepresents, rfl, hremoved, htrails⟩

/-- Removing one of two keys leaves a cache that stops at an assertion when it is full again. -/
theorem removal_stops : ∃ c₀ : Cache Bool, Cache.new 2 = .ok c₀ ∧
    runOps Cache.change c₀ [.use (.insert [1] true), .use (.insert [2] true), .remove [1],
      .use (.insert [3] true), .use (.insert [4] true)] = .error .assertion :=
  ⟨_, rfl, rfl⟩

end SSTable
