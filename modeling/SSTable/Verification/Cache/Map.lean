import SSTable.Foundation.Recency
import SSTable.Verification.Cache.List

/-!
# The cache as a bounded map

The map and the recency list of a cache hold the same keys.  The entries of such a cache stand in
the order of use; looking a key up and inserting an absent key never fail on it, and change that
order as they should.

Main results:

- Theorem {lit}`Models.get`: a lookup moves the entry it finds to the front.
- Theorem {lit}`Models.insert`: inserting an absent key puts it to the front, and a full cache
  loses its last entry.
- Theorem {lit}`Reachable.wellFormed`: every cache that its users can reach is consistent.
-/

namespace SSTable

open Foundation Foundation.Exec Foundation.Bytes

namespace Cache

variable {T : Type}

/-- The element stored under a key. -/
def find (c : Cache T) (key : CacheKey) : Option T := (c.map.lookup key).map Prod.fst

/-- The node and the key of a map entry. -/
def nodeOf (e : CacheKey × T × LRUHandle) : LRUHandle × CacheKey := (e.2.2, e.1)

/-- The map and the recency list hold the same keys, no more of them than fit. -/
structure WellFormed (c : Cache T) : Prop where
  cap_pos : 0 < c.cap
  consistent : ∃ es, LRUList.Holds c.list.shape es ∧ (c.map.map nodeOf).Perm es ∧
    (es.map Prod.snd).Nodup ∧ es.length ≤ c.cap

/-- The entries of a cache, the most recently used one first. -/
structure Models (c : Cache T) (es : List (CacheKey × T × LRUHandle)) : Prop where
  cap_pos : 0 < c.cap
  map : c.map.Perm es
  list : LRUList.Holds c.list.shape (es.map nodeOf)
  nodup : (es.map Prod.fst).Nodup
  length_le : es.length ≤ c.cap

variable {c c' : Cache T} {es xs ys : List (CacheKey × T × LRUHandle)} {key : CacheKey} {v : T}
  {p : LRUHandle}

theorem models_new {capacity : Nat} (h : Cache.new capacity = .ok c) :
    c.Models [] ∧ c.cap = capacity ∧ c.id = 0 := by
  simp only [Cache.new, bind_eq_ok_iff, ensure_eq_ok_iff, pure_eq_ok, Except.ok.injEq] at h
  obtain ⟨_, hpos, rfl⟩ := h
  refine ⟨?_, rfl, rfl⟩
  exact {
    cap_pos := hpos
    map := List.Perm.nil
    list := LRUList.holds_new
    nodup := List.nodup_nil
    length_le := Nat.zero_le capacity }

/-- A consistent cache is one whose entries have an order of use. -/
theorem wellFormed_iff : c.WellFormed ↔ ∃ es, c.Models es := by
  constructor
  · rintro ⟨hpos, ns, hholds, hperm, hnodup, hlen⟩
    have hlift : Relation.Comp (· = List.map nodeOf ·) List.Perm ns c.map := by
      rw [List.eq_map_comp_perm]
      exact hperm.symm
    obtain ⟨es, rfl, hes⟩ := hlift
    refine ⟨es, hpos, hes.symm, hholds, ?_, ?_⟩
    · rw [List.map_map] at hnodup
      exact hnodup
    · rw [← List.length_map nodeOf]
      exact hlen
  · rintro ⟨es, h⟩
    refine ⟨h.cap_pos, es.map nodeOf, h.list, h.map.map nodeOf, ?_, ?_⟩
    · rw [List.map_map]
      exact h.nodup
    · rw [List.length_map]
      exact h.length_le

/-! ## What is found -/

theorem Models.count_eq (h : c.Models es) : c.count = es.length :=
  h.list.count.trans (List.length_map nodeOf)

theorem Models.lookup_eq_some_iff (h : c.Models es) :
    c.map.lookup key = some (v, p) ↔ (key, v, p) ∈ es := by
  rw [Recency.lookup_eq_some_iff_mem ((h.map.map Prod.fst).nodup_iff.mpr h.nodup)]
  exact h.map.mem_iff

theorem Models.lookup_eq_none_iff (h : c.Models es) :
    c.map.lookup key = none ↔ key ∉ es.map Prod.fst := by
  rw [Recency.lookup_eq_none_iff_not_mem, (h.map.map Prod.fst).mem_iff]

theorem Models.find_eq_some_iff (h : c.Models es) : c.find key = some v ↔ ∃ p, (key, v, p) ∈ es := by
  simp only [find, Option.map_eq_some_iff, Prod.exists, exists_and_right, exists_eq_right,
    h.lookup_eq_some_iff]

theorem Models.find_eq_none_iff (h : c.Models es) : c.find key = none ↔ key ∉ es.map Prod.fst := by
  rw [← h.lookup_eq_none_iff, find, Option.map_eq_none_iff]

/-! ## Looking up, making room and inserting -/

theorem Models.get_absent (h : c.Models es) (habsent : key ∉ es.map Prod.fst) :
    c.get key = .ok (none, c) := by
  simp [Cache.get, h.lookup_eq_none_iff.mpr habsent]

/-- A lookup moves the entry it finds to the front. -/
theorem Models.get (h : c.Models (xs ++ (key, v, p) :: ys)) :
    ∃ list, c.get key = .ok (some v, { c with list := list }) ∧
      ({ c with list := list } : Cache T).Models ((key, v, p) :: (xs ++ ys)) := by
  have hlookup : c.map.lookup key = some (v, p) := h.lookup_eq_some_iff.mpr (by simp)
  have hlist : LRUList.Holds c.list.shape (xs.map nodeOf ++ (p, key) :: ys.map nodeOf) := by
    have hnodes := h.list
    rwa [List.map_append, List.map_cons] at hnodes
  obtain ⟨list, hmove, hholds⟩ := LRUList.reinsertFront_spec hlist
  have hswap : (xs ++ (key, v, p) :: ys).Perm ((key, v, p) :: (xs ++ ys)) := List.perm_middle
  refine ⟨list, by simp [Cache.get, hlookup, hmove], ?_⟩
  exact {
    cap_pos := h.cap_pos
    map := h.map.trans hswap
    list := by
      rw [List.map_cons, List.map_append]
      exact hholds
    nodup := (hswap.map Prod.fst).nodup_iff.mp h.nodup
    length_le := by
      rw [← hswap.length_eq]
      exact h.length_le }

theorem mapRemove_eq (m : List (CacheKey × T × LRUHandle)) (key : CacheKey) :
    mapRemove m key = Recency.without key m := by
  simp only [mapRemove, Recency.without, ne_eq, decide_not, bne, beq_eq_decide]

/-- A full cache loses its last entry. -/
theorem Models.evict_full (h : c.Models (es ++ [(key, v, p)])) (hfull : c.cap ≤ es.length + 1) :
    ∃ c', c.evict = .ok c' ∧ c'.Models es ∧ c'.cap = c.cap ∧ c'.id = c.id := by
  have hcount : c.list.count = es.length + 1 := by
    rw [show c.list.count = _ from h.count_eq, List.length_append, List.length_singleton]
  have hlist : LRUList.Holds c.list.shape (es.map nodeOf ++ [(p, key)]) := by
    have hnodes := h.list
    rwa [List.map_append] at hnodes
  obtain ⟨list, hremove, hholds⟩ := LRUList.removeLast_spec hlist
  have hlookup : c.map.lookup key = some (v, p) := h.lookup_eq_some_iff.mpr (by simp)
  refine ⟨{ c with list := list, map := mapRemove c.map key }, ?_, ?_, rfl, rfl⟩
  · simp [evict, hcount, hfull, hremove, hlookup, ensure_of_true]
  · have hnodup := h.nodup
    have hrest : Recency.without key (es ++ [(key, v, p)]) = es := by
      rw [Recency.without_middle hnodup, List.append_nil]
    have hlen := h.length_le
    rw [List.length_append, List.length_singleton] at hlen
    rw [List.map_append] at hnodup
    exact {
      cap_pos := h.cap_pos
      map := by
        have hperm := h.map.filter fun e => e.1 != key
        rw [mapRemove_eq]
        rwa [← Recency.without, ← Recency.without, hrest] at hperm
      list := hholds
      nodup := (List.nodup_append.mp hnodup).1
      length_le := Nat.le_of_succ_le hlen }

/-- The entries that are left when there is to be room for one more. -/
def kept (c : Cache T) (es : List (CacheKey × T × LRUHandle)) : List (CacheKey × T × LRUHandle) :=
  if es.length < c.cap then es else es.dropLast

theorem kept_subset (c : Cache T) (es : List (CacheKey × T × LRUHandle)) : c.kept es ⊆ es := by
  unfold kept
  split
  · exact List.Subset.refl es
  · exact List.dropLast_subset es

/-- Making room. -/
theorem Models.evict (h : c.Models es) :
    ∃ c', c.evict = .ok c' ∧ c'.Models (c.kept es) ∧ (c.kept es).length < c.cap ∧
      c'.cap = c.cap ∧ c'.id = c.id := by
  unfold kept
  split
  · rename_i hroom
    have hcount : ¬ c.list.count ≥ c.cap := by
      rw [show c.list.count = _ from h.count_eq]
      omega
    exact ⟨c, by simp [Cache.evict, hcount], h, hroom, rfl, rfl⟩
  · rename_i hfull
    have hpos := h.cap_pos
    have hlen := h.length_le
    have hne : es ≠ [] := by
      rintro rfl
      exact hfull hpos
    obtain ⟨es, ⟨key, v, p⟩, rfl⟩ : ∃ es' e, es = es' ++ [e] :=
      ⟨es.dropLast, es.getLast hne, (List.dropLast_append_getLast hne).symm⟩
    rw [List.length_append, List.length_singleton] at hfull hlen
    obtain ⟨c', hevict, hmodels, hcap, hid⟩ := h.evict_full (Nat.le_of_not_lt hfull)
    rw [List.dropLast_concat]
    exact ⟨c', hevict, hmodels, hlen, hcap, hid⟩

/-- Inserting a key that is not kept puts it to the front, and a full cache loses its last entry. -/
theorem Models.insert_of_not_kept (h : c.Models es) (hout : key ∉ (c.kept es).map Prod.fst) (v : T) :
    ∃ c' p, c.insert key v = .ok c' ∧ c'.Models ((key, v, p) :: c.kept es) ∧ c'.cap = c.cap ∧
      c'.id = c.id := by
  obtain ⟨c₁, hevict, h₁, hroom, hcap, hid⟩ := h.evict
  obtain ⟨list, hinsert, hholds⟩ := LRUList.insert_spec h₁.list key
  have hsame : mapRemove c₁.map key = c₁.map := by
    rw [mapRemove_eq]
    apply Recency.without_of_not_mem
    rw [(h₁.map.map Prod.fst).mem_iff]
    exact hout
  refine ⟨{ c₁ with list := list, map := (key, v, c₁.list.fresh) :: c₁.map }, c₁.list.fresh, ?_, ?_,
    hcap, hid⟩
  · simp [Cache.insert, hevict, hinsert, hsame]
  · exact {
      cap_pos := h₁.cap_pos
      map := h₁.map.cons _
      list := hholds
      nodup := List.nodup_cons.mpr ⟨hout, h₁.nodup⟩
      length_le := by
        simp only [List.length_cons, hcap]
        exact hroom }

/-- Inserting an absent key puts it to the front, and a full cache loses its last entry. -/
theorem Models.insert (h : c.Models es) (habsent : key ∉ es.map Prod.fst) (v : T) :
    ∃ c' p, c.insert key v = .ok c' ∧ c'.Models ((key, v, p) :: c.kept es) ∧ c'.cap = c.cap ∧
      c'.id = c.id :=
  h.insert_of_not_kept (fun hmem => habsent (List.map_subset Prod.fst (c.kept_subset es) hmem)) v

theorem WellFormed.count_le (h : c.WellFormed) : c.count ≤ c.cap := by
  obtain ⟨es, hes⟩ := wellFormed_iff.mp h
  rw [hes.count_eq]
  exact hes.length_le

/-- A lookup in a consistent cache returns the entry and changes the recency order only. -/
theorem get_spec (h : c.WellFormed) (key : CacheKey) :
    ∃ list, c.get key = .ok (c.find key, { c with list := list }) ∧
      ({ c with list := list } : Cache T).WellFormed := by
  obtain ⟨es, hes⟩ := wellFormed_iff.mp h
  cases hfind : c.find key with
  | none => exact ⟨c.list, hes.get_absent (hes.find_eq_none_iff.mp hfind), h⟩
  | some v =>
      obtain ⟨p, hmem⟩ := hes.find_eq_some_iff.mp hfind
      obtain ⟨xs, ys, rfl⟩ := List.append_of_mem hmem
      obtain ⟨list, hget, hmodels⟩ := hes.get
      exact ⟨list, hget, wellFormed_iff.mpr ⟨_, hmodels⟩⟩

/-- Inserting an absent key keeps the cache consistent, and what is found afterwards was there
before or is the new entry. -/
theorem insert_spec (h : c.WellFormed) (habsent : c.find key = none) (v : T) :
    ∃ c', c.insert key v = .ok c' ∧ c'.WellFormed ∧ c'.cap = c.cap ∧ c'.id = c.id ∧
      ∀ k w, c'.find k = some w → k = key ∧ w = v ∨ c.find k = some w := by
  obtain ⟨es, hes⟩ := wellFormed_iff.mp h
  obtain ⟨c', p, hinsert, hmodels, hcap, hid⟩ := hes.insert (hes.find_eq_none_iff.mp habsent) v
  refine ⟨c', hinsert, wellFormed_iff.mpr ⟨_, hmodels⟩, hcap, hid, ?_⟩
  intro k w hfind
  obtain ⟨q, hq⟩ := hmodels.find_eq_some_iff.mp hfind
  rcases List.mem_cons.mp hq with heq | hold
  · simp only [Prod.mk.injEq] at heq
    exact Or.inl ⟨heq.1, heq.2.1⟩
  · exact Or.inr (hes.find_eq_some_iff.mpr ⟨q, c.kept_subset es hold⟩)

/-! ## The caches that can be reached -/

/-- The key that a user of the cache with the given id stores a block under. -/
def keyOf (id : CacheID) (off : Nat) : CacheKey := leBytes 8 id ++ leBytes 8 off

/-- Keys of different ids differ. -/
theorem keyOf_id_injective {id id' : CacheID} {off off' : Nat} (hid : id < wordLimit)
    (hid' : id' < wordLimit) (h : keyOf id off = keyOf id' off') : id = id' :=
  leBytes_injective hid hid' (List.append_inj h (by simp)).1

/-- Keys of different offsets differ. -/
theorem keyOf_off_injective {id id' : CacheID} {off off' : Nat} (hoff : off < wordLimit)
    (hoff' : off' < wordLimit) (h : keyOf id off = keyOf id' off') : off = off' :=
  leBytes_injective hoff hoff' (List.append_inj h (by simp)).2

/-- Every entry is stored under a key of an id the cache has given out. -/
def Issued (c : Cache T) : Prop :=
  c.id < wordLimit ∧ ∀ k, c.find k ≠ none → ∃ id off, id ≤ c.id ∧ k = keyOf id off

/-- The caches that users reach who take an id from the cache and then look blocks up and
insert those they did not find. -/
inductive Reachable : Cache T → Prop
  | new {capacity : Nat} {c : Cache T} (h : Cache.new capacity = .ok c) : Reachable c
  | newCacheId {c c' : Cache T} {id : CacheID} (hc : Reachable c)
      (h : c.newCacheId = .ok (id, c')) : Reachable c'
  | get {c c' : Cache T} {key : CacheKey} {found : Option T} (hc : Reachable c)
      (h : c.get key = .ok (found, c')) : Reachable c'
  | insert {c c' : Cache T} {id : CacheID} {off : Nat} {elem : T} (hc : Reachable c)
      (hid : id ≤ c.id) (habsent : c.find (keyOf id off) = none)
      (h : c.insert (keyOf id off) elem = .ok c') : Reachable c'

theorem newCacheId_eq_ok_iff {r : CacheID × Cache T} :
    c.newCacheId = .ok r ↔ c.id + 1 < wordLimit ∧ r = (c.id + 1, { c with id := c.id + 1 }) := by
  simp only [newCacheId, bind_eq_ok_iff, wordAdd_eq_ok_iff, pure_eq_ok, Except.ok.injEq]
  constructor
  · rintro ⟨_, ⟨hlt, rfl⟩, rfl⟩
    exact ⟨hlt, rfl⟩
  · rintro ⟨hlt, rfl⟩
    exact ⟨_, ⟨hlt, rfl⟩, rfl⟩

/-- Every reachable cache is consistent. -/
theorem Reachable.wellFormed (h : Reachable c) : c.WellFormed := by
  induction h with
  | new h => exact wellFormed_iff.mpr ⟨[], (models_new h).1⟩
  | newCacheId _ h ih =>
      obtain ⟨_, heq⟩ := newCacheId_eq_ok_iff.mp h
      obtain ⟨rfl, rfl⟩ := Prod.mk.inj heq
      exact ⟨ih.cap_pos, ih.consistent⟩
  | @get c c' key found _ h ih =>
      obtain ⟨list, hget, hwf⟩ := get_spec ih key
      rw [hget, Except.ok.injEq, Prod.mk.injEq] at h
      exact h.2 ▸ hwf
  | @insert c c' id off elem _ _ habsent h ih =>
      obtain ⟨c₁, hinsert, hwf, -⟩ := insert_spec ih habsent elem
      rw [hinsert, Except.ok.injEq] at h
      exact h ▸ hwf

/-- Every entry of a reachable cache belongs to an id the cache has given out. -/
theorem Reachable.issued (h : Reachable c) : c.Issued := by
  induction h with
  | new h =>
      simp only [Cache.new, bind_eq_ok_iff, pure_eq_ok, Except.ok.injEq] at h
      obtain ⟨_, _, rfl⟩ := h
      exact ⟨Nat.two_pow_pos 64, by simp [find]⟩
  | newCacheId _ h ih =>
      obtain ⟨hlt, heq⟩ := newCacheId_eq_ok_iff.mp h
      obtain ⟨rfl, rfl⟩ := Prod.mk.inj heq
      refine ⟨hlt, fun k hk => ?_⟩
      obtain ⟨id, off, hid, rfl⟩ := ih.2 k hk
      exact ⟨id, off, Nat.le_succ_of_le hid, rfl⟩
  | @get c c' key found hc h ih =>
      obtain ⟨list, hget, -⟩ := get_spec hc.wellFormed key
      rw [hget, Except.ok.injEq, Prod.mk.injEq] at h
      exact h.2 ▸ ih
  | @insert c c' id off elem hc hid habsent h ih =>
      obtain ⟨c₁, hinsert, -, -, hsame, hfound⟩ := insert_spec hc.wellFormed habsent elem
      rw [hinsert, Except.ok.injEq] at h
      subst h
      refine ⟨hsame ▸ ih.1, fun k hk => ?_⟩
      obtain ⟨w, hw⟩ := Option.ne_none_iff_exists'.mp hk
      rw [hsame]
      rcases hfound k w hw with ⟨rfl, -⟩ | hold
      · exact ⟨id, off, hid, rfl⟩
      · exact ih.2 k (by simp [hold])

end Cache

end SSTable
