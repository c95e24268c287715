import SSTable.Verification.Cache.Map

/-!
# The cache refines a bounded map in the order of use

The abstract cache is a map of bounded size that forgets the key that was used the longest time
ago.  The nodes of the recency list, followed forward from the head or back from its last node,
carry the keys of that map in the order of use.

Main results:

- Theorem {lit}`Simulates.step`: one operation keeps the cache and the abstract map together.
- Theorem {lit}`cache_refines_recency`: so does every run, from the empty cache on.
-/

namespace SSTable

open Foundation Foundation.Exec Foundation.Bytes

namespace Cache

variable {T : Type}

/-- An operation on the cache; a lookup shows what it finds. -/
def step (c : Cache T) : Recency.Use CacheKey T → Exec (Option T × Cache T)
  | .get key => c.get key
  | .insert key elem => do
      let c ← c.insert key elem
      pure (none, c)

/-- Only keys that are not present are inserted. -/
def Allowed (c : Cache T) : Recency.Use CacheKey T → Prop
  | .get _ => True
  | .insert key _ => c.find key = none

/-- A cache stands for an abstract map: its nodes carry the keys of the map in the order of use,
and its own map leads from each of them to the element and to the node. -/
structure Represents (c : Cache T) (m : Recency CacheKey T) (ps : List LRUHandle) : Prop where
  cap : c.cap = m.cap
  forward : Walk c.list.shape.next none (c.list.shape.next LRUList.head) ps
  backward : ps ≠ [] →
    Walk c.list.shape.prev (some LRUList.head) (c.list.shape.prev LRUList.head) ps.reverse
  nodup : (LRUList.head :: ps).Nodup
  keys : ps.map c.list.shape.data = m.keys.map some
  entries : (c.map.map fun e => (e.1, e.2.1)).Perm m.entries
  own : ∀ e ∈ c.map, e.2.2 ∈ ps ∧ c.list.shape.data e.2.2 = some e.1
  count : c.count = m.entries.length

/-- The key and the element of a map entry. -/
def entryOf (e : CacheKey × T × LRUHandle) : CacheKey × T := (e.1, e.2.1)

/-- The entries of the cache in the order of use are those of the abstract map. -/
def Simulates (c : Cache T) (m : Recency CacheKey T) : Prop :=
  c.cap = m.cap ∧ ∃ es, c.Models es ∧ es.map entryOf = m.entries

variable {c c' : Cache T} {m : Recency CacheKey T} {es : List (CacheKey × T × LRUHandle)}

theorem keys_of_entries (h : es.map entryOf = m.entries) : es.map Prod.fst = m.keys := by
  rw [Recency.keys, ← h, List.map_map]
  rfl

theorem Simulates.represents (h : c.Simulates m) : ∃ ps, c.Represents m ps := by
  obtain ⟨hcap, es, hes, hentries⟩ := h
  have hlinked := hes.list.linked
  have hkeys := keys_of_entries hentries
  refine ⟨(es.map nodeOf).map Prod.fst, ?_⟩
  exact {
    cap := hcap
    forward := hlinked.walk_next
    backward := hlinked.walk_prev
    nodup := hlinked.nodup
    keys := by
      rw [← hkeys, List.map_map, List.map_map, List.map_map]
      apply List.map_congr_left
      intro e he
      exact hes.list.data (nodeOf e) (List.mem_map_of_mem he)
    entries := by
      rw [← hentries]
      exact hes.map.map entryOf
    own := by
      intro e he
      have hnode : nodeOf e ∈ es.map nodeOf := List.mem_map_of_mem (hes.map.subset he)
      exact ⟨List.mem_map_of_mem hnode, hes.list.data (nodeOf e) hnode⟩
    count := by
      rw [hes.count_eq, ← hentries, List.length_map] }

/-! ## One operation -/

theorem Simulates.find_eq (h : c.Simulates m) (key : CacheKey) : c.find key = m.find key := by
  obtain ⟨-, es, hes, hentries⟩ := h
  apply Option.ext
  intro v
  rw [hes.find_eq_some_iff, Recency.find_eq_some_iff, ← hentries, List.mem_map]
  constructor
  · rintro ⟨p, hp⟩
    exact ⟨_, hp, rfl⟩
  · rintro ⟨⟨k, w, p⟩, he, heq⟩
    obtain ⟨rfl, rfl⟩ := Prod.mk.inj heq
    exact ⟨p, he⟩

/-- A lookup shows what the abstract map holds, and uses the key. -/
theorem Simulates.get (h : c.Simulates m) (key : CacheKey) :
    ∃ c', c.get key = .ok (m.find key, c') ∧ c'.Simulates (m.touch key) := by
  have hfound := h.find_eq key
  obtain ⟨hcap, es, hes, hentries⟩ := h
  cases hfind : m.find key with
  | none =>
      have habsent : key ∉ es.map Prod.fst := by
        rw [← hes.find_eq_none_iff, hfound, hfind]
      rw [Recency.touch_of_none hfind]
      exact ⟨c, hes.get_absent habsent, hcap, es, hes, hentries⟩
  | some v =>
      rw [hfind] at hfound
      obtain ⟨p, hmem⟩ := hes.find_eq_some_iff.mp hfound
      obtain ⟨xs, ys, rfl⟩ := List.append_of_mem hmem
      obtain ⟨list, hget, hmodels⟩ := hes.get
      refine ⟨_, hget, ?_, _, hmodels, ?_⟩
      · rw [Recency.cap_touch]
        exact hcap
      · have hnodup : ((xs.map entryOf ++ (key, v) :: ys.map entryOf).map Prod.fst).Nodup := by
          have hkeys := m.nodup
          rw [← hentries, List.map_append] at hkeys
          exact hkeys
        rw [Recency.entries_touch_of_some hfind, ← hentries, List.map_append, List.map_cons,
          List.map_cons, List.map_append]
        exact congrArg (List.cons (key, v)) (Recency.without_middle hnodup).symm

/-- The entries that are kept are those that the abstract map keeps. -/
theorem kept_map_entryOf (hcap : c.cap = m.cap) (hentries : es.map entryOf = m.entries) :
    (c.kept es).map entryOf = m.kept := by
  unfold Cache.kept Recency.kept
  rw [← hentries, List.length_map, hcap]
  split
  · rfl
  · exact List.map_dropLast

/-- Inserting a key that is not kept does to the entries what it does to the abstract map. -/
theorem Simulates.insert_of_not_kept (h : c.Simulates m) {key : CacheKey}
    (hout : key ∉ m.kept.map Prod.fst) (v : T) :
    ∃ c', c.insert key v = .ok c' ∧ c'.Simulates (m.insert key v) := by
  obtain ⟨hcap, es, hes, hentries⟩ := h
  have hkept := kept_map_entryOf hcap hentries
  have hkeys : (c.kept es).map Prod.fst = m.kept.map Prod.fst := by
    rw [← hkept, List.map_map]
    rfl
  obtain ⟨c', p, hinsert, hmodels, hcap', -⟩ := hes.insert_of_not_kept (hkeys ▸ hout) v
  refine ⟨c', hinsert, hcap'.trans hcap, _, hmodels, ?_⟩
  rw [List.map_cons, hkept]
  exact congrArg (List.cons (key, v)) (Recency.without_of_not_mem hout).symm

/-- Inserting an absent key does to the entries what it does to the abstract map. -/
theorem Simulates.insert (h : c.Simulates m) {key : CacheKey} (habsent : c.find key = none) (v : T) :
    ∃ c', c.insert key v = .ok c' ∧ c'.Simulates (m.insert key v) := by
  apply h.insert_of_not_kept
  have hnone : key ∉ m.keys := by
    rw [← Recency.find_eq_none_iff, ← h.find_eq key, habsent]
  exact fun hmem => hnone ((m.kept_sublist.map Prod.fst).subset hmem)

/-- One operation shows the same on both sides and keeps them together. -/
theorem Simulates.step (h : c.Simulates m) {u : Recency.Use CacheKey T} (hu : c.Allowed u) :
    ∃ c', c.step u = .ok ((m.step u).1, c') ∧ c'.Simulates (m.step u).2 := by
  cases u with
  | get key => exact h.get key
  | insert key v =>
      obtain ⟨c', hinsert, hsim⟩ := h.insert hu v
      exact ⟨c', by simp [Cache.step, hinsert, Recency.step], hsim⟩

theorem exists_new {capacity : Nat} (hcap : 0 < capacity) :
    ∃ c : Cache T, Cache.new capacity = .ok c ∧ c.Simulates (Recency.empty capacity hcap) := by
  have hnew : Cache.new capacity =
      .ok ({ list := LRUList.new, map := [], cap := capacity, id := 0 } : Cache T) := by
    simp [Cache.new, ensure_of_true, hcap]
  obtain ⟨hmodels, hsame, -⟩ := models_new hnew
  exact ⟨_, hnew, hsame, [], hmodels, rfl⟩

end Cache

/-! ## Whole runs -/

/-- Every run of lookups and of insertions of absent keys, on a cache of any capacity, shows what
the abstract map shows.  The map holds the keys in the order of their last use, each with what was
inserted last under it, and a further insertion into a full map loses its least recently used key
and no other. -/
theorem cache_refines_recency {T : Type} (capacity : Nat) (hcap : 0 < capacity)
    (us : List (Recency.Use CacheKey T))
    (hlegal : ∀ c, Cache.new capacity = .ok c → Legal Cache.step Cache.Allowed c us) :
    ∃ c₀ c shown m ps, Cache.new capacity = .ok c₀ ∧
      runOps Cache.step c₀ us = .ok (shown, c) ∧
      traceOps Recency.step (Recency.empty capacity hcap) us = (shown, m) ∧
      c.Represents m ps ∧
      c.count ≤ capacity ∧
      m.keys.Sublist (Recency.order us) ∧
      (∀ key v, m.find key = some v → Recency.lastInserted us key = some v) ∧
      ∀ key v, key ∉ m.keys → (m.insert key v).keys =
        key :: if c.count < capacity then m.keys else m.keys.dropLast := by
  obtain ⟨c₀, hnew, hempty⟩ := Cache.exists_new (T := T) hcap
  obtain ⟨c, hrun, hsim⟩ := runOps_simulates (f := Cache.step) (g := Recency.step) Cache.Simulates
    (fun _ _ _ h hu => h.step hu) hempty (hlegal c₀ hnew)
  obtain ⟨ps, hps⟩ := hsim.represents
  have hbound : (traceOps Recency.step (Recency.empty capacity hcap) us).2.cap = capacity :=
    Recency.cap_run _ us
  refine ⟨c₀, c, _, _, ps, hnew, hrun, rfl, hps, ?_, Recency.keys_run_sublist capacity hcap us,
    fun key v => Recency.lastInserted_of_find_run, ?_⟩
  · rw [hps.count]
    exact (Recency.length_le _).trans_eq hbound
  · intro key v habsent
    rw [Recency.keys_insert habsent, hps.count, Recency.keys, List.length_map, hbound]

/-- A cache for two elements loses the second of three keys if the first one has been looked up. -/
theorem cache_refines_recency_two_elements :
    ∃ c₀ c m ps, Cache.new 2 = .ok c₀ ∧
      runOps Cache.step c₀ [.insert [1] true, .insert [2] false, .get [1], .insert [3] true, .get [2],
        .get [1]] = .ok ([none, none, some true, none, none, some true], c) ∧
      c.Represents m ps ∧ m.keys = [[1], [3]] := by
  obtain ⟨c₀, c, shown, m, ps, hnew, hrun, htrace, hrepresents, -⟩ :=
    cache_refines_recency 2 (by decide) [.insert [1] true, .insert [2] false, .get [1],
      .insert [3] true, .get [2], .get [1]] (by
        intro c hc
        obtain rfl := Except.ok.inj hc
        refine ⟨rfl, fun _ _ h₁ => ?_⟩
        obtain ⟨rfl, rfl⟩ := Prod.mk.inj (Except.ok.inj h₁)
        refine ⟨rfl, fun _ _ h₂ => ?_⟩
        obtain ⟨rfl, rfl⟩ := Prod.mk.inj (Except.ok.inj h₂)
        refine ⟨trivial, fun _ _ h₃ => ?_⟩
        obtain ⟨rfl, rfl⟩ := Prod.mk.inj (Except.ok.inj h₃)
        exact ⟨rfl, fun _ _ _ => ⟨trivial, fun _ _ _ => ⟨trivial, fun _ _ _ => trivial⟩⟩⟩)
  obtain ⟨rfl, rfl⟩ := Prod.mk.inj htrace
  exact ⟨c₀, c, _, ps, hnew, hrun, hrepresents, rfl⟩

end SSTable
