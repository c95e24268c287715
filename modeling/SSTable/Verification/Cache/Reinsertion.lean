import SSTable.Verification.Cache.Removal

/-!
# Inserting a present key

Inserting a key that is present puts a second node for it into the recency list, while the map
replaces the entry of the first one.  Only where the cache is full and the key is the one that makes
room is the first node gone in time.

Main results:

- Theorem {lit}`Models.insert_count`: when the cache counts its keys right after an insertion.
- Theorem {lit}`reinsert_refines_recency`: runs in which present keys are inserted only where they
  make room for themselves, and keys are removed only where they are absent or alone.
-/

namespace SSTable

open Foundation Foundation.Exec Foundation.Bytes

namespace Cache

variable {T : Type} {c : Cache T} {m : Recency CacheKey T} {key : CacheKey} {v : T}
  {es : List (CacheKey × T × LRUHandle)}

/-- The key of the last node of the recency list. -/
def leastRecent (c : Cache T) : Option CacheKey :=
  (c.list.shape.prev LRUList.head).bind c.list.shape.data

theorem Models.leastRecent_eq (h : c.Models es) {e : CacheKey × T × LRUHandle}
    (he : es.getLast? = some e) : c.leastRecent = some e.1 := by
  have hlast : ((es.map nodeOf).map Prod.fst).getLast? = some e.2.2 := by
    rw [List.getLast?_map, List.getLast?_map, he]
    rfl
  have hmem : nodeOf e ∈ es.map nodeOf := List.mem_map_of_mem (List.mem_of_getLast? he)
  rw [leastRecent, h.list.linked.prev_head _ hlast]
  exact h.list.data (nodeOf e) hmem

/-- A present key makes room for itself exactly if the cache is full and the key is the least
recently used one. -/
theorem Models.not_kept_iff (h : c.Models es) (hmem : key ∈ es.map Prod.fst) :
    key ∉ (c.kept es).map Prod.fst ↔ c.cap ≤ c.count ∧ c.leastRecent = some key := by
  rw [h.count_eq, kept]
  by_cases hroom : es.length < c.cap
  · rw [if_pos hroom]
    constructor
    · exact fun hout => absurd hmem hout
    · rintro ⟨hfull, -⟩
      omega
  · rw [if_neg hroom]
    induction es using List.reverseRecOn with
    | nil => cases hmem
    | append_singleton es e _ =>
        have hnodup := h.nodup
        rw [List.map_append, List.map_singleton, List.nodup_append] at hnodup
        rw [List.dropLast_concat, h.leastRecent_eq List.getLast?_concat, Option.some.injEq]
        rw [List.map_append, List.map_singleton, List.mem_append, List.mem_singleton] at hmem
        constructor
        · intro hout
          exact ⟨not_lt.mp hroom, (hmem.resolve_left hout).symm⟩
        · rintro ⟨-, rfl⟩ hkept
          exact hnodup.2.2 _ hkept _ (List.mem_singleton_self _) rfl

/-- An insertion never fails, and the cache counts its keys right afterwards exactly if the key is
not among those that are kept. -/
theorem Models.insert_count (h : c.Models es) (key : CacheKey) (v : T) :
    ∃ c', c.insert key v = .ok c' ∧
      (c'.count = c'.map.length ↔ key ∉ (c.kept es).map Prod.fst) := by
  obtain ⟨c₁, hevict, h₁, -, -, -⟩ := h.evict
  obtain ⟨list, hinsert, hholds⟩ := LRUList.insert_spec h₁.list key
  refine ⟨{ c₁ with list := list, map := (key, v, c₁.list.fresh) :: mapRemove c₁.map key },
    by simp [Cache.insert, hevict, hinsert], ?_⟩
  have hcount : list.count = c₁.map.length + 1 := by
    have hlen := hholds.count
    rw [LRUList.shape_count, List.length_cons, List.length_map] at hlen
    rw [hlen, h₁.map.length_eq]
  rw [Cache.count, hcount, List.length_cons, mapRemove_eq, Nat.add_right_cancel_iff,
    ← (h₁.map.map Prod.fst).mem_iff, eq_comm, Recency.without, List.length_filter_eq_length_iff]
  constructor
  · intro hall hmem
    obtain ⟨e, he, rfl⟩ := List.mem_map.mp hmem
    simpa using hall e he
  · intro hout e he
    rw [bne_iff_ne]
    rintro rfl
    exact hout (List.mem_map_of_mem he)

/-! ## Runs with replacements -/

/-- A key is inserted only where it is absent, or where the cache is full and the key is the least
recently used one, and a key is removed only where it is absent or alone. -/
def Replaceable (c : Cache T) : Recency.Change CacheKey T → Prop
  | .use (.get _) => True
  | .use (.insert key _) => c.find key = none ∨ (c.cap ≤ c.count ∧ c.leastRecent = some key)
  | .remove key => c.find key = none ∨ c.count = 1

/-- What the cache keeps without a key is what the abstract map keeps without it. -/
theorem Simulates.not_kept_iff (h : c.Simulates m) (hfind : m.find key = some v) :
    key ∉ m.kept.map Prod.fst ↔ c.cap ≤ c.count ∧ c.leastRecent = some key := by
  obtain ⟨hcap, es, hes, hentries⟩ := h
  have hmem : key ∈ es.map Prod.fst := by
    rw [keys_of_entries hentries, Recency.keys]
    exact List.mem_map_of_mem (Recency.find_eq_some_iff.mp hfind)
  rw [← hes.not_kept_iff hmem, ← kept_map_entryOf hcap hentries, List.map_map]
  rfl

/-- One operation shows the same on both sides and keeps them together. -/
theorem Simulates.change_replaceable (h : c.Simulates m) {u : Recency.Change CacheKey T}
    (hu : c.Replaceable u) :
    ∃ c', c.change u = .ok ((m.change u).1, c') ∧ c'.Simulates (m.change u).2 := by
  cases u with
  | remove key => exact h.remove key hu
  | use u =>
      cases u with
      | get key => exact h.get key
      | insert key v =>
          have hout : key ∉ m.kept.map Prod.fst := by
            cases hfind : m.find key with
            | none =>
                rw [Recency.find_eq_none_iff] at hfind
                exact fun hkept => hfind ((m.kept_sublist.map Prod.fst).subset hkept)
            | some w =>
                apply (h.not_kept_iff hfind).mpr
                rcases hu with habsent | hlast
                · rw [h.find_eq key, hfind] at habsent
                  cases habsent
                · exact hlast
          obtain ⟨c', hinsert, hsim⟩ := h.insert_of_not_kept hout v
          exact ⟨c', by simp [Cache.change, Cache.step, hinsert, Recency.change, Recency.step], hsim⟩

/-- A present key can be inserted exactly if it makes room for itself. -/
theorem Simulates.reinsert_iff (h : c.Simulates m) (hfind : m.find key = some v) (w : T) :
    (∃ c', c.insert key w = .ok c' ∧ c'.count = c'.map.length) ↔
      c.cap ≤ c.count ∧ c.leastRecent = some key := by
  rw [← h.not_kept_iff hfind]
  obtain ⟨hcap, es, hes, hentries⟩ := h
  obtain ⟨c', hinsert, hcount⟩ := hes.insert_count key w
  have hkept : key ∉ (c.kept es).map Prod.fst ↔ key ∉ m.kept.map Prod.fst := by
    rw [← kept_map_entryOf hcap hentries, List.map_map]
    rfl
  rw [← hkept, ← hcount]
  constructor
  · rintro ⟨c'', hinsert', heq⟩
    rw [hinsert, Except.ok.injEq] at hinsert'
    rwa [hinsert']
  · intro heq
    exact ⟨c', hinsert, heq⟩

end Cache

/-- Every run of lookups, insertions and removals in which present keys are inserted only where they
make room for themselves, and keys are removed only where they are absent or alone, shows what the
abstract map shows, on a cache of any capacity.  What is found under a key was inserted last under it
and not removed since, and the cache counts its keys.  From the cache that is reached, a present key
can be inserted in this way only, and then no other key is lost. -/
theorem reinsert_refines_recency {T : Type} (capacity : Nat) (hcap : 0 < capacity)
    (us : List (Recency.Change CacheKey T))
    (hlegal : ∀ c, Cache.new capacity = .ok c → Legal Cache.change Cache.Replaceable c us) :
    ∃ c₀ c shown m ps, Cache.new capacity = .ok c₀ ∧
      runOps Cache.change c₀ us = .ok (shown, c) ∧
      traceOps Recency.change (Recency.empty capacity hcap) us = (shown, m) ∧
      c.Represents m ps ∧
      c.count = c.map.length ∧
      (∀ key v, m.find key = some v → Recency.lastChanged us key = some v) ∧
      ∀ key v w, m.find key = some v →
        ((∃ c', c.insert key w = .ok c' ∧ c'.count = c'.map.length) ↔
          c.cap ≤ c.count ∧ c.leastRecent = some key) ∧
        (c.cap ≤ c.count → c.leastRecent = some key →
          (m.insert key w).keys = key :: m.keys.filter fun key' => key' != key) := by
  obtain ⟨c₀, hnew, hempty⟩ := Cache.exists_new (T := T) hcap
  obtain ⟨c, hrun, hsim⟩ := runOps_simulates (f := Cache.change) (g := Recency.change)
    Cache.Simulates (fun _ _ _ h hu => h.change_replaceable hu) hempty (hlegal c₀ hnew)
  obtain ⟨ps, hps⟩ := hsim.represents
  refine ⟨c₀, c, _, _, ps, hnew, hrun, rfl, hps, ?_, fun key v => Recency.lastChanged_of_find_run,
    fun key v w hfind => ⟨hsim.reinsert_iff hfind w, fun hfull hlast => ?_⟩⟩
  · rw [hps.count, ← hps.entries.length_eq, List.length_map]
  · have hmem := List.mem_map_of_mem (f := Prod.fst) (Recency.find_eq_some_iff.mp hfind)
    exact Recency.keys_insert_of_not_kept hmem ((hsim.not_kept_iff hfind).mpr ⟨hfull, hlast⟩) w

/-- In a cache for one element, a key makes room for itself, before and after its removal. -/
theorem reinsert_refines_recency_one_element :
    ∃ c₀ c m ps, Cache.new 1 = .ok c₀ ∧
      runOps Cache.change c₀ [.use (.insert [1] true), .use (.insert [1] false), .remove [1],
        .use (.insert [1] true), .use (.get [1])] =
          .ok ([none, none, some false, none, some true], c) ∧
      c.Represents m ps ∧ m.keys = [[1]] := by
  obtain ⟨c₀, c, shown, m, ps, hnew, hrun, htrace, hrepresents, -⟩ :=
    reinsert_refines_recency 1 (by decide) [.use (.insert [1] true), .use (.insert [1] false),
      .remove [1], .use (.insert [1] true), .use (.get [1])] (by
      intro c hc
      obtain rfl := Except.ok.inj hc
      refine ⟨Or.inl rfl, fun _ _ h₁ => ?_⟩
      obtain ⟨rfl, rfl⟩ := Prod.mk.inj (Except.ok.inj h₁)
      refine ⟨Or.inr ⟨le_rfl, rfl⟩, fun _ _ h₂ => ?_⟩
      obtain ⟨rfl, rfl⟩ := Prod.mk.inj (Except.ok.inj h₂)
      refine ⟨Or.inr rfl, fun _ _ h₃ => ?_⟩
      obtain ⟨rfl, rfl⟩ := Prod.mk.inj (Except.ok.inj h₃)
      exact ⟨Or.inl rfl, fun _ _ _ => ⟨trivial, fun _ _ _ => trivial⟩⟩)
  obtain ⟨rfl, rfl⟩ := Prod.mk.inj htrace
  exact ⟨c₀, c, _, ps, hnew, hrun, hrepresents, rfl⟩

/-- A cache for two elements counts one key twice, and two further keys make it stop at an
assertion. -/
theorem reinsertion_stops : ∃ c₀ c : Cache Bool, Cache.new 2 = .ok c₀ ∧
    runOps Cache.step c₀ [.insert [1] true, .insert [1] false] = .ok ([none, none], c) ∧
    c.count = 2 ∧ c.map.length = 1 ∧
    runOps Cache.step c [.insert [2] true, .insert [3] true] = .error .assertion :=
  ⟨_, _, rfl, rfl, rfl, rfl, rfl⟩

end SSTable
