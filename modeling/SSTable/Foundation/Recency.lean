import Mathlib.Data.Finset.Card
import Mathlib.Data.Finset.Dedup
import Mathlib.Data.List.Nodup
import Mathlib.Data.List.Perm.Basic
import Mathlib.Data.List.Induction
import Mathlib.Order.Basic
import SSTable.Foundation.Simulation

/-!
# Maps of bounded size in the order of use

A map that holds a bounded number of entries and, when it is full, forgets the entry whose key has
not been used for the longest time.  Looking a key up uses it, and so does inserting it.

Main results:

- Theorem {lit}`keys_insert`: an insertion loses the least recently used key of a full map, and
  no other.
- Theorem {lit}`keys_run_sublist`: the keys of a map stand in the order of their last use.
- Theorem {lit}`lastInserted_of_find_run`: what is found under a key was inserted last under it.
- Theorem {lit}`lastChanged_of_find_run`: where keys are also removed, it was not removed since.
- Theorem {lit}`keys_fetch_of_recent`: a map that is only read through holds the keys that were read
  last.
-/

namespace Foundation

/-- The entries of a map, the most recently used one first. -/
structure Recency (κ α : Type) where
  cap : Nat
  entries : List (κ × α)
  cap_pos : 0 < cap
  nodup : (entries.map Prod.fst).Nodup
  length_le : entries.length ≤ cap

namespace Recency

variable {κ α : Type}

/-- A map without entries. -/
def empty (cap : Nat) (hcap : 0 < cap) : Recency κ α where
  cap := cap
  entries := []
  cap_pos := hcap
  nodup := List.nodup_nil
  length_le := Nat.zero_le cap

/-- The keys in the order of use. -/
def keys (m : Recency κ α) : List κ := m.entries.map Prod.fst

/-- The entries that are left when there is to be room for one more. -/
def kept (m : Recency κ α) : List (κ × α) :=
  if m.entries.length < m.cap then m.entries else m.entries.dropLast

theorem kept_sublist (m : Recency κ α) : m.kept.Sublist m.entries := by
  unfold kept
  split
  · exact List.Sublist.refl _
  · exact List.dropLast_sublist _

theorem kept_length_lt (m : Recency κ α) : m.kept.length < m.cap := by
  have hle := m.length_le
  have hpos := m.cap_pos
  unfold kept
  split
  · assumption
  · rw [List.length_dropLast]
    omega

variable [BEq κ]

/-! ## Entries without a key -/

/-- Without a key, the other entries keep their order. -/
def without (k : κ) (es : List (κ × α)) : List (κ × α) := es.filter fun e => e.1 != k

theorem keys_without (k : κ) (es : List (κ × α)) :
    (without k es).map Prod.fst = (es.map Prod.fst).filter fun k' => k' != k := by
  rw [List.filter_map]
  rfl

variable [LawfulBEq κ]

theorem not_mem_without (k : κ) (es : List (κ × α)) : k ∉ (without k es).map Prod.fst := by
  simp [without]

theorem without_of_not_mem {k : κ} {es : List (κ × α)} (h : k ∉ es.map Prod.fst) :
    without k es = es := by
  apply List.filter_eq_self.mpr
  intro e he
  rw [bne_iff_ne]
  rintro rfl
  exact h (List.mem_map_of_mem he)

/-- Taking out the only entry with its key. -/
theorem without_middle {k : κ} {v : α} {xs ys : List (κ × α)}
    (h : ((xs ++ (k, v) :: ys).map Prod.fst).Nodup) : without k (xs ++ (k, v) :: ys) = xs ++ ys := by
  have hperm : (xs ++ (k, v) :: ys).Perm ((k, v) :: (xs ++ ys)) := List.perm_middle
  have hcons := (hperm.map Prod.fst).nodup_iff.mp h
  rw [List.map_cons, List.nodup_cons] at hcons
  have hrest := without_of_not_mem hcons.1
  rw [without, List.filter_append] at hrest ⊢
  rw [List.filter_cons_of_neg (by simp)]
  exact hrest

theorem lookup_eq_none_iff_not_mem {k : κ} {es : List (κ × α)} :
    es.lookup k = none ↔ k ∉ es.map Prod.fst := by
  rw [List.lookup_eq_none_iff]
  constructor
  · intro h hmem
    obtain ⟨e, he, rfl⟩ := List.mem_map.mp hmem
    have hne := h e he
    simp at hne
  · intro h e he
    rw [bne_iff_ne]
    rintro rfl
    exact h (List.mem_map_of_mem he)

/-- In a map, an entry is what is found under its key. -/
theorem lookup_eq_some_iff_mem {k : κ} {v : α} {es : List (κ × α)}
    (h : (es.map Prod.fst).Nodup) : es.lookup k = some v ↔ (k, v) ∈ es := by
  induction es with
  | nil => simp
  | cons e es ih =>
      obtain ⟨key, w⟩ := e
      rw [List.map_cons, List.nodup_cons] at h
      rw [List.lookup_cons, List.mem_cons, Prod.mk.injEq]
      by_cases hk : k = key
      · subst hk
        have hout : (k, v) ∉ es := fun hmem => h.1 (List.mem_map.mpr ⟨(k, v), hmem, rfl⟩)
        simp [hout, eq_comm]
      · rw [beq_eq_false_iff_ne.mpr hk]
        simp [hk, ih h.2]

/-! ## Looking up and inserting -/

/-- The element under a key. -/
def find (m : Recency κ α) (k : κ) : Option α := m.entries.lookup k

theorem find_eq_some_iff {m : Recency κ α} {k : κ} {v : α} : m.find k = some v ↔ (k, v) ∈ m.entries :=
  lookup_eq_some_iff_mem m.nodup

theorem find_eq_none_iff {m : Recency κ α} {k : κ} : m.find k = none ↔ k ∉ m.keys :=
  lookup_eq_none_iff_not_mem

/-- A new entry goes to the front; it takes the place of one with its key. -/
def push (m : Recency κ α) (k : κ) (v : α) (es : List (κ × α)) (hsub : es.Sublist m.entries)
    (hlt : (without k es).length < m.cap) : Recency κ α where
  cap := m.cap
  entries := (k, v) :: without k es
  cap_pos := m.cap_pos
  nodup := by
    rw [List.map_cons, List.nodup_cons]
    exact ⟨not_mem_without k es,
      (List.filter_sublist.map Prod.fst).nodup ((hsub.map Prod.fst).nodup m.nodup)⟩
  length_le := Nat.succ_le_of_lt hlt

theorem length_without_lt {m : Recency κ α} {k : κ} {v : α} (h : m.find k = some v) :
    (without k m.entries).length < m.cap := by
  refine Nat.lt_of_lt_of_le ?_ m.length_le
  exact List.length_filter_lt_length_iff_exists.mpr ⟨(k, v), find_eq_some_iff.mp h, by simp⟩

/-- A key that is used moves to the front. -/
def touch (m : Recency κ α) (k : κ) : Recency κ α :=
  match h : m.find k with
  | none => m
  | some v => m.push k v m.entries (List.Sublist.refl _) (length_without_lt h)

/-- A new entry goes to the front, and the last one makes room for it if the map is full. -/
def insert (m : Recency κ α) (k : κ) (v : α) : Recency κ α :=
  m.push k v m.kept m.kept_sublist (Nat.lt_of_le_of_lt (List.length_filter_le _ _) m.kept_length_lt)

theorem touch_of_none {m : Recency κ α} {k : κ} (h : m.find k = none) : m.touch k = m := by
  unfold touch
  split
  · rfl
  · rename_i hsome
    rw [h] at hsome
    cases hsome

theorem entries_touch_of_some {m : Recency κ α} {k : κ} {v : α} (h : m.find k = some v) :
    (m.touch k).entries = (k, v) :: without k m.entries := by
  unfold touch
  split
  · rename_i hnone
    rw [h] at hnone
    cases hnone
  · rename_i w hsome
    obtain rfl : v = w := Option.some.inj (h.symm.trans hsome)
    rfl

@[simp] theorem cap_touch (m : Recency κ α) (k : κ) : (m.touch k).cap = m.cap := by
  unfold touch
  split
  · rfl
  · rfl

@[simp] theorem cap_insert (m : Recency κ α) (k : κ) (v : α) : (m.insert k v).cap = m.cap := rfl

/-- Inserting a new key into a full map loses the least recently used key, and no other. -/
theorem keys_insert {m : Recency κ α} {k : κ} (h : k ∉ m.keys) (v : α) :
    (m.insert k v).keys = k :: if m.keys.length < m.cap then m.keys else m.keys.dropLast := by
  have hout : k ∉ m.kept.map Prod.fst := fun hmem => h ((m.kept_sublist.map Prod.fst).subset hmem)
  have hkeys : m.kept.map Prod.fst =
      if m.keys.length < m.cap then m.keys else m.keys.dropLast := by
    rw [kept, keys, List.length_map]
    split
    · rfl
    · exact List.map_dropLast
  rw [← hkeys]
  simp only [insert, push, keys, List.map_cons, without_of_not_mem hout]

/-- A key that makes room for itself loses no other key. -/
theorem keys_insert_of_not_kept {m : Recency κ α} {k : κ} (hk : k ∈ m.keys)
    (hout : k ∉ m.kept.map Prod.fst) (v : α) :
    (m.insert k v).keys = k :: m.keys.filter fun k' => k' != k := by
  have hkeys : (m.insert k v).keys = k :: m.kept.map Prod.fst := by
    simp only [insert, push, keys, List.map_cons, without_of_not_mem hout]
  rw [hkeys, List.cons_inj_right, keys, ← keys_without]
  unfold kept at hout ⊢
  by_cases hroom : m.entries.length < m.cap
  · rw [if_pos hroom] at hout
    exact absurd hk hout
  · rw [if_neg hroom] at hout ⊢
    have hne : m.entries ≠ [] := by
      rintro hnil
      simp [keys, hnil] at hk
    obtain ⟨es, e, heq⟩ : ∃ es e, m.entries = es ++ [e] :=
      ⟨_, _, (List.dropLast_append_getLast hne).symm⟩
    rw [keys, heq, List.map_append, List.mem_append, List.map_singleton, List.mem_singleton] at hk
    rw [heq, List.dropLast_concat] at hout ⊢
    obtain rfl := hk.resolve_left hout
    have hrest := without_of_not_mem hout
    rw [without] at hrest ⊢
    rw [List.filter_append, hrest, List.filter_cons_of_neg (by simp), List.filter_nil,
      List.append_nil]

theorem mem_entries_insert {m : Recency κ α} {k k' : κ} {v w : α}
    (h : (k', w) ∈ (m.insert k v).entries) : k' = k ∧ w = v ∨ (k', w) ∈ m.entries := by
  rcases List.mem_cons.mp h with heq | hmem
  · exact Or.inl (Prod.mk.inj heq)
  · exact Or.inr (m.kept_sublist.subset (List.mem_of_mem_filter hmem))

/-- Using a key loses no entry. -/
theorem mem_entries_touch {m : Recency κ α} {k k' : κ} {w : α} :
    (k', w) ∈ (m.touch k).entries ↔ (k', w) ∈ m.entries := by
  cases hfind : m.find k with
  | none => rw [touch_of_none hfind]
  | some v =>
      have hmem : (k, v) ∈ m.entries := find_eq_some_iff.mp hfind
      rw [entries_touch_of_some hfind, List.mem_cons, without, List.mem_filter, bne_iff_ne]
      by_cases hk : k' = k
      · subst hk
        have hsame : (k', w) ∈ m.entries ↔ v = w := by
          rw [← find_eq_some_iff, hfind, Option.some.injEq]
        simp [hsame, eq_comm]
      · simp [hk]

/-! ## Forgetting a key -/

/-- The map without a key. -/
def remove (m : Recency κ α) (k : κ) : Recency κ α where
  cap := m.cap
  entries := without k m.entries
  cap_pos := m.cap_pos
  nodup := (List.filter_sublist.map Prod.fst).nodup m.nodup
  length_le := Nat.le_trans (List.length_filter_le _ _) m.length_le

omit [LawfulBEq κ] in
@[simp] theorem entries_remove (m : Recency κ α) (k : κ) :
    (m.remove k).entries = without k m.entries := rfl

theorem remove_of_none {m : Recency κ α} {k : κ} (h : m.find k = none) : m.remove k = m := by
  obtain ⟨cap, entries, _, _, _⟩ := m
  have hsame : without k entries = entries := without_of_not_mem (lookup_eq_none_iff_not_mem.mp h)
  simp only [remove, hsame]

/-! ## Runs -/

/-- What a user does with a map. -/
inductive Use (κ α : Type)
  | get (k : κ)
  | insert (k : κ) (v : α)

/-- The key that is used. -/
def Use.key : Use κ α → κ
  | .get k => k
  | .insert k _ => k

/-- Use a map; a lookup shows what it finds. -/
def step (m : Recency κ α) : Use κ α → Option α × Recency κ α
  | .get k => (m.find k, m.touch k)
  | .insert k v => (none, m.insert k v)

/-- What a user does with a map that can also be told to forget a key. -/
inductive Change (κ α : Type)
  | use (u : Use κ α)
  | remove (k : κ)

/-- Change a map; removing a key shows what was found under it. -/
def change (m : Recency κ α) : Change κ α → Option α × Recency κ α
  | .use u => m.step u
  | .remove k => (m.find k, m.remove k)

theorem cap_step (m : Recency κ α) (u : Use κ α) : (m.step u).2.cap = m.cap := by
  cases u with
  | get k => exact cap_touch m k
  | insert k v => rfl

/-- The bound stays. -/
theorem cap_run (m : Recency κ α) (us : List (Use κ α)) : (traceOps step m us).2.cap = m.cap := by
  induction us generalizing m with
  | nil => rfl
  | cons u us ih => exact (ih _).trans (cap_step m u)

/-- A key that is used becomes the most recent one. -/
def mostRecent (ks : List κ) (k : κ) : List κ := k :: ks.filter fun k' => k' != k

/-- The keys that have been used, the last used one first. -/
def order (us : List (Use κ α)) : List κ := (us.map Use.key).foldl mostRecent []

/-- An insertion replaces what was inserted before under its key. -/
def written (f : κ → Option α) : Use κ α → κ → Option α
  | .get _ => f
  | .insert k v => fun k' => if k' == k then some v else f k'

/-- What was inserted last under a key. -/
def lastInserted (us : List (Use κ α)) : κ → Option α := us.foldl written fun _ => none

/-- A removal forgets what was inserted before under its key. -/
def rewritten (f : κ → Option α) : Change κ α → κ → Option α
  | .use u => written f u
  | .remove k => fun k' => if k' == k then none else f k'

/-- What was inserted last under a key, unless the key was removed since. -/
def lastChanged (us : List (Change κ α)) : κ → Option α := us.foldl rewritten fun _ => none

theorem keys_step_sublist {m : Recency κ α} {ks : List κ} (h : m.keys.Sublist ks) (u : Use κ α) :
    (m.step u).2.keys.Sublist (mostRecent ks u.key) := by
  cases u with
  | get k =>
      change (m.touch k).keys.Sublist (mostRecent ks k)
      cases hfind : m.find k with
      | none =>
          rw [touch_of_none hfind]
          have hout : k ∉ m.keys := find_eq_none_iff.mp hfind
          have hsame : (m.keys.filter fun k' => k' != k) = m.keys := by
            rw [keys, ← keys_without, without_of_not_mem hout]
          exact (hsame ▸ h.filter _).cons k
      | some v =>
          rw [keys, entries_touch_of_some hfind, List.map_cons, keys_without]
          exact (h.filter _).cons_cons k
  | insert k v =>
      change ((k, v) :: without k m.kept).map Prod.fst |>.Sublist (mostRecent ks k)
      rw [List.map_cons, keys_without]
      exact (((m.kept_sublist.map Prod.fst).trans h).filter _).cons_cons k

/-- The keys of a map stand in the order of their last use. -/
theorem keys_run_sublist (cap : Nat) (hcap : 0 < cap) (us : List (Use κ α)) :
    (traceOps step (empty cap hcap) us).2.keys.Sublist (order us) := by
  have hempty : (empty cap hcap : Recency κ α).keys.Sublist [] := List.Sublist.refl []
  rw [order, List.foldl_map]
  exact traceOps_foldl (R := fun (m : Recency κ α) ks => m.keys.Sublist ks)
    (fun _ _ u hm => keys_step_sublist hm u) hempty us

theorem written_step {m : Recency κ α} {f : κ → Option α}
    (h : ∀ k v, (k, v) ∈ m.entries → f k = some v) (u : Use κ α) :
    ∀ k v, (k, v) ∈ (m.step u).2.entries → written f u k = some v := by
  intro k v hmem
  cases u with
  | get key => exact h k v (mem_entries_touch.mp hmem)
  | insert key w =>
      unfold written
      rcases mem_entries_insert hmem with ⟨rfl, rfl⟩ | hold
      · simp
      · by_cases hk : k = key
        · subst hk
          have hnew : (m.insert k w).find k = some w :=
            find_eq_some_iff.mpr (List.mem_cons_self ..)
          have hsame := hnew.symm.trans (find_eq_some_iff.mpr hmem)
          simpa using hsame
        · simpa [hk] using h k v hold

/-- What is found under a key was inserted last under it. -/
theorem lastInserted_of_find_run {cap : Nat} {hcap : 0 < cap} {us : List (Use κ α)} {k : κ} {v : α}
    (h : (traceOps step (empty cap hcap) us).2.find k = some v) : lastInserted us k = some v :=
  traceOps_foldl (R := fun (m : Recency κ α) (f : κ → Option α) =>
      ∀ k v, (k, v) ∈ m.entries → f k = some v)
    (fun _ _ u hm => written_step hm u) (by simp [empty]) us k v (find_eq_some_iff.mp h)

theorem rewritten_change {m : Recency κ α} {f : κ → Option α}
    (h : ∀ k v, (k, v) ∈ m.entries → f k = some v) (u : Change κ α) :
    ∀ k v, (k, v) ∈ (m.change u).2.entries → rewritten f u k = some v := by
  cases u with
  | use u => exact written_step h u
  | remove key =>
      intro k v hmem
      obtain ⟨hold, hne⟩ := List.mem_filter.mp hmem
      rw [bne_iff_ne] at hne
      simpa [rewritten, hne] using h k v hold

/-- What is found under a key was inserted last under it, and not removed since. -/
theorem lastChanged_of_find_run {cap : Nat} {hcap : 0 < cap} {us : List (Change κ α)} {k : κ} {v : α}
    (h : (traceOps change (empty cap hcap) us).2.find k = some v) : lastChanged us k = some v :=
  traceOps_foldl (R := fun (m : Recency κ α) (f : κ → Option α) =>
      ∀ k v, (k, v) ∈ m.entries → f k = some v)
    (fun _ _ u hm => rewritten_change hm u) (by simp [empty]) us k v (find_eq_some_iff.mp h)

/-! ## Maps that are read through -/

/-- The keys that have been read, the last one first. -/
def recent (ks : List κ) : List κ := ks.foldl mostRecent []

omit [LawfulBEq κ] in
theorem recent_append (ks : List κ) (k : κ) : recent (ks ++ [k]) = mostRecent (recent ks) k := by
  rw [recent, List.foldl_append]
  rfl

theorem mem_recent {ks : List κ} {k : κ} : k ∈ recent ks ↔ k ∈ ks := by
  induction ks using List.reverseRecOn with
  | nil => simp [recent]
  | append_singleton ks k' ih =>
      rw [recent_append, mostRecent, List.mem_cons, List.mem_filter, ih, List.mem_append,
        List.mem_singleton, bne_iff_ne]
      by_cases hk : k = k'
      · simp [hk]
      · simp [hk]

theorem nodup_recent (ks : List κ) : (recent ks).Nodup := by
  induction ks using List.reverseRecOn with
  | nil => exact List.nodup_nil
  | append_singleton ks k ih =>
      rw [recent_append, mostRecent, List.nodup_cons]
      exact ⟨by simp, ih.filter _⟩

/-- What is read later comes first, in the order in which it alone would stand. -/
theorem foldl_mostRecent (ks ks' : List κ) :
    ks'.foldl mostRecent ks = recent ks' ++ ks.filter fun k => !ks'.contains k := by
  induction ks' using List.reverseRecOn with
  | nil => simp [recent]
  | append_singleton ks' k ih =>
      rw [List.foldl_append, ih, recent_append]
      simp only [List.foldl_cons, List.foldl_nil, mostRecent, List.filter_append, List.filter_filter,
        List.cons_append]
      congr 2
      apply List.filter_congr
      intro k' _
      by_cases hk : k' = k
      · simp [hk]
      · simp [hk]

theorem recent_split (xs : List κ) {k : κ} {ys : List κ} (h : k ∉ ys) :
    ∃ zs, recent (xs ++ k :: ys) = recent ys ++ k :: zs := by
  refine ⟨((recent xs).filter fun k' => k' != k).filter fun k' => !ys.contains k', ?_⟩
  rw [recent, List.foldl_append, List.foldl_cons, foldl_mostRecent]
  rw [mostRecent, List.filter_cons_of_pos (by simpa using h)]
  rfl

/-- A key is among the last ones if it has been read, and not many others since. -/
theorem mem_take_recent_iff {ks : List κ} {k : κ} {n : Nat} :
    k ∈ (recent ks).take n ↔
      ∃ xs ys, ks = xs ++ k :: ys ∧ k ∉ ys ∧ (recent ys).length < n := by
  have hsplit : ∀ xs ys, k ∉ ys →
      (k ∈ (recent (xs ++ k :: ys)).take n ↔ (recent ys).length < n) := by
    intro xs ys hk
    obtain ⟨zs, hzs⟩ := recent_split xs hk
    have hout : k ∉ recent ys := fun hmem => hk (mem_recent.mp hmem)
    rw [hzs, List.take_append]
    constructor
    · intro hmem
      by_contra hle
      rw [Nat.sub_eq_zero_of_le (by omega), List.take_zero, List.append_nil] at hmem
      exact hout (List.mem_of_mem_take hmem)
    · intro hlt
      obtain ⟨i, hi⟩ := Nat.exists_eq_add_of_lt hlt
      rw [show n - (recent ys).length = i + 1 by omega, List.take_succ_cons]
      exact List.mem_append_right _ List.mem_cons_self
  constructor
  · intro hmem
    have hread : k ∈ ks.reverse := List.mem_reverse.mpr (mem_recent.mp (List.mem_of_mem_take hmem))
    obtain ⟨ys, xs, heq, hk⟩ := List.eq_append_cons_of_mem hread
    have hks : ks = xs.reverse ++ k :: ys.reverse := by
      rw [← List.reverse_reverse ks, heq]
      simp
    have hout : k ∉ ys.reverse := fun hmem => hk (List.mem_reverse.mp hmem)
    rw [hks, hsplit _ _ hout] at hmem
    exact ⟨xs.reverse, ys.reverse, hks, hout, hmem⟩
  · rintro ⟨xs, ys, rfl, hk, hlt⟩
    exact (hsplit xs ys hk).mpr hlt

/-- Only the most recent keys matter to the most recent keys. -/
theorem take_filter_take {k : κ} {ks : List κ} (h : ks.Nodup) (n : Nat) :
    ((ks.take (n + 1)).filter fun k' => k' != k).take n =
      (ks.filter fun k' => k' != k).take n := by
  induction ks generalizing n with
  | nil => simp
  | cons k' ks ih =>
      obtain ⟨hk', hks⟩ := List.nodup_cons.mp h
      rw [List.take_succ_cons]
      by_cases heq : k' = k
      · subst heq
        have hsame : ∀ l : List κ, k' ∉ l → (l.filter fun k => k != k') = l := by
          intro l hl
          apply List.filter_eq_self.mpr
          intro x hx
          rw [bne_iff_ne]
          rintro rfl
          exact hl hx
        rw [List.filter_cons_of_neg (by simp), List.filter_cons_of_neg (by simp), hsame ks hk',
          hsame _ fun hmem => hk' (List.mem_of_mem_take hmem), List.take_take, min_self]
      · rw [List.filter_cons_of_pos (by simpa using heq),
          List.filter_cons_of_pos (by simpa using heq)]
        cases n with
        | zero => rfl
        | succ n => rw [List.take_succ_cons, List.take_succ_cons, ih hks]

theorem take_mostRecent {ks : List κ} (h : ks.Nodup) (k : κ) {n : Nat} (hn : 0 < n) :
    (mostRecent (ks.take n) k).take n = (mostRecent ks k).take n := by
  obtain ⟨m, rfl⟩ := Nat.exists_eq_succ_of_ne_zero hn.ne'
  rw [mostRecent, mostRecent, Nat.succ_eq_add_one, List.take_succ_cons, List.take_succ_cons,
    take_filter_take h]

/-- Look a key up, and insert what it stands for if it is not there. -/
def fetch (m : Recency κ α) (k : κ) (v : α) : Recency κ α :=
  if (m.find k).isSome then m.touch k else m.insert k v

/-- A map that is read through loses a key only to more recent ones. -/
theorem keys_fetch (m : Recency κ α) (k : κ) (v : α) :
    (m.fetch k v).keys = (mostRecent m.keys k).take m.cap := by
  unfold fetch
  cases hfind : m.find k with
  | none =>
      have hout : k ∉ m.keys := find_eq_none_iff.mp hfind
      have hsame : (m.keys.filter fun k' => k' != k) = m.keys := by
        rw [keys, ← keys_without, without_of_not_mem hout]
      rw [if_neg (by simp), keys_insert hout, mostRecent, hsame]
      have hle : m.keys.length ≤ m.cap := by
        rw [keys, List.length_map]
        exact m.length_le
      obtain ⟨n, hn⟩ := Nat.exists_eq_succ_of_ne_zero m.cap_pos.ne'
      rw [hn, Nat.succ_eq_add_one, List.take_succ_cons]
      rw [hn] at hle
      split
      · rw [List.take_of_length_le (by omega)]
      · rw [List.dropLast_eq_take, show m.keys.length - 1 = n by omega]
  | some w =>
      rw [if_pos (by simp), keys, entries_touch_of_some hfind, List.map_cons, keys_without]
      symm
      apply List.take_of_length_le
      have hlt := length_without_lt hfind
      rw [← List.length_map (f := Prod.fst), keys_without] at hlt
      rw [mostRecent, List.length_cons]
      exact hlt

/-- A map that is only read through holds the keys that were read last. -/
theorem keys_fetch_of_recent {m : Recency κ α} {ks : List κ}
    (h : m.keys = (recent ks).take m.cap) (k : κ) (v : α) :
    (m.fetch k v).keys = (recent (ks ++ [k])).take m.cap := by
  rw [keys_fetch, h, recent_append, take_mostRecent (nodup_recent ks) k m.cap_pos]

@[simp] theorem cap_fetch (m : Recency κ α) (k : κ) (v : α) : (m.fetch k v).cap = m.cap := by
  unfold fetch
  split
  · exact cap_touch m k
  · rfl

theorem length_recent [DecidableEq κ] (ks : List κ) : (recent ks).length = ks.toFinset.card := by
  rw [← List.toFinset_card_of_nodup (nodup_recent ks)]
  congr 1
  ext k
  simp [mem_recent]

end Recency

end Foundation
