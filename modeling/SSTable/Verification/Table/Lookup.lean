import SSTable.Verification.Table.Seeking

/-!
# Looking keys up

A lookup finds the only data block that may hold the key, asks the filter of the block's range,
and searches the block.  Whatever it returns was written.  It misses a key that was written only
if the key is itself the separator in front of its block, or empty.

Main results:

- Theorem {lit}`get_partial`: what a lookup returns is an entry of the table, in any case.
- Theorem {lit}`get_spec`: what a lookup returns in an ordered table whose filters admit the keys
  of their blocks.
-/

namespace SSTable

open Foundation Foundation.Exec Foundation.Bytes

/-! ## Blocks -/

namespace BlockLayout

variable {L : BlockLayout} {target val : Bytes}

/-- In an ordered block, a key that is in the block is found at its lower bound. -/
theorem Ordered.mem_entries_iff (hord : L.Ordered) {j : Nat} {e : Entry}
    (hbound : Cursor.lowerBound L.keys target = some j) (he : L.entries[j]? = some e) :
    (target, val) ∈ L.entries ↔ e = (target, val) := by
  constructor
  · intro hmem
    obtain ⟨m, hm⟩ := List.mem_iff_getElem?.mp hmem
    obtain ⟨k, hk, hle, hbefore⟩ := Cursor.lowerBound_eq_some_iff.mp hbound
    rw [L.entries_getElem?, Option.map_eq_some_iff] at hm he
    obtain ⟨s, hs, hentry⟩ := hm
    obtain ⟨s', hs', rfl⟩ := he
    have hkey : s.key = target := congrArg Prod.fst hentry
    rw [L.keys_getElem?, hs', Option.map_some, Option.some.injEq] at hk
    rcases Nat.lt_trichotomy m j with hlt | rfl | hgt
    · have hbelow := hbefore m s.key hlt (by rw [L.keys_getElem?, hs, Option.map_some])
      rw [hkey] at hbelow
      exact absurd hbelow (lt_irrefl _)
    · rw [hs, Option.some.injEq] at hs'
      rw [← hs', hentry]
    · have habove := hord.key_lt hs' hs hgt
      rw [hk, hkey] at habove
      exact absurd habove (not_lt.mpr hle)
  · rintro rfl
    exact List.mem_of_getElem? he

theorem not_mem_entries (hbound : Cursor.lowerBound L.keys target = none) :
    (target, val) ∉ L.entries := by
  intro hmem
  have hkey : target ∈ L.keys := by
    rw [← keysOf_entries]
    exact List.mem_map_of_mem hmem
  exact absurd (Cursor.lowerBound_eq_none_iff.mp hbound target hkey) (lt_irrefl _)

end BlockLayout

/-- An iterator that shows an entry is valid, and the key of the entry is not empty. -/
theorem BlockIter.current_eq_some {it : BlockIter} {e : Entry} (h : it.current = .ok (some e)) :
    it.valid = true ∧ e.1 ≠ [] := by
  unfold BlockIter.current at h
  cases hvalid : it.valid with
  | false => simp [hvalid] at h
  | true =>
      simp only [hvalid, if_true, bind_eq_ok_iff, pure_eq_ok, Except.ok.injEq,
        Option.some.injEq] at h
      obtain ⟨w, -, rfl⟩ := h
      refine ⟨rfl, ?_⟩
      intro hnil
      simp only at hnil
      simp [BlockIter.valid, hnil] at hvalid

variable [Crates] {t : Table} {v : TableView} {c c' : BlockCache} {i : Nat} {key val : Bytes}

namespace Table

/-- Searching an ordered block finds exactly the entries of the block. -/
theorem searchBlock_spec (hshows : t.Shows v) {L : BlockLayout} (hL : some L ∈ v.blocks)
    (hord : L.Ordered) (key : Bytes) :
    ∃ found, t.searchBlock (t.blockOf L) key = .ok found ∧
      ∀ val, found = some val ↔ (key, val) ∈ L.entries := by
  obtain ⟨it, hiter, hun⟩ := Block.iter_spec (b := t.blockOf L) (v.small L hL) hshows.cmp_eq rfl
  obtain ⟨it', hseek, hplaced⟩ := BlockIter.seek_spec hun.toOver hord key
  cases hbound : Cursor.lowerBound L.keys key with
  | none =>
      rw [hbound] at hplaced
      have hcurrent := BlockIter.Unplaced.current hplaced
      refine ⟨none, by simp [searchBlock, hiter, hseek, hcurrent], ?_⟩
      intro val
      simp [BlockLayout.not_mem_entries hbound]
  | some j =>
      rw [hbound] at hplaced
      obtain ⟨s, hat⟩ := hplaced
      have hcurrent := hat.current (hord.key_ne_nil s (List.mem_of_getElem? hat.slot_eq))
      have he : L.entries[j]? = some s.entry := by
        rw [L.entries_getElem?, hat.slot_eq, Option.map_some]
      have hmem : ∀ val, (key, val) ∈ L.entries ↔ s.entry = (key, val) := by
        intro val
        exact hord.mem_entries_iff hbound he
      by_cases hkey : s.key = key
      · refine ⟨some s.val, ?_, ?_⟩
        · simp [searchBlock, hiter, hseek, hcurrent, Slot.entry, hshows.cmp_eq, hkey]
        · intro val
          rw [hmem, Slot.entry, hkey]
          simp
      · refine ⟨none, ?_, ?_⟩
        · simp [searchBlock, hiter, hseek, hcurrent, Slot.entry, hshows.cmp_eq, hkey]
        · intro val
          rw [hmem, Slot.entry]
          simp [hkey]

/-- What a search returns is an entry of the block, in whatever order the block is. -/
theorem searchBlock_partial (hshows : t.Shows v) {L : BlockLayout} (hL : some L ∈ v.blocks)
    (h : t.searchBlock (t.blockOf L) key = .ok (some val)) :
    key ≠ [] ∧ (key, val) ∈ L.entries := by
  obtain ⟨it, hiter, hun⟩ := Block.iter_spec (b := t.blockOf L) (v.small L hL) hshows.cmp_eq rfl
  simp only [searchBlock, hiter, ok_bind, bind_eq_ok_iff] at h
  obtain ⟨it', hseek, entry, hcurrent, hresult⟩ := h
  obtain ⟨p, hplaced⟩ := BlockIter.seek_partial hun.toOver hseek
  cases entry with
  | none => simp at hresult
  | some e =>
      dsimp only at hresult
      split at hresult
      · rename_i heq
        rw [hshows.cmp_eq, defaultCmp_cmp, DefaultCmp.cmp_eq_eq_iff] at heq
        rw [pure_eq_ok, Except.ok.injEq, Option.some.injEq] at hresult
        rw [← heq, ← hresult]
        exact ⟨(BlockIter.current_eq_some hcurrent).2, hplaced.current_mem hcurrent⟩
      · simp at hresult

/-! ## The index -/

/-- The block that a lookup looks into is the first one whose separator lies above the key; a key
that is a separator itself is in none. -/
theorem findBlock_spec (hshows : t.Shows v) (hord : v.Ordered) (key : Bytes) :
    match Cursor.lowerBound v.index.keys key with
    | none => t.findBlock key = .ok none
    | some i =>
        if v.index.keys[i]? = some key then t.findBlock key = .ok none
        else ∃ h, v.handles[i]? = some h ∧ t.findBlock key = .ok (some h) := by
  obtain ⟨it, hiter, hun⟩ :=
    Block.iter_spec (b := t.blockOf v.index) v.index_small hshows.cmp_eq rfl
  obtain ⟨it', hseek, hplaced⟩ := BlockIter.seek_spec hun.toOver hord.index key
  rw [← hshows.index_eq] at hiter
  cases hbound : Cursor.lowerBound v.index.keys key with
  | none =>
      rw [hbound] at hplaced
      have hcurrent := BlockIter.Unplaced.current hplaced
      simp [findBlock, hiter, hseek, hcurrent]
  | some i =>
      rw [hbound] at hplaced
      obtain ⟨s, hat⟩ := hplaced
      have hcurrent := hat.current (hord.index.key_ne_nil s (List.mem_of_getElem? hat.slot_eq))
      obtain ⟨k, hk, hle, -⟩ := Cursor.lowerBound_eq_some_iff.mp hbound
      have hslot := hk
      rw [v.index.keys_getElem?, hat.slot_eq, Option.map_some, Option.some.injEq] at hslot
      simp only [hk, Option.some.injEq]
      by_cases heq : k = key
      · rw [if_pos heq]
        simp [findBlock, hiter, hseek, hcurrent, Slot.entry, hshows.cmp_eq, hslot, heq]
      · rw [if_neg heq]
        obtain ⟨h, hh, hval, hfits⟩ := v.slot_val hat.slot_eq
        have hdecode := BlockHandle.decode_encode hfits []
        rw [List.append_nil, ← hval] at hdecode
        have hlt : key < s.key := hslot ▸ lt_of_le_of_ne hle (Ne.symm heq)
        exact ⟨h, hh, by
          simp [findBlock, hiter, hseek, hcurrent, Slot.entry, hshows.cmp_eq, hlt, hdecode]⟩

/-- The block that is looked into is a data block, in whatever order the index is. -/
theorem findBlock_partial (hshows : t.Shows v) {h : BlockHandle}
    (hfind : t.findBlock key = .ok (some h)) : ∃ i : Nat, v.handles[i]? = some h := by
  obtain ⟨it, hiter, hun⟩ :=
    Block.iter_spec (b := t.blockOf v.index) v.index_small hshows.cmp_eq rfl
  rw [← hshows.index_eq] at hiter
  simp only [findBlock, hiter, ok_bind, bind_eq_ok_iff] at hfind
  obtain ⟨it', hseek, entry, hcurrent, hresult⟩ := hfind
  obtain ⟨p, hplaced⟩ := BlockIter.seek_partial hun.toOver hseek
  cases entry with
  | none => simp at hresult
  | some e =>
      have hmem := hplaced.current_mem hcurrent
      obtain ⟨i, hi⟩ := List.mem_iff_getElem?.mp hmem
      rw [v.index.entries_getElem?, Option.map_eq_some_iff] at hi
      obtain ⟨s, hs, rfl⟩ := hi
      obtain ⟨h', hh, hval, hfits⟩ := v.slot_val hs
      have hdecode := BlockHandle.decode_encode hfits []
      rw [List.append_nil, ← hval] at hdecode
      dsimp only at hresult
      split at hresult
      · simp only [Slot.entry, hdecode, ok_bind, pure_eq_ok, Except.ok.injEq,
          Option.some.injEq] at hresult
        exact ⟨i, hresult ▸ hh⟩
      · simp at hresult

/-! ## Lookups -/

/-- What a lookup returns is an entry of the table that can be read, whatever the filters say and
in whatever order the keys are. -/
theorem get_partial (hshows : t.Shows v) (hserves : CacheServes t v c)
    (hget : t.get key c = .ok (.ok (some val), c')) : key ≠ [] ∧ (key, val) ∈ v.entries := by
  simp only [get, bind_eq_ok_iff] at hget
  obtain ⟨found, hfind, hget⟩ := hget
  cases found with
  | none => simp at hget
  | some h =>
      simp only [bind_eq_ok_iff] at hget
      obtain ⟨admitted, -, hget⟩ := hget
      cases admitted with
      | false => simp at hget
      | true =>
          simp only [if_true, bind_eq_ok_iff] at hget
          obtain ⟨⟨r, c₁⟩, hread, hget⟩ := hget
          obtain ⟨i, hh⟩ := findBlock_partial hshows hfind
          obtain ⟨b, hb⟩ := v.block_of_handle hh
          obtain ⟨r', c₂, hspec, -, hr⟩ := readBlock_spec hshows hserves hh hb
          rw [hspec, Except.ok.injEq, Prod.mk.injEq] at hread
          obtain ⟨rfl, rfl⟩ := hread
          cases b with
          | none =>
              obtain ⟨e, rfl⟩ := hr
              simp at hget
          | some L =>
              have hr : r' = .ok (t.blockOf L) := hr
              subst hr
              simp only [bind_eq_ok_iff, pure_eq_ok, Except.ok.injEq, Prod.mk.injEq] at hget
              obtain ⟨found, hsearch, rfl, -⟩ := hget
              have hmem := List.mem_of_getElem? hb
              obtain ⟨hkey, hentry⟩ := searchBlock_partial hshows hmem hsearch
              exact ⟨hkey, List.mem_flatten.mpr ⟨L.entries, List.mem_map_of_mem hmem, hentry⟩⟩

/-- The filters answer a key for every block, and deny it in none that has it. -/
def FiltersAdmit (t : Table) (v : TableView) (key : Bytes) : Prop :=
  ∀ {i : Nat} {h : BlockHandle} {L : BlockLayout}, v.handles[i]? = some h →
    v.blocks[i]? = some (some L) →
    ∃ admitted, t.filterAdmits h key = .ok admitted ∧ (admitted = false → key ∉ L.keys)

/-- A lookup in an ordered table without defective blocks finds exactly the entries of the block
it looks into. -/
theorem get_spec (hshows : t.Shows v) (hord : v.Ordered) (hserves : CacheServes t v c)
    (hread : ∀ b ∈ v.blocks, ∃ L, b = some L) {key : Bytes} (hfilters : t.FiltersAdmit v key) :
    ∃ found c', t.get key c = .ok (.ok found, c') ∧
      ∀ val, found = some val ↔ ∃ i L, Cursor.lowerBound v.index.keys key = some i ∧
        v.index.keys[i]? ≠ some key ∧ v.blocks[i]? = some (some L) ∧ (key, val) ∈ L.entries := by
  have hfind := findBlock_spec hshows hord key
  cases hbound : Cursor.lowerBound v.index.keys key with
  | none =>
      rw [hbound] at hfind
      have hfind : t.findBlock key = .ok none := hfind
      exact ⟨none, c, by simp [get, hfind], by simp⟩
  | some i =>
      rw [hbound] at hfind
      dsimp only at hfind
      by_cases hsep : v.index.keys[i]? = some key
      · rw [if_pos hsep] at hfind
        refine ⟨none, c, by simp [get, hfind], ?_⟩
        intro val
        simp only [reduceCtorEq, Option.some.injEq, false_iff]
        rintro ⟨i', L, rfl, hne, -⟩
        exact hne hsep
      · rw [if_neg hsep] at hfind
        obtain ⟨h, hh, hfind⟩ := hfind
        obtain ⟨b, hb⟩ := v.block_of_handle hh
        obtain ⟨L, rfl⟩ := hread b (List.mem_of_getElem? hb)
        have hiff : ∀ val, (∃ i' L', some i = some i' ∧ v.index.keys[i']? ≠ some key ∧
            v.blocks[i']? = some (some L') ∧ (key, val) ∈ L'.entries) ↔ (key, val) ∈ L.entries := by
          intro val
          constructor
          · rintro ⟨i', L', hi', -, hL', hmem⟩
            obtain rfl := Option.some.inj hi'
            rw [hb, Option.some.injEq, Option.some.injEq] at hL'
            exact hL' ▸ hmem
          · intro hmem
            exact ⟨i, L, rfl, hsep, hb, hmem⟩
        obtain ⟨admitted, hadmits, hdenied⟩ := hfilters hh hb
        cases admitted with
        | false =>
            refine ⟨none, c, by simp [get, hfind, hadmits], ?_⟩
            intro val
            rw [hiff]
            simp only [reduceCtorEq, false_iff]
            intro hmem
            apply hdenied rfl
            rw [← BlockLayout.keysOf_entries]
            exact List.mem_map_of_mem hmem
        | true =>
            obtain ⟨r, c', hreads, -, hr⟩ := readBlock_spec hshows hserves hh hb
            have hr : r = .ok (t.blockOf L) := hr
            subst hr
            have hmem := List.mem_of_getElem? hb
            obtain ⟨found, hsearch, hfound⟩ :=
              searchBlock_spec hshows hmem (hord.block L hmem) key
            refine ⟨found, c', by simp [get, hfind, hadmits, hreads, hsearch], ?_⟩
            intro val
            rw [hiff, hfound]

/-- A lookup that finds no block does not ask the filters. -/
theorem get_of_findBlock_none (hfind : t.findBlock key = .ok none)
    (filters : Option FilterBlockReader) :
    ({ t with filters := filters } : Table).get key c = .ok (.ok none, c) := by
  have hfind' : ({ t with filters := filters } : Table).findBlock key = .ok none := hfind
  simp [get, hfind']

/-- A lookup in a block that the filters admit does what it does without the filters. -/
theorem get_of_admitted {h : BlockHandle} (hfind : t.findBlock key = .ok (some h))
    (hadmits : t.filterAdmits h key = .ok true) :
    t.get key c = ({ t with filters := none } : Table).get key c := by
  have hfind' : ({ t with filters := none } : Table).findBlock key = .ok (some h) := hfind
  have hadmits' : ({ t with filters := none } : Table).filterAdmits h key = .ok true := rfl
  rw [get, get, hfind, hfind', ok_bind, ok_bind]
  dsimp only
  rw [hadmits, hadmits', ok_bind, ok_bind]
  rfl

/-- A lookup in a block that the filters deny finds nothing. -/
theorem get_of_denied {h : BlockHandle} (hfind : t.findBlock key = .ok (some h))
    (hdenies : t.filterAdmits h key = .ok false) : t.get key c = .ok (.ok none, c) := by
  rw [get, hfind, ok_bind]
  dsimp only
  rw [hdenies, ok_bind]
  rfl

/-- A lookup stops where the filters do. -/
theorem get_of_fault {h : BlockHandle} {e : Fault} (hfind : t.findBlock key = .ok (some h))
    (hfault : t.filterAdmits h key = .error e) : t.get key c = .error e := by
  rw [get, hfind, ok_bind]
  dsimp only
  rw [hfault, error_bind]

end Table

end SSTable
