import SSTable.Foundation.Pieces
import SSTable.Verification.Block.Search
import SSTable.Verification.Cache.Map
import SSTable.Model.TableReader

/-!
# What an opened table shows

A view lists what the blocks of a table mean: the layout of its index block and, for every data
block, its layout or the fact that it cannot be read.  An opened table shows a view if reading
its blocks gives what the view says; the cache serves the table if it holds nothing else under
the table's keys.

Main results:

- Theorem {lit}`readBlock_spec`: reading a data block through the cache gives what the view says.
- Theorem {lit}`CacheServes.run`: whatever the users of the cache do, it goes on serving the table.
-/

namespace SSTable

open Foundation Foundation.Exec Foundation.Bytes Foundation.Pieces

variable [Crates]

/-- The blocks of a table; a data block that cannot be read has no layout. -/
structure TableView where
  index : BlockLayout
  handles : List BlockHandle
  blocks : List (Option BlockLayout)
  index_small : index.Small
  values_eq : index.entries.map Prod.snd = handles.map BlockHandle.encode
  length_eq : blocks.length = handles.length
  fits : ∀ h ∈ handles, h.Fits
  small : ∀ L, some L ∈ blocks → L.Small
  offsets_nodup : (handles.map BlockHandle.offset).Nodup

/-- The entries of a block; one that cannot be read has none. -/
def blockEntries : Option BlockLayout → List Entry
  | some L => L.entries
  | none => []

namespace TableView

/-- The entries that can be read. -/
def entries (v : TableView) : List Entry := (v.blocks.map blockEntries).flatten

/-- The number of entries that can be read in front of a block. -/
def start (v : TableView) (i : Nat) : Nat := ((v.blocks.take i).map blockEntries).flatten.length

/-- The keys of the index and of every data block are ordered. -/
structure Ordered (v : TableView) : Prop where
  index : v.index.Ordered
  block : ∀ L, some L ∈ v.blocks → L.Ordered

variable (v : TableView)

theorem slots_length : v.index.slots.length = v.handles.length := by
  have hlen := congrArg List.length v.values_eq
  simpa using hlen

/-- Every slot of the index holds the handle of its data block. -/
theorem slot_val {i : Nat} {s : Slot} (h : v.index.slots[i]? = some s) :
    ∃ hd, v.handles[i]? = some hd ∧ s.val = hd.encode ∧ hd.Fits := by
  have hval : (v.index.entries.map Prod.snd)[i]? = some s.val := by
    rw [List.getElem?_map, v.index.entries_getElem?, h]
    rfl
  rw [v.values_eq, List.getElem?_map, Option.map_eq_some_iff] at hval
  obtain ⟨hd, hhd, hval⟩ := hval
  exact ⟨hd, hhd, hval.symm, v.fits hd (List.mem_of_getElem? hhd)⟩

/-- There is a data block for every handle. -/
theorem block_of_handle {i : Nat} {h : BlockHandle} (hh : v.handles[i]? = some h) :
    ∃ b, v.blocks[i]? = some b := by
  have hi := (List.getElem?_eq_some_iff.mp hh).1
  rw [← v.length_eq] at hi
  exact ⟨_, List.getElem?_eq_getElem hi⟩

/-- There is a handle for every data block. -/
theorem handle_of_block {i : Nat} {b : Option BlockLayout} (hb : v.blocks[i]? = some b) :
    ∃ h, v.handles[i]? = some h := by
  have hi := (List.getElem?_eq_some_iff.mp hb).1
  rw [v.length_eq] at hi
  exact ⟨_, List.getElem?_eq_getElem hi⟩

@[simp] theorem start_zero : v.start 0 = 0 := rfl

theorem start_succ {i : Nat} {b : Option BlockLayout} (h : v.blocks[i]? = some b) :
    v.start (i + 1) = v.start i + (blockEntries b).length := by
  have hb : (v.blocks.map blockEntries)[i]? = some (blockEntries b) := by
    rw [List.getElem?_map, h, Option.map_some]
  have hsucc := flatten_take_succ hb
  rwa [← List.map_take, ← List.map_take] at hsucc

/-- Behind the last block, every entry is counted. -/
theorem start_of_length_le {i : Nat} (h : v.blocks.length ≤ i) : v.start i = v.entries.length := by
  rw [start, List.take_of_length_le h, entries]

theorem start_le (i : Nat) : v.start i ≤ v.entries.length := by
  rw [start, entries, List.map_take]
  exact flatten_take_le _ i

/-- An entry of a block is found behind the entries of the blocks before it. -/
theorem entries_getElem? {i j : Nat} {L : BlockLayout} (h : v.blocks[i]? = some (some L))
    (hj : j < L.slots.length) : v.entries[v.start i + j]? = L.entries[j]? := by
  have hb : (v.blocks.map blockEntries)[i]? = some L.entries := by
    rw [List.getElem?_map, h, Option.map_some]
    rfl
  have hget := flatten_getElem? hb (by simpa using hj)
  rwa [← List.map_take] at hget

end TableView

namespace Table

/-- The block that a layout is read as. -/
def blockOf (t : Table) (L : BlockLayout) : Block where
  block := L.contents
  opt := t.opt

/-- Reading the block at a handle gives the layout, or fails where there is none. -/
def Reads (t : Table) (h : BlockHandle) : Option BlockLayout → Prop
  | some L => readTableBlock t.opt t.file h = .ok (.ok (t.blockOf L))
  | none => ∃ e, readTableBlock t.opt t.file h = .ok (.error e)

/-- An opened table consists of the blocks of the view. -/
structure Shows (t : Table) (v : TableView) : Prop where
  cmp_eq : t.opt.cmp = DefaultCmp
  index_eq : t.indexBlock = t.blockOf v.index
  reads : ∀ {i : Nat} {h : BlockHandle} {b : Option BlockLayout}, v.handles[i]? = some h →
    v.blocks[i]? = some b → t.Reads h b

end Table

/-- The cache holds nothing else under the keys of a table than its readable blocks. -/
structure CacheServes (t : Table) (v : TableView) (c : BlockCache) : Prop where
  reachable : c.Reachable
  id_le : t.cacheId ≤ c.id
  serves : ∀ {i : Nat} {h : BlockHandle} {block : Block}, v.handles[i]? = some h →
    c.find (t.blockCacheHandle h.offset) = some block →
      ∃ L, v.blocks[i]? = some (some L) ∧ block = t.blockOf L

variable {t : Table} {v : TableView} {c c' : BlockCache}

/-- Looking something up changes nothing the table sees. -/
theorem CacheServes.get (h : CacheServes t v c) {key : CacheKey} {found : Option Block}
    (hget : c.get key = .ok (found, c')) :
    CacheServes t v c' ∧ c'.id = c.id ∧ found = c.find key ∧ ∀ k, c'.find k = c.find k := by
  obtain ⟨list, hrun, -⟩ := Cache.get_spec h.reachable.wellFormed key
  have hreach := h.reachable.get hget
  rw [hrun, Except.ok.injEq, Prod.mk.injEq] at hget
  obtain ⟨rfl, rfl⟩ := hget
  exact ⟨⟨hreach, h.id_le, h.serves⟩, rfl, rfl, fun _ => rfl⟩

/-- Handles of different data blocks are cached under different keys. -/
theorem blockCacheHandle_injective {i j : Nat} {a b : BlockHandle}
    (ha : v.handles[i]? = some a) (hb : v.handles[j]? = some b)
    (heq : t.blockCacheHandle a.offset = t.blockCacheHandle b.offset) : i = j := by
  have hoff := Cache.keyOf_off_injective (v.fits a (List.mem_of_getElem? ha)).1
    (v.fits b (List.mem_of_getElem? hb)).1 heq
  obtain ⟨hi, rfl⟩ := List.getElem?_eq_some_iff.mp ha
  obtain ⟨hj, rfl⟩ := List.getElem?_eq_some_iff.mp hb
  have hi' : i < (v.handles.map BlockHandle.offset).length := by rwa [List.length_map]
  have hj' : j < (v.handles.map BlockHandle.offset).length := by rwa [List.length_map]
  have hoff' : (v.handles.map BlockHandle.offset)[i] = (v.handles.map BlockHandle.offset)[j] := by
    rwa [List.getElem_map, List.getElem_map]
  exact v.offsets_nodup.getElem_inj_iff.mp hoff'

/-- Inserting a block of the table that was not cached. -/
theorem CacheServes.insert (h : CacheServes t v c) {i : Nat} {hd : BlockHandle} {L : BlockLayout}
    (hhd : v.handles[i]? = some hd) (hL : v.blocks[i]? = some (some L))
    (habsent : c.find (t.blockCacheHandle hd.offset) = none) :
    ∃ c', c.insert (t.blockCacheHandle hd.offset) (t.blockOf L) = .ok c' ∧ CacheServes t v c' := by
  obtain ⟨c', hinsert, -, -, hid, hfound⟩ :=
    Cache.insert_spec h.reachable.wellFormed habsent (t.blockOf L)
  refine ⟨c', hinsert, h.reachable.insert h.id_le habsent hinsert, hid ▸ h.id_le, ?_⟩
  intro j hd' block hhd' hblock
  rcases hfound _ _ hblock with ⟨heq, rfl⟩ | hold
  · have hij := blockCacheHandle_injective hhd' hhd heq
    subst hij
    exact ⟨L, hL, rfl⟩
  · exact h.serves hhd' hold

/-- Reading a data block through the cache gives what the view says. -/
theorem readBlock_spec (hshows : t.Shows v) (hserves : CacheServes t v c) {i : Nat}
    {h : BlockHandle} {b : Option BlockLayout} (hh : v.handles[i]? = some h)
    (hb : v.blocks[i]? = some b) :
    ∃ r c', t.readBlock h c = .ok (r, c') ∧ CacheServes t v c' ∧
      match b with
      | some L => r = .ok (t.blockOf L)
      | none => ∃ e, r = .error e := by
  obtain ⟨list, hget, -⟩ :=
    Cache.get_spec hserves.reachable.wellFormed (t.blockCacheHandle h.offset)
  obtain ⟨hserves', -, -, hsame⟩ := hserves.get hget
  have hreads := hshows.reads hh hb
  cases hcached : c.find (t.blockCacheHandle h.offset) with
  | some block =>
      obtain ⟨L, hL, rfl⟩ := hserves.serves hh hcached
      rw [hb, Option.some.injEq] at hL
      subst hL
      refine ⟨.ok (t.blockOf L), _, ?_, hserves', rfl⟩
      simp [Table.readBlock, hget, hcached]
  | none =>
      cases b with
      | none =>
          obtain ⟨e, he⟩ := hreads
          refine ⟨.error e, _, ?_, hserves', e, rfl⟩
          simp [Table.readBlock, hget, hcached, he]
      | some L =>
          have hread : readTableBlock t.opt t.file h = .ok (.ok (t.blockOf L)) := hreads
          have habsent := (hsame (t.blockCacheHandle h.offset)).trans hcached
          obtain ⟨c', hinsert, hserves''⟩ := hserves'.insert hh hb habsent
          refine ⟨.ok (t.blockOf L), c', ?_, hserves'', rfl⟩
          simp [Table.readBlock, hget, hcached, hread, hinsert]

/-! ## The other users of the cache -/

/-- What may happen to the cache between two operations on a table: the table's data blocks are
read, and the other users take new ids, look up, and insert what they did not find under keys
of their own ids. -/
inductive CacheRun (t : Table) (handles : List BlockHandle) : BlockCache → BlockCache → Prop
  | refl (c : BlockCache) : CacheRun t handles c c
  | readBlock {c c₁ c₂ : BlockCache} {h : BlockHandle} {r : Result Block}
      (hrun : CacheRun t handles c c₁) (hmem : h ∈ handles)
      (hread : t.readBlock h c₁ = .ok (r, c₂)) : CacheRun t handles c c₂
  | newCacheId {c c₁ c₂ : BlockCache} {id : CacheID} (hrun : CacheRun t handles c c₁)
      (hnew : c₁.newCacheId = .ok (id, c₂)) : CacheRun t handles c c₂
  | get {c c₁ c₂ : BlockCache} {key : CacheKey} {found : Option Block}
      (hrun : CacheRun t handles c c₁) (hget : c₁.get key = .ok (found, c₂)) :
      CacheRun t handles c c₂
  | insert {c c₁ c₂ : BlockCache} {id : CacheID} {off : Nat} {block : Block}
      (hrun : CacheRun t handles c c₁) (hid : id ≤ c₁.id) (hother : id ≠ t.cacheId)
      (habsent : c₁.find (Cache.keyOf id off) = none)
      (hinsert : c₁.insert (Cache.keyOf id off) block = .ok c₂) : CacheRun t handles c c₂

/-- Whatever the users of the cache do, it goes on serving the table. -/
theorem CacheServes.run (hshows : t.Shows v) (hserves : CacheServes t v c)
    (hrun : CacheRun t v.handles c c') : CacheServes t v c' := by
  induction hrun with
  | refl => exact hserves
  | @readBlock c₁ c₂ h r _ hmem hread ih =>
      obtain ⟨i, hh⟩ := List.mem_iff_getElem?.mp hmem
      obtain ⟨b, hb⟩ := v.block_of_handle hh
      obtain ⟨r', c₃, hspec, hserves', -⟩ := readBlock_spec hshows ih hh hb
      rw [hspec, Except.ok.injEq, Prod.mk.injEq] at hread
      exact hread.2 ▸ hserves'
  | @newCacheId c₁ c₂ id _ hnew ih =>
      have hreach := ih.reachable.newCacheId hnew
      obtain ⟨-, heq⟩ := Cache.newCacheId_eq_ok_iff.mp hnew
      obtain ⟨rfl, rfl⟩ := Prod.mk.inj heq
      exact ⟨hreach, ih.id_le.trans (Nat.le_succ _), ih.serves⟩
  | get _ hget ih => exact (ih.get hget).1
  | @insert c₁ c₂ id off block _ hid hother habsent hinsert ih =>
      obtain ⟨c₃, hspec, -, -, hsame, hfound⟩ :=
        Cache.insert_spec ih.reachable.wellFormed habsent block
      have hreach := ih.reachable.insert hid habsent hinsert
      rw [hspec, Except.ok.injEq] at hinsert
      subst hinsert
      refine ⟨hreach, hsame ▸ ih.id_le, ?_⟩
      intro i h block' hh hblock
      rcases hfound _ _ hblock with ⟨heq, -⟩ | hold
      · -- The key of another id is none of the table's.
        have hlimit := ih.reachable.issued.1
        have hkey := Cache.keyOf_id_injective (lt_of_le_of_lt ih.id_le hlimit)
          (lt_of_le_of_lt hid hlimit) heq
        exact absurd hkey.symm hother
      · exact ih.serves hh hold

end SSTable
