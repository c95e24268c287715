import SSTable.Verification.Table.Getting
import SSTable.Verification.Table.Reads

/-!
# Tables that share a block cache

Any number of tables are opened with one block cache, and their lookups and iterators go on at the
same time: every call is a program whose reads of blocks are interleaved with those of the others.
A cache key holds the offset of a block, but not its size, so the tables are told from tables
without a cache only where an index has two handles for one offset.

Main results:

- Theorem {lit}`Serves.readBlock`: a table that shares a cache reads what it reads without one.
- Theorem {lit}`SharedTables.Sound.step`: so does every step of the tables together.
- Theorem {lit}`cache_transparent`: no run can be told from the run without a cache.
-/

namespace SSTable

open Foundation Foundation.Exec Foundation.Bytes Foundation.Calls

section

variable [Crates]

/-! ## The tables of a cache -/

/-- No two handles of a block have the same offset. -/
def Block.Unambiguous (b : Block) : Prop :=
  ∀ h h', b.Lists h → b.Lists h' → h.offset = h'.offset → h = h'

/-- No two handles in the index of a file have the same offset. -/
def Unambiguous (opt : Options) (file : RandomAccess) (size : Nat) : Prop :=
  ∀ footer index, readFooter file size = .ok (.ok footer) →
    readTableBlock opt file footer.index = .ok (.ok index) → index.Unambiguous

/-- Tables with the same cache id are clones of each other. -/
structure Distinct (ts : List Table) : Prop where
  eq_of_id : ∀ t ∈ ts, ∀ t' ∈ ts, t.cacheId = t'.cacheId → t = t'
  unambiguous : ∀ t ∈ ts, t.indexBlock.Unambiguous

/-- The cache holds nothing under the keys of the tables but what a read of the block returns. -/
structure Serves (ts : List Table) (cap : Nat) (c : BlockCache) : Prop where
  reachable : c.Reachable
  cap_eq : c.cap = cap
  id_le : ∀ t ∈ ts, t.cacheId ≤ c.id
  faithful : ∀ t ∈ ts, ∀ h block, t.indexBlock.Lists h →
    c.find (t.blockCacheHandle h.offset) = some block →
      readTableBlock t.opt t.file h = .ok (.ok block)

/-- The answer of the file itself. -/
def storedRead (read : Table × BlockHandle) : Exec (Result Block) :=
  readTableBlock read.1.opt read.1.file read.2

/-- Read a block through the cache, and stop if the key that is inserted is present. -/
def Table.readBlockAbsent (t : Table) (location : BlockHandle) (blockCache : BlockCache) :
    Exec (Result Block × BlockCache) := do
  let cachekey := t.blockCacheHandle location.offset
  let (cached, blockCache) ← blockCache.get cachekey
  match cached with
  | some block => pure (.ok block, blockCache)
  | none =>
      match ← readTableBlock t.opt t.file location with
      | .error e => pure (.error e, blockCache)
      | .ok b => do
          ensure (blockCache.find cachekey = none)
          let blockCache ← blockCache.insert cachekey b
          pure (.ok b, blockCache)

variable {ts : List Table} {cap : Nat} {c c' : BlockCache} {t : Table} {h : BlockHandle}

theorem Block.Lists.offset_lt {b : Block} (hlists : b.Lists h) : h.offset < wordLimit := by
  obtain ⟨it₀, it, k, val, n, -, -, -, hdecode⟩ := hlists
  simp only [BlockHandle.decode, bind_eq_ok_iff, unwrap_eq_ok_iff] at hdecode
  obtain ⟨⟨off, offsize⟩, hoff, rest, -, ⟨sz, szsize⟩, -, heq⟩ := hdecode
  obtain ⟨rfl, -⟩ := Prod.mk.inj (Except.ok.inj heq)
  exact (Crates.decodeVar_bounds _ _ _ hoff).1

/-- Looking something up changes nothing that is found. -/
theorem Serves.get (hserves : Serves ts cap c) (key : CacheKey) :
    ∃ c', c.get key = .ok (c.find key, c') ∧ Serves ts cap c' ∧ c'.id = c.id ∧
      ∀ k, c'.find k = c.find k := by
  obtain ⟨list, hget, -⟩ := Cache.get_spec hserves.reachable.wellFormed key
  refine ⟨_, hget, ?_, rfl, fun _ => rfl⟩
  exact ⟨hserves.reachable.get hget, hserves.cap_eq, hserves.id_le, hserves.faithful⟩

/-- Inserting what a read of a block returned. -/
theorem Serves.insert (hdist : Distinct ts) (hserves : Serves ts cap c) (ht : t ∈ ts)
    (hlists : t.indexBlock.Lists h) {b : Block} (hread : readTableBlock t.opt t.file h = .ok (.ok b))
    (habsent : c.find (t.blockCacheHandle h.offset) = none) :
    ∃ c', c.insert (t.blockCacheHandle h.offset) b = .ok c' ∧ Serves ts cap c' ∧ c'.id = c.id := by
  obtain ⟨c', hinsert, -, hcap, hid, hfound⟩ :=
    Cache.insert_spec hserves.reachable.wellFormed habsent b
  refine ⟨c', hinsert, ?_, hid⟩
  have hlimit : ∀ t ∈ ts, t.cacheId < wordLimit := fun t ht =>
    lt_of_le_of_lt (hserves.id_le t ht) hserves.reachable.issued.1
  exact {
    reachable := hserves.reachable.insert (hserves.id_le t ht) habsent hinsert
    cap_eq := hcap.trans hserves.cap_eq
    id_le := fun t ht => hid ▸ hserves.id_le t ht
    faithful := by
      intro t' ht' h' block hlists' hblock
      rcases hfound _ _ hblock with ⟨hkey, rfl⟩ | hold
      · -- Equal keys mean a clone of the table, and there the same offset.
        have hsame : t' = t := hdist.eq_of_id t' ht' t ht
          (Cache.keyOf_id_injective (hlimit t' ht') (hlimit t ht) hkey)
        subst hsame
        have hoff := Cache.keyOf_off_injective hlists'.offset_lt hlists.offset_lt hkey
        rw [hdist.unambiguous t' ht' h' h hlists' hlists hoff]
        exact hread
      · exact hserves.faithful t' ht' h' block hlists' hold }

/-- A table that shares a cache reads what it reads without one. -/
theorem Serves.readBlock (hdist : Distinct ts) (hserves : Serves ts cap c) (ht : t ∈ ts)
    (hlists : t.indexBlock.Lists h) :
    Answers (fun c' => Serves ts cap c' ∧ c'.id = c.id) (t.readBlock h c) (storedRead (t, h)) := by
  obtain ⟨c₁, hget, hserves₁, hid₁, hsame⟩ := hserves.get (t.blockCacheHandle h.offset)
  unfold Table.readBlock
  cases hcached : c.find (t.blockCacheHandle h.offset) with
  | some block =>
      have hread : storedRead (t, h) = .ok (.ok block) := hserves.faithful t ht h block hlists hcached
      rw [hread]
      exact ⟨c₁, by simp [hget, hcached], hserves₁, hid₁⟩
  | none =>
      cases hread : readTableBlock t.opt t.file h with
      | error e =>
          rw [storedRead, hread]
          simp [Answers, hget, hcached]
      | ok r =>
          rw [storedRead, hread]
          cases r with
          | error e => exact ⟨c₁, by simp [hget, hcached], hserves₁, hid₁⟩
          | ok b =>
              obtain ⟨c₂, hinsert, hserves₂, hid₂⟩ :=
                hserves₁.insert hdist ht hlists hread ((hsame _).trans hcached)
              exact ⟨c₂, by simp [hget, hcached, hinsert], hserves₂, hid₂.trans hid₁⟩

/-- Whatever is called, the calls of a table return what they return without a cache. -/
theorem Serves.answers {α : Type} {Q : α → Prop} {p : BlockReads α} (hserves : Serves ts cap c)
    (hdist : Distinct ts) (ht : t ∈ ts) (hp : p.All (Asked t) Q) :
    Answers (fun c => Serves ts cap c) (p.run cachedRead c) (p.eval storedRead) := by
  refine hp.run_answers ?_ hserves
  rintro ⟨t', hd⟩ c ⟨htable, hlists⟩ hserves
  obtain rfl : t' = t := htable
  have hanswer := hserves.readBlock hdist ht hlists
  cases hread : storedRead (t', hd) with
  | error e =>
      rw [hread] at hanswer
      exact hanswer
  | ok r =>
      rw [hread] at hanswer
      obtain ⟨c', hcached, hserves', -⟩ := hanswer
      exact ⟨c', hcached, hserves'⟩

/-- Nothing is stored under the keys of an id that was just given out. -/
theorem Serves.openTable (hserves : Serves ts cap c) (hid : t.cacheId = c.id + 1)
    (hlimit : c.id + 1 < wordLimit) : Serves (ts ++ [t]) cap { c with id := c.id + 1 } where
  reachable := hserves.reachable.newCacheId (Cache.newCacheId_eq_ok_iff.mpr ⟨hlimit, rfl⟩)
  cap_eq := hserves.cap_eq
  id_le := by
    intro t' ht'
    rcases List.mem_append.mp ht' with hold | hnew
    · exact (hserves.id_le t' hold).trans (Nat.le_succ _)
    · exact (List.mem_singleton.mp hnew ▸ hid).le
  faithful := by
    intro t' ht' hd block hlists hblock
    rcases List.mem_append.mp ht' with hold | hnew
    · exact hserves.faithful t' hold hd block hlists hblock
    · obtain rfl := List.mem_singleton.mp hnew
      obtain ⟨id, off, hle, hkey⟩ := hserves.reachable.issued.2 _ (by
        rw [show c.find _ = _ from hblock]
        exact Option.some_ne_none block)
      have hsame := Cache.keyOf_id_injective (hid ▸ hlimit)
        (lt_of_le_of_lt hle hserves.reachable.issued.1) hkey
      rw [← hsame, hid] at hle
      exact absurd hle (Nat.not_succ_le_self _)

/-- Only absent keys are inserted. -/
theorem Serves.readBlock_absent (hserves : Serves ts cap c) (t : Table) (h : BlockHandle) :
    t.readBlock h c = t.readBlockAbsent h c := by
  obtain ⟨c₁, hget, -, -, hsame⟩ := hserves.get (t.blockCacheHandle h.offset)
  unfold Table.readBlock Table.readBlockAbsent
  cases hcached : c.find (t.blockCacheHandle h.offset) with
  | some block => simp [hget, hcached]
  | none =>
      have habsent := (hsame _).trans hcached
      rcases readTableBlock t.opt t.file h with e | e | b
      · simp [hget, hcached]
      · simp [hget, hcached]
      · simp [hget, hcached, habsent, ensure_of_true]

/-! ## Opening -/

/-- An opened table depends on the cache through the id it has got, and through nothing else. -/
theorem Table.new_eq (opt : Options) (file : RandomAccess) (size : Nat) :
    ∃ x : Exec (Result (CacheID → Table)),
      (∀ parts id, x = .ok (.ok parts) → (parts id).cacheId = id ∧
        (Unambiguous opt file size → (parts id).indexBlock.Unambiguous)) ∧
      ∀ c, Table.new opt file size c = x >>= fun r =>
        match r with
        | .error e => pure (.error e, c)
        | .ok parts => c.newCacheId >>= fun r => pure (.ok (parts r.1), r.2) := by
  unfold Table.new
  rcases hfooter : readFooter file size with e | e | footer
  · exact ⟨.error e, by simp, fun c => rfl⟩
  · exact ⟨.ok (.error e), by simp, fun c => rfl⟩
  · simp only [ok_bind]
    rcases hindex : readTableBlock opt file footer.index with e | e | index
    · exact ⟨.error e, by simp, fun c => rfl⟩
    · exact ⟨.ok (.error e), by simp, fun c => rfl⟩
    · simp only [ok_bind]
      rcases readTableBlock opt file footer.metaIndex with e | e | metaindex
      · exact ⟨.error e, by simp, fun c => rfl⟩
      · exact ⟨.ok (.error e), by simp, fun c => rfl⟩
      · simp only [ok_bind]
        rcases readFilterBlock metaindex file opt with e | e | filters
        · exact ⟨.error e, by simp, fun c => rfl⟩
        · exact ⟨.ok (.error e), by simp, fun c => rfl⟩
        · refine ⟨.ok (.ok fun id => ⟨file, id, opt, footer, index, filters⟩), ?_, fun c => rfl⟩
          rintro parts id hparts
          obtain rfl := Except.ok.inj (Except.ok.inj hparts)
          exact ⟨rfl, fun hfile => hfile footer index hfooter hindex⟩

/-- The cache serves a table that was just opened. -/
theorem serves_of_new {opt : Options} {file : RandomAccess} {size : Nat} {c c' : BlockCache}
    {t : Table} (hc : c.Reachable) (hnew : Table.new opt file size c = .ok (.ok t, c')) :
    Serves [t] c.cap c' := by
  obtain ⟨-, -, -, -, metaix, -, -, hissued⟩ := Table.new_eq_ok_iff.mp hnew
  obtain ⟨hlimit, heq⟩ := Cache.newCacheId_eq_ok_iff.mp hissued
  obtain ⟨hid, rfl⟩ := Prod.mk.inj heq
  have hempty : Serves [] c.cap c :=
    { reachable := hc, cap_eq := rfl, id_le := by simp, faithful := by simp }
  exact hempty.openTable hid hlimit

theorem distinct_singleton {t : Table} (h : t.indexBlock.Unambiguous) : Distinct [t] where
  eq_of_id _ h₁ _ h₂ _ := (List.mem_singleton.mp h₁).trans (List.mem_singleton.mp h₂).symm
  unambiguous _ ht := List.mem_singleton.mp ht ▸ h

/-! ## The tables and their users -/

/-- What a call returns. -/
inductive Outcome where
  | found (r : Result (Option Bytes))
  | moved (j : Nat) (moved : Option Bool) (it : TableIterator)

/-- The tables that share a cache, the iterators over them that are not being moved, and the calls
that have not returned. -/
structure SharedTables where
  cache : BlockCache
  tables : List Table
  iters : List (Option TableIterator)
  calls : List (Option (BlockReads Outcome))

/-- What the users of the tables do next. -/
inductive SharedOp where
  | openTable (opt : Options) (file : RandomAccess) (size : Nat)
  | cloneTable (i : Nat)
  | iterate (i : Nat)
  | get (i : Nat) (key : Bytes)
  | move (j : Nat) (op : TableOp)
  | work (k : Nat)

/-- What the users see of it. -/
inductive Shown where
  | nothing
  | opened (e : Option Status)
  | found (r : Result (Option Bytes))
  | moved (o : Observation)
deriving DecidableEq

namespace SharedTables

/-- Begin with an empty cache. -/
def start (c : BlockCache) : SharedTables where
  cache := c
  tables := []
  iters := []
  calls := []

/-- A call returns. -/
def finish (s : SharedTables) (k : Nat) : Outcome → Exec (Shown × SharedTables)
  | .found r => pure (.found r, { s with calls := s.calls.set k none })
  | .moved j moved it => do
      let entry ← it.current
      pure (.moved
        { moved := moved, valid := it.valid, current := entry, currentKey := it.currentKey },
        { s with calls := s.calls.set k none, iters := s.iters.set j (some it) })

/-- A step of the tables together; a call reads one block at a time. -/
def step (read : Table × BlockHandle → BlockCache → Exec (Result Block × BlockCache))
    (s : SharedTables) : SharedOp → Exec (Shown × SharedTables)
  | .openTable opt file size => do
      match ← Table.new opt file size s.cache with
      | (.ok t, cache) => pure (.opened none, { s with cache := cache, tables := s.tables ++ [t] })
      | (.error e, cache) => pure (.opened (some e), { s with cache := cache })
  | .cloneTable i =>
      match s.tables[i]? with
      | some t => pure (.nothing, { s with tables := s.tables ++ [t] })
      | none => pure (.nothing, s)
  | .iterate i =>
      match s.tables[i]? with
      | some t => do
          let it ← t.iter
          pure (.nothing, { s with iters := s.iters ++ [some it] })
      | none => pure (.nothing, s)
  | .get i key =>
      match s.tables[i]? with
      | some t => pure (.nothing, { s with calls := s.calls ++ [some do
          let r ← t.getReads key
          pure (.found r)] })
      | none => pure (.nothing, s)
  | .move j op =>
      match s.iters[j]? with
      | some (some it) => pure (.nothing, { s with
          iters := s.iters.set j none
          calls := s.calls ++ [some do
            let (moved, it) ← op.reads it
            pure (.moved j moved it)] })
      | _ => pure (.nothing, s)
  | .work k =>
      match s.calls[k]? with
      | some (some (.call i next)) => do
          let (r, cache) ← read i s.cache
          pure (.nothing, { s with cache := cache, calls := s.calls.set k (some (next r)) })
      | some (some (.stop e)) => .error e
      | some (some (.done out)) => s.finish k out
      | _ => pure (.nothing, s)

/-- A read that does not use the cache. -/
def storedStep : SharedTables → SharedOp → Exec (Shown × SharedTables) :=
  step fun i c => storedRead i >>= fun r => pure (r, c)

open TableIterator

/-- What a call returns belongs to a table. -/
def Belongs (t : Table) : Outcome → Prop
  | .found _ => True
  | .moved _ _ it => it.Belongs t

/-- The cache serves the tables, and iterators and calls stay within them. -/
structure Sound (cap : Nat) (s : SharedTables) : Prop where
  distinct : Distinct s.tables
  serves : Serves s.tables cap s.cache
  iters : ∀ it, some it ∈ s.iters → ∃ t ∈ s.tables, it.Belongs t
  calls : ∀ p, some p ∈ s.calls → ∃ t ∈ s.tables, p.All (Asked t) (Belongs t)

/-- The same tables, iterators and calls, with caches that have given out the same ids. -/
def Beside (cap : Nat) (s a : SharedTables) : Prop :=
  s.Sound cap ∧ a.cache.id = s.cache.id ∧ a = { s with cache := a.cache }

theorem sound_start {cap : Nat} {c : BlockCache} (h : Cache.new cap = .ok c) : (start c).Sound cap where
  distinct := ⟨by simp [start], by simp [start]⟩
  serves := {
    reachable := .new h
    cap_eq := (Cache.models_new h).2.1
    id_le := by simp [start]
    faithful := by simp [start] }
  iters := by simp [start]
  calls := by simp [start]

variable {cap : Nat} {s : SharedTables} {c : BlockCache}

/-! ## One step -/

/-- One more table takes nothing from the iterators and the calls. -/
theorem Sound.addTable {t : Table} {cache : BlockCache} (h : s.Sound cap)
    (hdistinct : Distinct (s.tables ++ [t])) (hserves : Serves (s.tables ++ [t]) cap cache) :
    ({ s with cache := cache, tables := s.tables ++ [t] } : SharedTables).Sound cap where
  distinct := hdistinct
  serves := hserves
  iters := by
    intro it hit
    obtain ⟨t', ht', hbelongs⟩ := h.iters it hit
    exact ⟨t', List.mem_append_left _ ht', hbelongs⟩
  calls := by
    intro p hp
    obtain ⟨t', ht', hall⟩ := h.calls p hp
    exact ⟨t', List.mem_append_left _ ht', hall⟩

/-- A table that is opened gets an id that no key in the cache has. -/
theorem Sound.openTable {t : Table} (h : s.Sound cap) (hid : t.cacheId = s.cache.id + 1)
    (hlimit : s.cache.id + 1 < wordLimit) (hindex : t.indexBlock.Unambiguous) :
    ({ s with cache := { s.cache with id := s.cache.id + 1 }, tables := s.tables ++ [t] } :
      SharedTables).Sound cap := by
  apply h.addTable _ (h.serves.openTable hid hlimit)
  constructor
  case eq_of_id =>
    intro t₁ ht₁ t₂ ht₂ heq
    have hold : ∀ t' ∈ s.tables, t'.cacheId ≠ t.cacheId := by
      intro t' ht' heq
      have hle : t'.cacheId ≤ s.cache.id := h.serves.id_le t' ht'
      rw [heq, hid] at hle
      exact Nat.not_succ_le_self _ hle
    rcases List.mem_append.mp ht₁ with hold₁ | hnew₁
    · rcases List.mem_append.mp ht₂ with hold₂ | hnew₂
      · exact h.distinct.eq_of_id t₁ hold₁ t₂ hold₂ heq
      · obtain rfl := List.mem_singleton.mp hnew₂
        exact absurd heq (hold t₁ hold₁)
    · obtain rfl := List.mem_singleton.mp hnew₁
      rcases List.mem_append.mp ht₂ with hold₂ | hnew₂
      · exact absurd heq.symm (hold t₂ hold₂)
      · exact (List.mem_singleton.mp hnew₂).symm
  case unambiguous =>
    intro t' ht'
    rcases List.mem_append.mp ht' with hold | hnew
    · exact h.distinct.unambiguous t' hold
    · exact List.mem_singleton.mp hnew ▸ hindex

theorem Sound.cloneTable {t : Table} (h : s.Sound cap) (ht : t ∈ s.tables) :
    ({ s with tables := s.tables ++ [t] } : SharedTables).Sound cap := by
  have hmem : ∀ t' ∈ s.tables ++ [t], t' ∈ s.tables := by
    intro t' ht'
    rcases List.mem_append.mp ht' with hold | hnew
    · exact hold
    · exact List.mem_singleton.mp hnew ▸ ht
  apply h.addTable
  · exact {
      eq_of_id := fun t₁ ht₁ t₂ ht₂ => h.distinct.eq_of_id t₁ (hmem t₁ ht₁) t₂ (hmem t₂ ht₂)
      unambiguous := fun t' ht' => h.distinct.unambiguous t' (hmem t' ht') }
  · exact {
      reachable := h.serves.reachable
      cap_eq := h.serves.cap_eq
      id_le := fun t' ht' => h.serves.id_le t' (hmem t' ht')
      faithful := fun t' ht' => h.serves.faithful t' (hmem t' ht') }

/-- An iterator comes back or is lent to a call. -/
theorem Sound.iterate (h : s.Sound cap) {iters : List (Option TableIterator)}
    (hiters : ∀ it, some it ∈ iters → some it ∈ s.iters ∨ ∃ t ∈ s.tables, it.Belongs t) :
    ({ s with iters := iters } : SharedTables).Sound cap where
  distinct := h.distinct
  serves := h.serves
  iters := by
    intro it hit
    rcases hiters it hit with hold | hnew
    · exact h.iters it hold
    · exact hnew
  calls := h.calls

/-- A call begins, goes on or returns. -/
theorem Sound.call (h : s.Sound cap) {cache : BlockCache} {calls : List (Option (BlockReads Outcome))}
    (hserves : Serves s.tables cap cache)
    (hcalls : ∀ p, some p ∈ calls →
      some p ∈ s.calls ∨ ∃ t ∈ s.tables, p.All (Asked t) (Belongs t)) :
    ({ s with cache := cache, calls := calls } : SharedTables).Sound cap where
  distinct := h.distinct
  serves := hserves
  iters := h.iters
  calls := by
    intro p hp
    rcases hcalls p hp with hold | hnew
    · exact h.calls p hold
    · exact hnew

/-- Opening a table shows the same next to another cache. -/
theorem Sound.step_openTable (h : s.Sound cap) (hid : c.id = s.cache.id) {opt : Options}
    {file : RandomAccess} {size : Nat} (hfile : Unambiguous opt file size) :
    Mirrors (Beside cap) (s.step cachedRead (.openTable opt file size))
      (({ s with cache := c } : SharedTables).storedStep (.openTable opt file size)) := by
  obtain ⟨x, hparts, hnew⟩ := Table.new_eq opt file size
  unfold storedStep step
  dsimp only
  rw [hnew, hnew]
  rcases hx : x with e | e | parts
  · simp [Mirrors]
  · refine ⟨s, rfl, h, hid, rfl⟩
  · obtain ⟨hcacheId, hindex⟩ := hparts parts (s.cache.id + 1) hx
    by_cases hlimit : s.cache.id + 1 < wordLimit
    · have hleft := Cache.newCacheId_eq_ok_iff.mpr ⟨hlimit, rfl⟩
      have hright := Cache.newCacheId_eq_ok_iff.mpr ⟨hid ▸ hlimit, rfl⟩
      simp only [ok_bind, hleft, hright, hid]
      exact ⟨_, rfl, h.openTable hcacheId hlimit (hindex hfile), rfl, rfl⟩
    · have hleft : ∀ r, s.cache.newCacheId ≠ .ok r := fun r hr =>
        hlimit (Cache.newCacheId_eq_ok_iff.mp hr).1
      have hright : ∀ r, c.newCacheId ≠ .ok r := fun r hr =>
        hlimit (hid ▸ (Cache.newCacheId_eq_ok_iff.mp hr).1)
      rcases hl : s.cache.newCacheId with e | r
      · rcases hr : c.newCacheId with e' | r
        · simp [Mirrors]
        · exact absurd hr (hright r)
      · exact absurd hl (hleft r)

/-- A call reads the next block, or returns. -/
theorem Sound.step_work (h : s.Sound cap) (hid : c.id = s.cache.id) (k : Nat) :
    Mirrors (Beside cap) (s.step cachedRead (.work k))
      (({ s with cache := c } : SharedTables).storedStep (.work k)) := by
  unfold storedStep step
  dsimp only
  have hset : ∀ {p q : Option (BlockReads Outcome)}, p ∈ s.calls.set k q → p ∈ s.calls ∨ p = q :=
    fun hmem => List.mem_or_eq_of_mem_set hmem
  rcases hk : s.calls[k]? with _ | _ | out | e | ⟨i, next⟩
  · exact ⟨s, rfl, h, hid, rfl⟩
  · exact ⟨s, rfl, h, hid, rfl⟩
  · obtain ⟨t, ht, hall⟩ := h.calls _ (List.mem_of_getElem? hk)
    have hreturn : ({ s with calls := s.calls.set k none } : SharedTables).Sound cap := by
      refine h.call h.serves fun p hp => Or.inl ?_
      rcases hset hp with hold | hnew
      · exact hold
      · cases hnew
    cases out with
    | found r => exact ⟨_, rfl, hreturn, hid, rfl⟩
    | moved j moved it =>
        dsimp only [finish]
        cases it.current with
        | error e => simp [Mirrors]
        | ok entry =>
            refine ⟨_, rfl, hreturn.iterate ?_, hid, rfl⟩
            intro it' hit'
            rcases List.mem_or_eq_of_mem_set hit' with hold | hnew
            · exact Or.inl hold
            · obtain rfl := Option.some.inj hnew
              exact Or.inr ⟨t, ht, hall⟩
  · simp [Mirrors]
  · obtain ⟨t, ht, ⟨htable, hlists⟩, hnext⟩ := h.calls _ (List.mem_of_getElem? hk)
    obtain ⟨t', hd⟩ := i
    obtain rfl : t' = t := htable
    have hanswer := h.serves.readBlock h.distinct ht hlists
    dsimp only
    cases hread : storedRead (t', hd) with
    | error e =>
        rw [hread] at hanswer
        have hcached : cachedRead (t', hd) s.cache = .error e := hanswer
        simp [Mirrors, hcached]
    | ok r =>
        rw [hread] at hanswer
        obtain ⟨c', hcached, hserves, hid'⟩ := hanswer
        have hcached : cachedRead (t', hd) s.cache = .ok (r, c') := hcached
        rw [hcached]
        refine ⟨_, rfl, h.call hserves ?_, hid.trans hid'.symm, rfl⟩
        intro p hp
        rcases hset hp with hold | hnew
        · exact Or.inl hold
        · obtain rfl := Option.some.inj hnew
          exact Or.inr ⟨t', ht, hnext r⟩

/-- Every step of the tables shows what it shows without a cache. -/
theorem Sound.step (h : s.Sound cap) (hid : c.id = s.cache.id) (op : SharedOp)
    (hop : ∀ opt file size, op = .openTable opt file size → Unambiguous opt file size) :
    Mirrors (Beside cap) (s.step cachedRead op) (({ s with cache := c } : SharedTables).storedStep op) := by
  have hbegin : ∀ {p : BlockReads Outcome} {t : Table}, t ∈ s.tables → p.All (Asked t) (Belongs t) →
      ({ s with calls := s.calls ++ [some p] } : SharedTables).Sound cap := by
    intro p t ht hall
    refine h.call h.serves fun p' hp' => ?_
    rcases List.mem_append.mp hp' with hold | hnew
    · exact Or.inl hold
    · obtain rfl := Option.some.inj (List.mem_singleton.mp hnew)
      exact Or.inr ⟨t, ht, hall⟩
  cases op with
  | openTable opt file size => exact h.step_openTable hid (hop opt file size rfl)
  | cloneTable i =>
      unfold storedStep SharedTables.step
      dsimp only
      cases hi : s.tables[i]? with
      | none => exact ⟨s, rfl, h, hid, rfl⟩
      | some t => exact ⟨_, rfl, h.cloneTable (List.mem_of_getElem? hi), hid, rfl⟩
  | iterate i =>
      unfold storedStep SharedTables.step
      dsimp only
      cases hi : s.tables[i]? with
      | none => exact ⟨s, rfl, h, hid, rfl⟩
      | some t =>
          dsimp only
          cases hiter : t.iter with
          | error e => simp [Mirrors]
          | ok it =>
              refine ⟨_, rfl, h.iterate ?_, hid, rfl⟩
              intro it' hit'
              rcases List.mem_append.mp hit' with hold | hnew
              · exact Or.inl hold
              · obtain rfl := Option.some.inj (List.mem_singleton.mp hnew)
                exact Or.inr ⟨t, List.mem_of_getElem? hi, belongs_iter hiter⟩
  | get i key =>
      unfold storedStep SharedTables.step
      dsimp only
      cases hi : s.tables[i]? with
      | none => exact ⟨s, rfl, h, hid, rfl⟩
      | some t =>
          have hall : (do
              let r ← t.getReads key
              pure (.found r) : BlockReads Outcome).All (Asked t) (Belongs t) :=
            (t.getReads_all key).bind fun _ _ => trivial
          exact ⟨_, rfl, hbegin (List.mem_of_getElem? hi) hall, hid, rfl⟩
  | move j op =>
      unfold storedStep SharedTables.step
      dsimp only
      rcases hj : s.iters[j]? with _ | _ | it
      · exact ⟨s, rfl, h, hid, rfl⟩
      · exact ⟨s, rfl, h, hid, rfl⟩
      · obtain ⟨t, ht, hbelongs⟩ := h.iters it (List.mem_of_getElem? hj)
        have hall : (do
            let (moved, it) ← op.reads it
            pure (.moved j moved it) : BlockReads Outcome).All (Asked t) (Belongs t) :=
          (op.reads_all hbelongs).bind fun _ hr => hr
        refine ⟨_, rfl, (hbegin ht hall).iterate ?_, hid, rfl⟩
        intro it' hit'
        rcases List.mem_or_eq_of_mem_set hit' with hold | hnew
        · exact Or.inl hold
        · cases hnew
  | work k => exact h.step_work hid k

theorem Sound.answers {α : Type} {t : Table} {Q : α → Prop} {p : BlockReads α} (h : s.Sound cap)
    (ht : t ∈ s.tables) (hp : p.All (Asked t) Q) :
    Answers (fun c => Serves s.tables cap c) (p.run cachedRead s.cache) (p.eval storedRead) :=
  h.serves.answers h.distinct ht hp

theorem Beside.step {a : SharedTables} (h : Beside cap s a) (op : SharedOp)
    (hop : ∀ opt file size, op = .openTable opt file size → Unambiguous opt file size) :
    Mirrors (Beside cap) (s.step cachedRead op) (a.storedStep op) := by
  obtain ⟨hsound, hid, heq⟩ := h
  rw [heq]
  exact hsound.step hid op hop

/-- The tables stay sound over whole runs. -/
theorem Sound.run {ops : List SharedOp} {shown : List Shown} {s' : SharedTables} (h : s.Sound cap)
    (hfiles : ∀ opt file size, .openTable opt file size ∈ ops → Unambiguous opt file size)
    (hrun : runOps (SharedTables.step cachedRead) s ops = .ok (shown, s')) : s'.Sound cap := by
  refine runOps_keeps (Sound cap) ?_ h hrun
  intro s op hop hs w s' hstep
  have hmirror := hs.step (c := s.cache) rfl op fun opt file size heq =>
    hfiles opt file size (heq ▸ hop)
  rw [hstep] at hmirror
  obtain ⟨a, -, hbeside⟩ := hmirror.of_ok
  exact hbeside.1

end SharedTables

open SharedTables

/-! ## Written tables -/

/-- The handles in an ordered index are those of the data blocks. -/
theorem Table.Shows.lists {t : Table} {v : TableView} (hshows : t.Shows v) (hord : v.index.Ordered)
    {h : BlockHandle} (hlists : t.indexBlock.Lists h) : ∃ i : Nat, v.handles[i]? = some h := by
  obtain ⟨it₀, it, k, val, n, hiter, hdriven, hcurrent, hdecode⟩ := hlists
  obtain ⟨it₁, hiter₁, hstart⟩ := BlockIter.tracked_iter (b := t.indexBlock) v.index_small
    (hshows.index_eq ▸ hshows.cmp_eq) (hshows.index_eq ▸ rfl)
  obtain rfl : it₀ = it₁ := Except.ok.inj (hiter.symm.trans hiter₁)
  obtain ⟨τ, htracked⟩ := hdriven.tracked hord hstart
  have hplaced := htracked.placed
  cases hpos : τ.pos with
  | none =>
      rw [hpos] at hplaced
      have hun : BlockIter.Unplaced v.index it := hplaced
      rw [hun.current] at hcurrent
      cases hcurrent
  | some i =>
      rw [hpos] at hplaced
      obtain ⟨s, hat⟩ := hplaced
      rw [hat.current (hord.key_ne_nil s (List.mem_of_getElem? hat.slot_eq))] at hcurrent
      obtain ⟨hd, hhd, hval, hfits⟩ := v.slot_val hat.slot_eq
      have hread := BlockHandle.decode_encode hfits []
      have hsame : val = hd.encode :=
        (congrArg Prod.snd (Option.some.inj (Except.ok.inj hcurrent))).symm.trans hval
      rw [List.append_nil, ← hsame, hdecode] at hread
      obtain rfl : h = hd := congrArg Prod.fst (Except.ok.inj hread)
      exact ⟨i, hhd⟩

/-- A table whose index is ordered has no two handles with the same offset. -/
theorem Table.Shows.unambiguous {t : Table} {v : TableView} (hshows : t.Shows v)
    (hord : v.index.Ordered) : t.indexBlock.Unambiguous := by
  intro h h' hh hh' hoff
  obtain ⟨i, hi⟩ := hshows.lists hord hh
  obtain ⟨j, hj⟩ := hshows.lists hord hh'
  have hij : i = j := blockCacheHandle_injective (t := t) hi hj (congrArg t.blockCacheHandle hoff)
  subst hij
  exact Option.some.inj (hi.symm.trans hj)

theorem unambiguous_of_new {opt : Options} {file : RandomAccess} {size : Nat} {c c' : BlockCache}
    {t : Table} (hnew : Table.new opt file size c = .ok (.ok t, c'))
    (h : t.indexBlock.Unambiguous) : Unambiguous opt file size := by
  intro footer index hfooter hindex
  obtain ⟨-, -, hfooter', hindex', -⟩ := Table.new_eq_ok_iff.mp hnew
  obtain rfl := Except.ok.inj (Except.ok.inj (hfooter'.symm.trans hfooter))
  obtain rfl := Except.ok.inj (Except.ok.inj (hindex'.symm.trans hindex))
  exact h

/-- Tables that were written have no two handles with the same offset, whatever becomes of their
data blocks. -/
theorem written_unambiguous {opt ropt : Options} {es : List Entry} {n : Nat} {img : Bytes}
    {bad : Nat → Bool} {f : RandomAccess} (hcmp : opt.cmp = DefaultCmp)
    (hrcmp : ropt.cmp = DefaultCmp) (hinc : Increasing es) (hkeys : NonEmptyKeys es)
    (hlimits : BlockLimits opt es) (hwrite : TableBuilder.writeTable opt [] es = .ok (.ok n, img))
    (hsize : img.length ≤ maxAllocation) (hf : DefectiveData opt ropt (cuts opt es) img bad f) :
    Unambiguous ropt f n := by
  have hempty : (smallCache).Reachable := smallCache_reachable
  obtain ⟨fb, hs, t, reader, -, hnew, -, hshows, -⟩ :=
    open_written hcmp hrcmp hlimits hwrite hsize hf hempty (by decide)
  exact unambiguous_of_new hnew (hshows.unambiguous (hs.view_ordered bad hinc hkeys).index)

end

open SharedTables

/-! ## Whole runs -/

/-- Tables with a shared cache of any capacity, in whose indices no two handles have the same
offset, cannot be told from tables that read every block from their files.  In every state that is
reached, the cache is within its capacity and cannot fail, only absent keys are inserted, and what
is read, looked up or shown by an iterator depends on the table and the iterator alone. -/
theorem cache_transparent [Crates] {cap cap' : Nat} {c c' : BlockCache} (hc : Cache.new cap = .ok c)
    (hc' : Cache.new cap' = .ok c') (ops : List SharedOp)
    (hfiles : ∀ opt file size, .openTable opt file size ∈ ops → Unambiguous opt file size) :
    observe (SharedTables.step cachedRead) (start c) ops = observe storedStep (start c') ops ∧
    ∀ shown s, runOps (SharedTables.step cachedRead) (start c) ops = .ok (shown, s) →
      s.cache.count ≤ cap ∧
      (∀ key, ∃ r, s.cache.get key = .ok r) ∧
      (∀ key block, s.cache.find key = none → ∃ r, s.cache.insert key block = .ok r) ∧
      (∀ t ∈ s.tables, ∀ h, t.readBlock h s.cache = t.readBlockAbsent h s.cache) ∧
      (∀ t ∈ s.tables, ∀ h, t.indexBlock.Lists h →
        (t.readBlock h s.cache).map Prod.fst = readTableBlock t.opt t.file h) ∧
      (∀ t ∈ s.tables, ∀ key,
        (t.get key s.cache).map Prod.fst = (t.getReads key).eval storedRead) ∧
      ∀ it, some it ∈ s.iters → ∀ op,
        (TableOp.onIter it s.cache op).map (fun r => (r.1, r.2.1)) =
          (op.reads it).eval storedRead := by
  have hstart := sound_start hc
  constructor
  · have hbeside : Beside cap (start c) (start c') :=
      ⟨hstart, (Cache.models_new hc').2.2.trans (Cache.models_new hc).2.2.symm, rfl⟩
    refine observe_mirrors_of_mem (fun s a op hop h => ?_) hbeside
    exact h.step op fun opt file size heq => hfiles opt file size (heq ▸ hop)
  · intro shown s hrun
    have hs := hstart.run hfiles hrun
    have hwf := hs.serves.reachable.wellFormed
    refine ⟨hs.serves.cap_eq ▸ hwf.count_le, ?_, ?_, ?_, ?_, ?_, ?_⟩
    · intro key
      obtain ⟨list, hget, -⟩ := Cache.get_spec hwf key
      exact ⟨_, hget⟩
    · intro key block habsent
      obtain ⟨c₁, hinsert, -⟩ := Cache.insert_spec hwf habsent block
      exact ⟨c₁, hinsert⟩
    · exact fun t _ h => hs.serves.readBlock_absent t h
    · exact fun t ht h hlists => (hs.serves.readBlock hs.distinct ht hlists).map_fst
    · intro t ht key
      rw [t.get_eq]
      exact (hs.answers ht (t.getReads_all key)).map_fst
    · intro it hit op
      obtain ⟨t, ht, hbelongs⟩ := hs.iters it hit
      rw [← (hs.answers ht (op.reads_all hbelongs)).map_fst, TableOp.onIter_eq]
      cases (op.reads it).run cachedRead s.cache with
      | ok r => rfl
      | error e => rfl

/-- A block that begins with another one, its trailer included, is stored at the same offset. -/
def nestedImage : Bytes :=
  letI := referenceCrates
  let inner := envelope .CompressionNone ([0, 1, 1, 97, 1] ++ ([0, 0, 0, 0] ++ [1, 0, 0, 0]))
  let outer := inner ++ ([0, 1, 1, 99, 2] ++ ([18, 0, 0, 0] ++ [1, 0, 0, 0]))
  let index := [0, 1, 2, 98, 0, 13] ++ ([0, 1, 2, 100, 0, 31] ++
    ([0, 0, 0, 0] ++ ([6, 0, 0, 0] ++ [2, 0, 0, 0])))
  envelope .CompressionNone outer ++ (envelope .CompressionNone index ++
    (envelope .CompressionNone [0, 0, 0, 0, 1, 0, 0, 0] ++
      ({ metaIndex := ⟨65, 8⟩, index := ⟨36, 24⟩ } : Footer).bytes))

set_option maxRecDepth 10000 in
/-- The table holds two keys, each in the block that the index leads to, but once the first one has
been looked up, the second one is not found. -/
theorem offset_hides_block : letI := referenceCrates
    Cache.new 4 = .ok smallCache ∧
    observe (SharedTables.step cachedRead) (start smallCache)
        [.openTable .default (BufferBackedFile nestedImage) 126, .get 0 [97], .work 0, .work 0,
          .get 0 [99], .work 1, .work 1] =
      [some (.opened none), some .nothing, some .nothing, some (.found (.ok (some [1]))),
        some .nothing, some .nothing, some (.found (.ok none))] ∧
    observe storedStep (start smallCache)
        [.openTable .default (BufferBackedFile nestedImage) 126, .get 0 [97], .work 0, .work 0,
          .get 0 [99], .work 1, .work 1] =
      [some (.opened none), some .nothing, some .nothing, some (.found (.ok (some [1]))),
        some .nothing, some .nothing, some (.found (.ok (some [2])))] := by
  refine ⟨rfl, ?_, ?_⟩
  · decide +kernel
  · decide +kernel

/-- Two tables opened on one file share a cache for a single block. -/
theorem cache_transparent_neighbours : letI := referenceCrates
    observe (SharedTables.step cachedRead) (start { smallCache with cap := 1 })
        [.openTable .default (BufferBackedFile neighboursImage) 211,
          .openTable .default (BufferBackedFile neighboursImage) 211, .get 0 [97], .get 1 [98],
          .work 0, .work 1, .work 1, .work 0] =
      observe storedStep (start smallCache)
        [.openTable .default (BufferBackedFile neighboursImage) 211,
          .openTable .default (BufferBackedFile neighboursImage) 211, .get 0 [97], .get 1 [98],
          .work 0, .work 1, .work 1, .work 0] := by
  let := referenceCrates
  have hfile : Unambiguous .default (BufferBackedFile neighboursImage) 211 :=
    written_unambiguous rfl rfl (by decide) (by decide) neighbours_blockLimits neighboursImage_eq
      neighboursImage_small (defectiveData_none _ _ _ _)
  have hsingle : Cache.new 1 = .ok { smallCache with cap := 1 } := rfl
  have hfour : Cache.new 4 = .ok smallCache := rfl
  refine (cache_transparent hsingle hfour _ ?_).1
  intro opt file size hmem
  simp only [List.mem_cons, SharedOp.openTable.injEq, reduceCtorEq, List.not_mem_nil, or_false,
    or_self] at hmem
  obtain ⟨rfl, rfl, rfl⟩ := hmem
  exact hfile

end SSTable
