import SSTable.Verification.Cache.Recency
import SSTable.Verification.Table.Locking

/-!
# Which blocks are found in the cache

The cache holds the blocks that were read last, whoever read them and in whatever order.  So a
block is read from its file again exactly when too many other blocks were read since, and a cache
with more room never makes a read from a file necessary that one with less room saves.

Main results:

- Theorem {lit}`Cache.Simulates.readBlock`: reading a block through the cache fetches its key.
- Theorem {lit}`found_iff_recent`: the blocks that are found are those that were read last.
- Theorem {lit}`fileReads_antitone`: a cache with more room saves at least as many reads.
-/

namespace SSTable

open Foundation Foundation.Exec Foundation.Bytes Foundation.Calls

/-! ## One read -/

/-- Giving out an id does not use a key. -/
theorem Cache.Simulates.newCacheId {c : BlockCache} {m : Recency CacheKey Block}
    (h : c.Simulates m) (id : CacheID) : ({ c with id := id } : BlockCache).Simulates m := by
  obtain ⟨hcap, es, hes, hentries⟩ := h
  exact ⟨hcap, es, { hes with }, hentries⟩

section

variable [Crates]

/-- The use of a key for a block that was read. -/
def fetchRead (m : Recency CacheKey Block) (key : CacheKey) : Result Block → Recency CacheKey Block
  | .ok b => m.fetch key b
  | .error _ => m

/-- Reading a block through the cache fetches its key, and a read that fails uses no key. -/
theorem Cache.Simulates.readBlock {ts : List Table} {cap : Nat} {c : BlockCache}
    {m : Recency CacheKey Block} {t : Table} {h : BlockHandle} (hsim : c.Simulates m)
    (hserves : Serves ts cap c) (ht : t ∈ ts) (hlists : t.indexBlock.Lists h) {r : Result Block}
    (hread : storedRead (t, h) = .ok r) :
    ∃ c', cachedRead (t, h) c = .ok (r, c') ∧
      c'.Simulates (fetchRead m (t.blockCacheHandle h.offset) r) := by
  obtain ⟨c₁, hget, hsim₁⟩ := hsim.get (t.blockCacheHandle h.offset)
  have hread : readTableBlock t.opt t.file h = .ok r := hread
  unfold cachedRead Table.readBlock
  cases hfind : m.find (t.blockCacheHandle h.offset) with
  | some block =>
      rw [hfind] at hget
      have hfound : c.find (t.blockCacheHandle h.offset) = some block :=
        (hsim.find_eq _).trans hfind
      have hstored := hserves.faithful t ht h block hlists hfound
      obtain rfl := Except.ok.inj (hread.symm.trans hstored)
      have hfetch : m.fetch (t.blockCacheHandle h.offset) block =
          m.touch (t.blockCacheHandle h.offset) := if_pos (by simp [hfind])
      refine ⟨c₁, by simp [hget], ?_⟩
      rw [fetchRead, hfetch]
      exact hsim₁
  | none =>
      rw [hfind] at hget
      rw [Recency.touch_of_none hfind] at hsim₁
      cases r with
      | error e => exact ⟨c₁, by simp [hget, hread], hsim₁⟩
      | ok b =>
          have habsent : c₁.find (t.blockCacheHandle h.offset) = none :=
            (hsim₁.find_eq _).trans hfind
          obtain ⟨c₂, hinsert, hsim₂⟩ := hsim₁.insert habsent b
          have hfetch : m.fetch (t.blockCacheHandle h.offset) b =
              m.insert (t.blockCacheHandle h.offset) b := if_neg (by simp [hfind])
          refine ⟨c₂, by simp [hget, hread, hinsert], ?_⟩
          rw [fetchRead, hfetch]
          exact hsim₂

/-- A block that is found is not read from the file. -/
theorem cachedRead_of_found {t : Table} {h : BlockHandle} {c : BlockCache} {b : Block}
    (hc : c.Reachable) (hfind : c.find (t.blockCacheHandle h.offset) = some b)
    (φ : Table → RandomAccess) : fileRead φ (t, h) c = cachedRead (t, h) c := by
  obtain ⟨list, hget, -⟩ := Cache.get_spec hc.wellFormed (t.blockCacheHandle h.offset)
  rw [hfind] at hget
  have hkey : (t.onFile φ).blockCacheHandle h.offset = t.blockCacheHandle h.offset := rfl
  unfold fileRead cachedRead Table.readBlock
  simp only [hkey, hget, ok_bind]

/-! ## The reads of a run -/

namespace LockedTables

/-- The read of a block that a step makes. -/
def reading (s : LockedTables) : SharedOp → Option (Table × BlockHandle)
  | .work k =>
      if s.lock.poisoned then
        none
      else
        match s.calls[k]? with
        | some (some (.call i _)) => some i
        | _ => none
  | _ => none

/-- The key of a block that a step reads without an error. -/
def readKey (s : LockedTables) (op : SharedOp) : Option CacheKey :=
  match s.reading op with
  | none => none
  | some i =>
      match storedRead i with
      | .ok (.ok _) => some (i.1.blockCacheHandle i.2.offset)
      | _ => none

/-- The keys of the blocks that are read without an error, in the order of the reads. -/
def readKeys (s : LockedTables) : List SharedOp → List CacheKey
  | [] => []
  | op :: ops => (s.readKey op).toList ++ readKeys (s.step plainRead op).2 ops

/-- A step reads a block that is not in the cache. -/
def readsFile (s : LockedTables) (op : SharedOp) : Bool :=
  match s.reading op with
  | none => false
  | some i => (s.lock.cache.find (i.1.blockCacheHandle i.2.offset)).isNone

/-- The number of blocks that are read from files. -/
def fileReads (s : LockedTables) : List SharedOp → Nat
  | [] => 0
  | op :: ops => (s.readsFile op).toNat + fileReads (s.step cachedRead op).2 ops

/-- The cache holds the blocks whose keys were read last. -/
def KeepsLast (cap : Nat) (s : LockedTables) (ks : List CacheKey) : Prop :=
  ∃ m : Recency CacheKey Block, s.lock.cache.Simulates m ∧ m.cap = cap ∧
    m.keys = (Recency.recent ks).take cap

variable {cap : Nat} {s a : LockedTables} {ks : List CacheKey}

/-- A step that reads no block leaves the entries of the cache alone. -/
theorem step_cache_of_not_reading (read : BlockRead) {op : SharedOp} (h : s.reading op = none) :
    ∃ id, (s.step read op).2.lock.cache = { s.lock.cache with id := id } := by
  cases op with
  | openTable opt file size =>
      unfold step Table.newLocked
      dsimp only
      rcases Table.prepare opt file size with e | e | parts
      · exact ⟨_, rfl⟩
      · exact ⟨_, rfl⟩
      · dsimp only
        cases hpoisoned : s.lock.poisoned with
        | true =>
            rw [SharedCache.write_of_poisoned hpoisoned]
            exact ⟨_, rfl⟩
        | false =>
            by_cases hlimit : s.lock.cache.id + 1 < wordLimit
            · rw [SharedCache.write_of_ok hpoisoned (Table.issue_of_lt parts hlimit)]
              exact ⟨_, rfl⟩
            · rw [SharedCache.write_of_error hpoisoned
                (Table.issue_of_le parts (not_lt.mp hlimit))]
              exact ⟨_, rfl⟩
  | cloneTable i =>
      unfold step
      dsimp only
      cases s.tables[i]? with
      | none => exact ⟨_, rfl⟩
      | some t => exact ⟨_, rfl⟩
  | iterate i =>
      unfold step
      dsimp only
      cases s.tables[i]? with
      | none => exact ⟨_, rfl⟩
      | some t =>
          dsimp only
          cases t.iter with
          | error e => exact ⟨_, rfl⟩
          | ok it => exact ⟨_, rfl⟩
  | get i key =>
      unfold step
      dsimp only
      cases s.tables[i]? with
      | none => exact ⟨_, rfl⟩
      | some t => exact ⟨_, rfl⟩
  | move j op =>
      unfold step
      dsimp only
      rcases s.iters[j]? with _ | _ | it
      · exact ⟨_, rfl⟩
      · exact ⟨_, rfl⟩
      · exact ⟨_, rfl⟩
  | work k =>
      unfold reading at h
      unfold step
      dsimp only at h ⊢
      rcases hk : s.calls[k]? with _ | _ | out | e | ⟨i, next⟩
      · exact ⟨_, rfl⟩
      · exact ⟨_, rfl⟩
      · cases out with
        | found r => exact ⟨_, rfl⟩
        | moved j moved it =>
            dsimp only [finish]
            cases it.current with
            | error e => exact ⟨_, rfl⟩
            | ok entry => exact ⟨_, rfl⟩
      · exact ⟨_, rfl⟩
      · cases hpoisoned : s.lock.poisoned with
        | true =>
            dsimp only
            rw [SharedCache.write_of_poisoned hpoisoned]
            exact ⟨_, rfl⟩
        | false => simp [hk, hpoisoned] at h

omit [Crates] in
/-- A step that reads a block is a step of a call, while the lock is free. -/
theorem reading_eq_some {op : SharedOp} {i : Table × BlockHandle} (h : s.reading op = some i) :
    s.lock.poisoned = false ∧ ∃ k next, op = .work k ∧
      s.calls[k]? = some (some (.call i next)) := by
  cases op with
  | work k =>
      unfold reading at h
      dsimp only at h
      split at h
      · cases h
      · rename_i hpoisoned
        split at h
        · rename_i next hk
          obtain rfl := Option.some.inj h
          exact ⟨by simpa using hpoisoned, k, _, rfl, hk⟩
        · cases h
  | openTable opt file size => cases h
  | cloneTable i => cases h
  | iterate i => cases h
  | get i key => cases h
  | move j op => cases h

theorem step_cache_of_reading {op : SharedOp} {i : Table × BlockHandle} {r : Result Block}
    {c : BlockCache} (h : s.reading op = some i) (hread : cachedRead i s.lock.cache = .ok (r, c)) :
    (s.step cachedRead op).2.lock.cache = c := by
  obtain ⟨hpoisoned, k, next, rfl, hk⟩ := reading_eq_some h
  unfold step
  simp only [hk]
  rw [SharedCache.write_of_ok hpoisoned hread]

/-- A step keeps the blocks that were read last. -/
theorem KeepsLast.step (hsound : s.shared.Sound cap) (h : s.KeepsLast cap ks) (op : SharedOp) :
    (s.step cachedRead op).2.KeepsLast cap (ks ++ (s.readKey op).toList) := by
  obtain ⟨m, hsim, hcap, hkeys⟩ := h
  subst hcap
  unfold readKey
  cases hreading : s.reading op with
  | none =>
      obtain ⟨id, hcache⟩ := step_cache_of_not_reading cachedRead hreading
      refine ⟨m, ?_, rfl, by simpa using hkeys⟩
      rw [hcache]
      exact hsim.newCacheId id
  | some i =>
      obtain ⟨hpoisoned, k, next, rfl, hk⟩ := reading_eq_some hreading
      obtain ⟨t, ht, ⟨htable, hlists⟩, -⟩ := hsound.calls _ (List.mem_of_getElem? hk)
      obtain ⟨t', hd⟩ := i
      obtain rfl : t' = t := htable
      dsimp only
      cases hstored : storedRead (t', hd) with
      | error e =>
          have hanswer := hsound.serves.readBlock hsound.distinct ht hlists
          rw [hstored] at hanswer
          have hcached : cachedRead (t', hd) s.lock.cache = .error e := hanswer
          refine ⟨m, ?_, rfl, by simpa using hkeys⟩
          unfold LockedTables.step
          simp only [hk]
          rw [SharedCache.write_of_error hpoisoned hcached]
          exact hsim
      | ok r =>
          obtain ⟨c', hcached, hsim'⟩ := hsim.readBlock hsound.serves ht hlists hstored
          have hcache := step_cache_of_reading hreading hcached
          cases r with
          | error e => exact ⟨m, hcache ▸ hsim', rfl, by simpa using hkeys⟩
          | ok b =>
              refine ⟨_, hcache ▸ hsim', Recency.cap_fetch .., ?_⟩
              exact Recency.keys_fetch_of_recent hkeys _ b

/-- The same blocks are read next to another cache. -/
theorem Beside.reading_eq (h : Beside cap s a) (op : SharedOp) : a.reading op = s.reading op := by
  obtain ⟨-, -, heq⟩ := h
  rw [heq]
  cases op with
  | openTable opt file size => rfl
  | cloneTable i => rfl
  | iterate i => rfl
  | get i key => rfl
  | move j op => rfl
  | work k => rfl

theorem Beside.readKey_eq (h : Beside cap s a) (op : SharedOp) : a.readKey op = s.readKey op := by
  rw [readKey, readKey, h.reading_eq op]

theorem Beside.step (h : Beside cap s a) (op : SharedOp)
    (hop : ∀ opt file size, op = .openTable opt file size → Unambiguous opt file size) :
    Beside cap (s.step cachedRead op).2 (a.step plainRead op).2 := by
  obtain ⟨hsound, hid, heq⟩ := h
  rw [heq]
  exact (step_mirrors hsound hid op hop).2

/-- What is in the cache depends on the reads and the room, and on nothing else. -/
theorem keepsLast_run (hbeside : Beside cap s a) (h : s.KeepsLast cap ks) (ops : List SharedOp)
    (hfiles : ∀ opt file size, .openTable opt file size ∈ ops → Unambiguous opt file size) :
    Beside cap (traceOps (step cachedRead) s ops).2 (traceOps (step plainRead) a ops).2 ∧
      (traceOps (step cachedRead) s ops).2.KeepsLast cap (ks ++ a.readKeys ops) := by
  induction ops generalizing s a ks with
  | nil =>
      rw [readKeys, List.append_nil]
      exact ⟨hbeside, h⟩
  | cons op ops ih =>
      have hstep := hbeside.step op fun opt file size heq =>
        hfiles opt file size (heq ▸ List.mem_cons_self)
      have hkeeps := KeepsLast.step hbeside.1 h op
      rw [← hbeside.readKey_eq op] at hkeeps
      have hrest := ih hstep hkeeps fun opt file size hmem =>
        hfiles opt file size (List.mem_cons_of_mem _ hmem)
      rw [readKeys, ← List.append_assoc]
      exact hrest

omit [Crates] in
/-- What is found is what was read last. -/
theorem KeepsLast.find_iff (h : s.KeepsLast cap ks) {key : CacheKey} :
    (∃ b, s.lock.cache.find key = some b) ↔
      ∃ xs ys, ks = xs ++ key :: ys ∧ key ∉ ys ∧ ys.toFinset.card < cap := by
  obtain ⟨m, hsim, -, hkeys⟩ := h
  rw [← Option.isSome_iff_exists, hsim.find_eq key, ← Option.ne_none_iff_isSome, Ne,
    Recency.find_eq_none_iff, not_not, hkeys, Recency.mem_take_recent_iff]
  simp only [Recency.length_recent]

omit [Crates] in
theorem keepsLast_start {lock : SharedCache} (h : withCacheCapacity cap = .ok lock) :
    (start lock).KeepsLast cap [] := by
  simp only [withCacheCapacity, bind_eq_ok_iff, pure_eq_ok, Except.ok.injEq] at h
  obtain ⟨c, hc, rfl⟩ := h
  have hcap : 0 < cap := by
    simp only [Cache.new, bind_eq_ok_iff, ensure_eq_ok_iff] at hc
    obtain ⟨-, hcap, -⟩ := hc
    exact hcap
  obtain ⟨c', hc', hempty⟩ := Cache.exists_new (T := Block) hcap
  obtain rfl := Except.ok.inj (hc.symm.trans hc')
  exact ⟨_, hempty, rfl, by simp [Recency.empty, Recency.keys, Recency.recent]⟩

/-- What is found where there is less room is found where there is more. -/
theorem readsFile_le {cap' : Nat} {s' : LockedTables} (hle : cap ≤ cap') (hbeside : Beside cap s a)
    (hbeside' : Beside cap' s' a) (h : s.KeepsLast cap ks) (h' : s'.KeepsLast cap' ks)
    (op : SharedOp) : (s'.readsFile op).toNat ≤ (s.readsFile op).toNat := by
  unfold readsFile
  rw [← hbeside.reading_eq op, ← hbeside'.reading_eq op]
  cases a.reading op with
  | none => exact le_rfl
  | some i =>
      dsimp only
      cases hfind : s.lock.cache.find (i.1.blockCacheHandle i.2.offset) with
      | none => exact Bool.toNat_le _
      | some b =>
          obtain ⟨xs, ys, hks, hout, hlt⟩ := h.find_iff.mp ⟨b, hfind⟩
          obtain ⟨b', hfind'⟩ := h'.find_iff.mpr ⟨xs, ys, hks, hout, hlt.trans_le hle⟩
          rw [hfind']
          exact le_rfl

theorem fileReads_le {cap' : Nat} {s' : LockedTables} (hle : cap ≤ cap') (hbeside : Beside cap s a)
    (hbeside' : Beside cap' s' a) (h : s.KeepsLast cap ks) (h' : s'.KeepsLast cap' ks)
    (ops : List SharedOp)
    (hfiles : ∀ opt file size, .openTable opt file size ∈ ops → Unambiguous opt file size) :
    s'.fileReads ops ≤ s.fileReads ops := by
  induction ops generalizing s s' a ks with
  | nil => exact le_rfl
  | cons op ops ih =>
      have hop : ∀ opt file size, op = .openTable opt file size → Unambiguous opt file size :=
        fun opt file size heq => hfiles opt file size (heq ▸ List.mem_cons_self)
      have hkeeps := h.step hbeside.1 op
      have hkeeps' := h'.step hbeside'.1 op
      rw [← hbeside.readKey_eq op] at hkeeps
      rw [← hbeside'.readKey_eq op] at hkeeps'
      have hrest := ih (hbeside.step op hop) (hbeside'.step op hop) hkeeps hkeeps'
        fun opt file size hmem => hfiles opt file size (List.mem_cons_of_mem _ hmem)
      exact Nat.add_le_add (readsFile_le hle hbeside hbeside' h h' op) hrest

end LockedTables

end

open LockedTables

/-- Whatever the users of a cache do, and in whatever order: a block is found in the cache if it has
been read, and since it was read last, fewer other blocks have been read than there is room for.
The reads are those that are made with any other room, or none. -/
theorem found_iff_recent [Crates] {cap cap' : Nat} {lock lock' : SharedCache}
    (h : withCacheCapacity cap = .ok lock) (h' : withCacheCapacity cap' = .ok lock')
    (ops : List SharedOp)
    (hfiles : ∀ opt file size, .openTable opt file size ∈ ops → Unambiguous opt file size)
    (key : CacheKey) :
    (∃ b, (reached lock ops).lock.cache.find key = some b) ↔
      ∃ xs ys, (start lock').readKeys ops = xs ++ key :: ys ∧ key ∉ ys ∧
        ys.toFinset.card < cap := by
  have hrun := keepsLast_run (beside_start h h') (keepsLast_start h) ops hfiles
  rw [List.nil_append] at hrun
  exact hrun.2.find_iff

set_option maxRecDepth 20000 in
/-- A block that has been read is found. -/
theorem found_iff_recent_short_block : letI := referenceCrates
    ∃ b, (reached (share smallCache) (shortBlockOps.take 3)).lock.cache.find
      (leBytes 8 1 ++ leBytes 8 0) = some b := by
  let := referenceCrates
  have hfour : withCacheCapacity 4 = .ok (share smallCache) := rfl
  have hsingle : withCacheCapacity 1 = .ok (share { smallCache with cap := 1 }) := rfl
  refine (found_iff_recent hfour hsingle (shortBlockOps.take 3) ?_ _).mpr
    ⟨[], [], rfl, by simp, by simp⟩
  exact fun opt file size hmem => shortBlockOps_files opt file size
    (List.mem_append_left _ (List.mem_of_mem_take hmem))

/-- A cache with more room never reads more blocks from the files, whatever its users do, and in
whatever order.  A block that is not counted is not read from the file at all. -/
theorem fileReads_antitone [Crates] {cap cap' : Nat} {lock lock' : SharedCache}
    (h : withCacheCapacity cap = .ok lock) (h' : withCacheCapacity cap' = .ok lock')
    (hle : cap ≤ cap') (ops : List SharedOp)
    (hfiles : ∀ opt file size, .openTable opt file size ∈ ops → Unambiguous opt file size) :
    (start lock').fileReads ops ≤ (start lock).fileReads ops ∧
    ∀ before op after i, ops = before ++ op :: after →
      (reached lock before).reading op = some i → (reached lock before).readsFile op = false →
        ∀ φ, fileRead φ i (reached lock before).lock.cache =
          cachedRead i (reached lock before).lock.cache := by
  refine ⟨fileReads_le hle (beside_start h h') (beside_start h' h') (keepsLast_start h)
    (keepsLast_start h') ops hfiles, ?_⟩
  rintro before op after i rfl hreading hfound φ
  have hsound := sound_reached h before fun opt file size hmem =>
    hfiles opt file size (List.mem_append_left _ hmem)
  rw [readsFile, hreading, Option.isNone_eq_false_iff, Option.isSome_iff_exists] at hfound
  obtain ⟨b, hfind⟩ := hfound
  exact cachedRead_of_found hsound.serves.reachable hfind φ

/-- Two blocks of one table are read by turns. -/
def alternateOps : List SharedOp :=
  [.openTable .default (BufferBackedFile neighboursImage) 211, .get 0 [97], .get 0 [98],
    .get 0 [97], .work 0, .work 1, .work 2]

set_option maxRecDepth 20000 in
theorem fileReads_antitone_neighbours : letI := referenceCrates
    (start (share { smallCache with cap := 1 })).fileReads alternateOps = 3 ∧
      (start (share smallCache)).fileReads alternateOps = 2 ∧
      (start (share smallCache)).fileReads alternateOps ≤
        (start (share { smallCache with cap := 1 })).fileReads alternateOps := by
  let := referenceCrates
  have hfour : withCacheCapacity 4 = .ok (share smallCache) := rfl
  have hsingle : withCacheCapacity 1 = .ok (share { smallCache with cap := 1 }) := rfl
  have hfile : Unambiguous .default (BufferBackedFile neighboursImage) 211 :=
    written_unambiguous rfl rfl (by decide) (by decide) neighbours_blockLimits neighboursImage_eq
      neighboursImage_small (defectiveData_none _ _ _ _)
  refine ⟨rfl, rfl, (fileReads_antitone hsingle hfour (by decide) alternateOps ?_).1⟩
  intro opt file size hmem
  simp only [alternateOps, List.mem_cons, SharedOp.openTable.injEq, reduceCtorEq,
    List.not_mem_nil, or_false] at hmem
  obtain ⟨rfl, rfl, rfl⟩ := hmem
  exact hfile

end SSTable
