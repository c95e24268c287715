import SSTable.Verification.Block.EmptyKeys
import SSTable.Verification.Table.Atomicity
import SSTable.Verification.Table.Getting
import SSTable.Verification.Table.Refinement

/-!
# Written tables as one store

Any number of users open tables that were written before, look keys up in them and move iterators
over them, all through one block cache behind its lock.  What they see is what a store shows that
has no files, no blocks in memory and no cache: it knows the runs of entries of every table and the
places of the cursors, and does every call in the moment it is called.

Main results:

- Theorem {lit}`find_writtenRuns_iff`: when the store finds what was written.
- Theorem {lit}`LockedTables.Follows.step`: the store can follow every step of the tables.
- Theorem {lit}`tables_refine_store`: what is seen of a run is a run of the store, and every call
  comes to its end.
-/

namespace SSTable

open Foundation Foundation.Exec Foundation.Bytes Foundation.Calls

/-! ## The store -/

/-- What is still to come of a call: what it shows and the cursor that it gives back, or a panic. -/
abbrev Pending := Exec (Shown × Option (Nat × TableRuns × RunCursor))

/-- The runs of the tables that are open, the cursors that are not lent to a call, and the calls. -/
structure RunStore where
  tables : List (TableRuns)
  iters : List (Option (TableRuns × RunCursor))
  calls : List (Option Pending)

namespace RunStore

/-- A store without tables. -/
def empty : RunStore where
  tables := []
  iters := []
  calls := []

/-- What a lookup shows. -/
def get (r : TableRuns) (key : Bytes) : Pending := pure (.found (.ok (r.find key)), none)

/-- What a move of a cursor shows, and where the cursor is then. -/
def move (j : Nat) (r : TableRuns) (p : RunCursor) (op : TableOp) : Pending := do
  let (o, p) ← runsStep r p op
  pure (.moved o, some (j, r, p))

/-- A call that is over gives back its cursor. -/
def giveBack (a : RunStore) (k : Nat) : Option (Nat × TableRuns × RunCursor) → RunStore
  | none => { a with calls := a.calls.set k none }
  | some (j, r, p) => { a with calls := a.calls.set k none, iters := a.iters.set j (some (r, p)) }

/-- The steps of the store, with what they show.  A lookup or a move is done in the step that calls
it; how many turns the call then takes until it shows what it came to is left open.  The lookup of a
key that is too long for a filter may also come to a panic. -/
inductive Next (holds : Options → RandomAccess → Nat → TableRuns → Prop) :
    RunStore → SharedOp → Exec Shown → RunStore → Prop
  | opens {a : RunStore} {opt : Options} {file : RandomAccess} {size : Nat} {r : TableRuns}
      (hfile : holds opt file size r) : Next holds a (.openTable opt file size) (.ok (.opened none))
        { a with tables := a.tables ++ [r] }
  | clones {a : RunStore} {i : Nat} {r : TableRuns} (hi : a.tables[i]? = some r) :
      Next holds a (.cloneTable i) (.ok .nothing) { a with tables := a.tables ++ [r] }
  | iterates {a : RunStore} {i : Nat} {r : TableRuns} (hi : a.tables[i]? = some r) :
      Next holds a (.iterate i) (.ok .nothing) { a with iters := a.iters ++ [some (r, .start)] }
  | gets {a : RunStore} {i : Nat} {r : TableRuns} {key : Bytes} (hi : a.tables[i]? = some r) :
      Next holds a (.get i key) (.ok .nothing) { a with calls := a.calls ++ [some (get r key)] }
  | overflows {a : RunStore} {i : Nat} {r : TableRuns} {key : Bytes} (hi : a.tables[i]? = some r)
      (hlong : ¬ BloomPolicy.HasHash key) : Next holds a (.get i key) (.ok .nothing)
        { a with calls := a.calls ++ [some (.error .arithmetic)] }
  | moves {a : RunStore} {j : Nat} {r : TableRuns} {p : RunCursor} {op : TableOp}
      (hj : a.iters[j]? = some (some (r, p))) : Next holds a (.move j op) (.ok .nothing)
        { a with iters := a.iters.set j none, calls := a.calls ++ [some (move j r p op)] }
  | noTable {a : RunStore} {i : Nat} {op : SharedOp} (hi : a.tables[i]? = none)
      (hop : op = .cloneTable i ∨ op = .iterate i ∨ ∃ key, op = .get i key) :
      Next holds a op (.ok .nothing) a
  | noIter {a : RunStore} {j : Nat} {op : TableOp} (hj : a.iters[j]?.join = none) :
      Next holds a (.move j op) (.ok .nothing) a
  | waits {a : RunStore} {k : Nat} : Next holds a (.work k) (.ok .nothing) a
  | shows {a : RunStore} {k : Nat} {w : Shown} {back : Option (Nat × TableRuns × RunCursor)}
      (hk : a.calls[k]? = some (some (.ok (w, back)))) :
      Next holds a (.work k) (.ok w) (a.giveBack k back)
  | panics {a : RunStore} {k : Nat} {e e' : Fault} (hk : a.calls[k]? = some (some (.error e))) :
      Next holds a (.work k) (.error e') { a with calls := a.calls.set k none }

end RunStore

section

variable [Crates]

/-! ## The tables -/

/-- A file holds a table that was written with a bloom filter, and is opened with one: its runs are
those between the cuts of the writer. -/
def HoldsRuns (ropt : Options) (file : RandomAccess) (size : Nat) (r : TableRuns) : Prop :=
  ∃ (opt : Options) (p p' : BloomPolicy) (es : List Entry) (img : Bytes),
    opt.cmp = DefaultCmp ∧ ropt.cmp = DefaultCmp ∧ opt.filterPolicy = p.toFilterPolicy ∧
      ropt.filterPolicy = p'.toFilterPolicy ∧ Increasing es ∧ NonEmptyKeys es ∧ SizeLimits opt es ∧
      TableBuilder.writeTable opt [] es = .ok (.ok size, img) ∧ img.length ≤ maxAllocation ∧
      DefectiveData opt ropt (cuts opt es) img (fun _ => false) file ∧
      r = writtenRuns opt es fun _ => false

/-- A table shows the runs of a store. -/
structure Table.ShowsRuns (t : Table) (v : TableView) (r : TableRuns) : Prop where
  shows_view : t.Shows v
  ordered : v.Ordered
  runs : v.ShowsRuns r
  readable : ∀ b ∈ v.blocks, ∃ L, b = some L
  filters : ∀ key, BloomPolicy.HasHash key → t.FiltersAdmit v key
  faults : ∀ key, ¬ BloomPolicy.HasHash key → ∀ hd ∈ v.handles,
    t.filterAdmits hd key = .error .arithmetic

variable {t : Table} {v : TableView} {r : TableRuns} {c : BlockCache}

/-- No run has a key twice. -/
theorem Table.ShowsRuns.nodup (h : t.ShowsRuns v r) (i : Nat) :
    ((r.entriesAt i).map Prod.fst).Nodup := by
  rw [h.runs.entriesAt_eq]
  cases hb : v.blocks[i]? with
  | none => simp [TableView.entriesAt, hb]
  | some b =>
      obtain ⟨L, rfl⟩ := h.readable b (List.mem_of_getElem? hb)
      have hlt := (h.ordered.block L (List.mem_of_getElem? hb)).keys_lt
      rw [v.entriesAt_of_some hb]
      rw [← BlockLayout.keysOf_entries] at hlt
      exact hlt.imp fun hlt => ne_of_lt hlt

/-- What is found in a table whose filters answer is found in the store. -/
theorem Table.ShowsRuns.get_eq (h : t.ShowsRuns v r) (hserves : CacheServes t v c) (key : Bytes)
    (filters : Option FilterBlockReader)
    (hfilters : ({ t with filters := filters } : Table).FiltersAdmit v key) :
    ∃ c', ({ t with filters := filters } : Table).get key c = .ok (.ok (r.find key), c') := by
  obtain ⟨found, c', hget, hfound⟩ := Table.get_spec (h.shows_view.withFilters filters) h.ordered
    (hserves.withFilters filters) h.readable hfilters
  have hsame : found = r.find key := by
    apply Option.ext
    intro val
    rw [hfound, IndexedRuns.find_eq_some_iff h.nodup, h.runs.index_eq]
    constructor
    · rintro ⟨i, L, hbound, hne, hL, hmem⟩
      exact ⟨i, hbound, hne, by rwa [h.runs.entriesAt_eq, v.entriesAt_of_some hL]⟩
    · rintro ⟨i, hbound, hne, hmem⟩
      obtain ⟨L, hL⟩ : ∃ L, v.blocks[i]? = some (some L) := by
        rw [h.runs.entriesAt_eq, TableView.entriesAt] at hmem
        cases hb : v.blocks[i]? with
        | none => simp [hb] at hmem
        | some b =>
            obtain ⟨L, rfl⟩ := h.readable b (List.mem_of_getElem? hb)
            exact ⟨L, rfl⟩
      rw [h.runs.entriesAt_eq, v.entriesAt_of_some hL] at hmem
      exact ⟨i, L, hbound, hne, hL, hmem⟩
  exact ⟨c', by rw [hget, hsame]⟩

/-- What is found in a table is found in the store, unless the lookup stops at a key without a
hash. -/
theorem Table.ShowsRuns.get_cases (h : t.ShowsRuns v r) (hserves : CacheServes t v c)
    (key : Bytes) :
    (∃ c', t.get key c = .ok (.ok (r.find key), c')) ∨
      (¬ BloomPolicy.HasHash key ∧ t.get key c = .error .arithmetic) := by
  by_cases hkey : BloomPolicy.HasHash key
  · exact Or.inl (h.get_eq hserves key t.filters (h.filters key hkey))
  · obtain ⟨c', hplain⟩ := h.get_eq hserves key none
      (fun _ _ => ⟨true, rfl, fun hfalse => by cases hfalse⟩)
    have hnone : t.findBlock key = .ok none → ∃ c', t.get key c = .ok (.ok (r.find key), c') := by
      intro hfind
      rw [Table.get_of_findBlock_none hfind none, Except.ok.injEq, Prod.mk.injEq,
        Except.ok.injEq] at hplain
      rw [← hplain.1]
      exact ⟨c, Table.get_of_findBlock_none hfind t.filters⟩
    have hfind := Table.findBlock_spec h.shows_view h.ordered key
    split at hfind
    · exact Or.inl (hnone hfind)
    · split at hfind
      · exact Or.inl (hnone hfind)
      · obtain ⟨hd, hhd, hfind⟩ := hfind
        have hfault := h.faults key hkey hd (List.mem_of_getElem? hhd)
        exact Or.inr ⟨hkey, Table.get_of_fault hfind hfault⟩

/-- A file that holds a table is opened, and its index is that of the runs. -/
theorem HoldsRuns.open_spec {opt : Options} {file : RandomAccess} {size : Nat}
    (h : HoldsRuns opt file size r) :
    Unambiguous opt file size ∧ ∀ c : BlockCache, c.Reachable → c.id + 1 < wordLimit →
      ∃ t v, Table.new opt file size c = .ok (.ok t, { c with id := c.id + 1 }) ∧
        t.ShowsRuns v r := by
  obtain ⟨wopt, p, p', es, img, hcmp, hrcmp, hpolicy, hrpolicy, hinc, hkeys, hlimits, hwrite, hsize,
    hf, rfl⟩ := h
  refine ⟨written_unambiguous hcmp hrcmp hinc hkeys hlimits.toBlockLimits hwrite hsize hf, ?_⟩
  intro c hc hid
  obtain ⟨fb, hs, t, reader, hw, hnew, -, hshows, -, hreader, hfilters⟩ :=
    open_written hcmp hrcmp hlimits.toBlockLimits hwrite hsize hf hc hid
  have ht := hfilters.trans (bloom_filters_eq hpolicy hrpolicy reader)
  rw [hrpolicy] at hreader
  refine ⟨t, _, hnew, hshows, hs.view_ordered _ hinc hkeys, hs.view_showsRuns _, hs.view_readable,
    ?_, ?_⟩
  · intro key hkey
    exact hs.filtersAdmit _ hpolicy hkeys hlimits hw.filter_eq hreader ht hkey
  · intro key hkey hd hmem
    exact hs.filterAdmits_of_not_hasHash hpolicy hkeys hlimits hw.filter_eq hreader ht hmem hkey

/-- The handles of the data blocks are listed by the index. -/
theorem Table.ShowsRuns.lists (h : t.ShowsRuns v r) {i : Nat} {hd : BlockHandle}
    (hhd : v.handles[i]? = some hd) : t.indexBlock.Lists hd := by
  obtain ⟨it, hiter, hstart⟩ := BlockIter.tracked_iter (b := t.indexBlock) v.index_small
    (h.shows_view.index_eq ▸ h.shows_view.cmp_eq) (h.shows_view.index_eq ▸ rfl)
  obtain ⟨e, he, hval⟩ : ∃ e ∈ v.index.entries, e.2 = hd.encode := by
    rw [← List.mem_map, v.values_eq]
    exact List.mem_map_of_mem (List.mem_of_getElem? hhd)
  obtain ⟨it', hseek, -, hcurrent⟩ := hstart.seek_key h.ordered.index he
  have hdecode := BlockHandle.decode_encode (v.fits hd (List.mem_of_getElem? hhd)) []
  rw [List.append_nil, ← hval] at hdecode
  refine ⟨it, it', _, _, _, hiter, ?_, hcurrent, hdecode⟩
  exact .single ⟨.seek e.1, none, by simp [BlockOp.onIter, hseek]⟩

/-- A cache that serves the tables serves each of them. -/
theorem Table.ShowsRuns.cacheServes (h : t.ShowsRuns v r) {ts : List Table} {cap : Nat}
    (hserves : Serves ts cap c) (ht : t ∈ ts) : CacheServes t v c where
  reachable := hserves.reachable
  id_le := hserves.id_le t ht
  serves := by
    intro i hd block hhd hblock
    have hread := hserves.faithful t ht hd block (h.lists hhd) hblock
    obtain ⟨b, hb⟩ := v.block_of_handle hhd
    obtain ⟨L, rfl⟩ := h.readable b (List.mem_of_getElem? hb)
    have hreads : readTableBlock t.opt t.file hd = .ok (.ok (t.blockOf L)) :=
      h.shows_view.reads hhd hb
    rw [hread, Except.ok.injEq, Except.ok.injEq] at hreads
    exact ⟨L, hb, hreads⟩

/-- The blocks that are asked for are read. -/
theorem Table.ShowsRuns.read (h : t.ShowsRuns v r) {i : Table × BlockHandle} (hasked : Asked t i) :
    ∃ b, storedRead i = .ok (.ok b) := by
  obtain ⟨t', hd⟩ := i
  obtain ⟨rfl, hlists⟩ := hasked
  obtain ⟨i, hhd⟩ := h.shows_view.lists h.ordered.index hlists
  obtain ⟨b, hb⟩ := v.block_of_handle hhd
  obtain ⟨L, rfl⟩ := h.readable b (List.mem_of_getElem? hb)
  exact ⟨_, h.shows_view.reads hhd hb⟩

/-! ## Lookups in the store -/

section

variable {opt : Options} {es : List Entry}

theorem writtenRuns_entriesAt {i : Nat} {b : Cut} (hb : (cuts opt es)[i]? = some b) :
    (writtenRuns opt es fun _ => false).entriesAt i = b.entries := by
  simp [IndexedRuns.entriesAt, writtenRuns, hb]

/-- No run that was written has a key twice. -/
theorem writtenRuns_nodup (hinc : Increasing es) (i : Nat) :
    (((writtenRuns opt es fun _ => false).entriesAt i).map Prod.fst).Nodup := by
  cases hb : (cuts opt es)[i]? with
  | none => simp [IndexedRuns.entriesAt, writtenRuns, hb]
  | some b =>
      rw [writtenRuns_entriesAt hb]
      exact (cut_increasing hinc (List.mem_of_getElem? hb)).imp fun hlt => ne_of_lt hlt

/-- The store finds exactly what was written if no block is separated from the next one by the next
one's own first key, and only then. -/
theorem find_writtenRuns_iff (hinc : Increasing es) (hkeys : NonEmptyKeys es) :
    (∀ key, (writtenRuns opt es fun _ => false).find key = es.lookup key) ↔
      SeparatorsApart opt es := by
  have hsep : Separated ((cuts opt es).map Cut.sep) ((cuts opt es).map fun c => keysOf c.entries) :=
    cuts_separated hinc hkeys
  have hnodup : (es.map Prod.fst).Nodup := hinc.imp fun hlt => ne_of_lt hlt
  have hblock : ∀ {i : Nat} {b : Cut}, (cuts opt es)[i]? = some b →
      ((cuts opt es).map fun c => keysOf c.entries)[i]? = some (keysOf b.entries) := by
    intro i b hb
    rw [List.getElem?_map, hb, Option.map_some]
  constructor
  · intro hall i b hb hi hzero
    obtain ⟨e, d, hd, hmem, he, hne⟩ := lowerBound_of_zero hb hi hzero
    have hfind := hall e.1
    rw [(Recency.lookup_eq_some_iff_mem hnodup).mpr he,
      IndexedRuns.find_eq_some_iff (writtenRuns_nodup hinc)] at hfind
    obtain ⟨j, hbound, -, hj⟩ := hfind
    obtain ⟨d', hd'⟩ : ∃ d', (cuts opt es)[j]? = some d' := by
      cases hcut : (cuts opt es)[j]? with
      | none => simp [IndexedRuns.entriesAt, writtenRuns, hcut] at hj
      | some d' => exact ⟨d', rfl⟩
    rw [writtenRuns_entriesAt hd'] at hj
    have hsame := hsep.index_unique (hblock hd) (hblock hd') (List.mem_map_of_mem hmem)
      (List.mem_map_of_mem hj)
    exact hne (hsame ▸ hbound)
  · intro hapart key
    apply Option.ext
    intro val
    rw [IndexedRuns.find_eq_some_iff (writtenRuns_nodup hinc),
      Recency.lookup_eq_some_iff_mem hnodup]
    constructor
    · rintro ⟨i, -, -, hmem⟩
      cases hb : (cuts opt es)[i]? with
      | none => simp [IndexedRuns.entriesAt, writtenRuns, hb] at hmem
      | some b =>
          rw [writtenRuns_entriesAt hb] at hmem
          rw [← flatten_cuts opt es, entriesOf]
          exact List.mem_flatten.mpr
            ⟨_, List.mem_map_of_mem (List.mem_of_getElem? hb), hmem⟩
    · intro hmem
      obtain ⟨i, b, hb, hcut⟩ := exists_cut opt hmem
      have hkey : key ∈ keysOf b.entries := List.mem_map_of_mem hcut
      refine ⟨i, lowerBound_seps hinc hkeys hapart hb hkey, ?_, ?_⟩
      · intro hown
        exact lt_irrefl _ (hsep.lt_sep hown (hblock hb) hkey)
      · rwa [writtenRuns_entriesAt hb]

end

/-! ## Following the tables -/

/-- Whether a step opens a file. -/
def SharedOp.opens : SharedOp → Bool
  | .openTable .. => true
  | _ => false

namespace LockedTables

/-- An iterator is where a cursor over the runs of its table is. -/
def IsAt (it : TableIterator) (x : TableRuns × RunCursor) : Prop :=
  ∃ v, it.table.ShowsRuns v x.1 ∧ TableIterator.Trailed it.table v (.ofCursor x.2) it

/-- A call comes to what is still to come of it in the store. -/
def ComesTo (p : BlockReads Outcome) : Pending → Prop
  | .error _ => ∃ e, (p.eval storedRead >>= Outcome.shown) = .error e
  | .ok (w, none) => ∃ out, p.eval storedRead = .ok out ∧ out.shown = .ok w ∧ out.target = none
  | .ok (w, some (j, x)) => ∃ moved it, p.eval storedRead = .ok (.moved j moved it) ∧
      (Outcome.moved j moved it).shown = .ok w ∧ IsAt it x

/-- The tables, iterators and calls of the users are those of the store. -/
structure Alike (s : LockedTables) (a : RunStore) : Prop where
  tables : List.Forall₂ (fun t r => ∃ v, t.ShowsRuns v r) s.tables a.tables
  iters : List.Forall₂ (Option.Rel IsAt) s.iters a.iters
  calls : List.Forall₂ (Option.Rel ComesTo) s.calls a.calls

/-- The store follows the tables, whose cache is sound and whose lock is not poisoned. -/
structure Follows (cap : Nat) (s : LockedTables) (a : RunStore) : Prop extends Alike s a where
  sound : s.shared.Sound cap
  free : s.lock.poisoned = false

variable {cap : Nat} {s : LockedTables} {a : RunStore}

/-- Every table shows some runs. -/
theorem Follows.exists_runs (h : Follows cap s a) {t : Table} (ht : t ∈ s.tables) :
    ∃ v r, t.ShowsRuns v r := by
  obtain ⟨i, hi⟩ := List.mem_iff_getElem?.mp ht
  obtain ⟨r, -, v, hv⟩ := exists_of_forall₂ h.tables hi
  exact ⟨v, r, hv⟩

/-- A block that a call asks for is read. -/
theorem Follows.read (h : Follows cap s a) {k : Nat} {i : Table × BlockHandle}
    {next : Result Block → BlockReads Outcome} (hk : s.calls[k]? = some (some (.call i next))) :
    ∃ b c', storedRead i = .ok (.ok b) ∧ cachedRead i s.lock.cache = .ok (.ok b, c') ∧
      c'.id = s.lock.cache.id := by
  obtain ⟨t, ht, hasked, -⟩ := h.sound.calls _ (List.mem_of_getElem? hk)
  obtain ⟨v, r, hv⟩ := h.exists_runs ht
  obtain ⟨b, hread⟩ := hv.read hasked
  obtain ⟨t', hd⟩ := i
  obtain ⟨rfl, hlists⟩ := hasked
  have hanswers := h.sound.serves.readBlock h.sound.distinct ht hlists
  rw [hread] at hanswers
  obtain ⟨c', hcached, -, hid⟩ := hanswers
  exact ⟨b, c', hread, hcached, hid⟩

/-- No step leaves the lock poisoned or the cache with a block that is not in its file. -/
theorem Follows.kept (h : Follows cap s a) {op : SharedOp}
    (hfile : ∀ opt file size, op = .openTable opt file size → ∃ r, HoldsRuns opt file size r)
    (hid : op.opens = true → s.lock.cache.id + 1 < wordLimit) :
    (s.step cachedRead op).2.shared.Sound cap ∧ (s.step cachedRead op).2.lock.poisoned = false := by
  constructor
  · apply (step_mirrors h.sound rfl op ?_).2.1
    intro opt file size hop
    obtain ⟨r, hr⟩ := hfile opt file size hop
    exact hr.open_spec.1
  · rw [← Bool.not_eq_true, step_poisoned_iff h.sound, h.free]
    rintro (hfalse | hpoisons)
    · cases hfalse
    · cases op with
      | openTable opt file size => exact absurd (hid rfl) (not_lt.mpr hpoisons.2)
      | work k =>
          obtain ⟨i, next, e, hk, herror⟩ := hpoisons
          obtain ⟨b, -, hread, -⟩ := h.read hk
          rw [hread] at herror
          cases herror
      | cloneTable i => exact hpoisons
      | iterate i => exact hpoisons
      | get i key => exact hpoisons
      | move j op => exact hpoisons

/-- Opening a file that holds a table. -/
theorem Follows.step_openTable (h : Follows cap s a) {opt : Options} {file : RandomAccess}
    {size : Nat} {r : TableRuns} (hfile : HoldsRuns opt file size r)
    (hid : s.lock.cache.id + 1 < wordLimit) :
    ∃ t v lock, s.step cachedRead (.openTable opt file size) =
        (.ok (.opened none), { s with lock := lock, tables := s.tables ++ [t] }) ∧
      lock.cache.id = s.lock.cache.id + 1 ∧ t.ShowsRuns v r := by
  obtain ⟨t, v, hnew, hv⟩ := hfile.open_spec.2 s.lock.cache h.sound.serves.reachable hid
  rw [Table.new_eq_prepare] at hnew
  cases hprepare : Table.prepare opt file size with
  | error e =>
      rw [hprepare] at hnew
      cases hnew
  | ok prepared =>
      rw [hprepare, ok_bind] at hnew
      cases prepared with
      | error e => cases hnew
      | ok parts =>
          have hissue : Table.issue parts s.lock.cache = .ok (.ok t, _) := hnew
          refine ⟨t, v,
            { cache := { s.lock.cache with id := s.lock.cache.id + 1 }, poisoned := false },
            ?_, rfl, hv⟩
          simp only [step, Table.newLocked, hprepare, SharedCache.write_of_ok h.free hissue]

/-- A lookup that begins comes to what the store finds, or to a panic at a key without a hash. -/
theorem Follows.step_get (h : Follows cap s a) {i : Nat} {t : Table} {r : TableRuns}
    {v : TableView} (hi : s.tables[i]? = some t) (hv : t.ShowsRuns v r) (key : Bytes) :
    ∃ p, s.step cachedRead (.get i key) = (.ok .nothing, { s with calls := s.calls ++ [some p] }) ∧
      (ComesTo p (RunStore.get r key) ∨
        (¬ BloomPolicy.HasHash key ∧ ComesTo p (.error .arithmetic))) := by
  have ht := List.mem_of_getElem? hi
  have hanswers := h.sound.answers ht (t.getReads_all key)
  have hrun : t.get key s.shared.cache = (t.getReads key).run cachedRead s.shared.cache :=
    Table.get_eq t key s.shared.cache
  refine ⟨t.getReads key >>= fun r => pure (.found r), by simp only [step, hi], ?_⟩
  rcases hv.get_cases (hv.cacheServes h.sound.serves ht) key with ⟨c', hget⟩ | ⟨hkey, hget⟩
  · left
    have heval : (t.getReads key).eval storedRead = .ok (.ok (r.find key)) := by
      rw [← hanswers.map_fst, ← hrun, hget]
      rfl
    refine ⟨.found (.ok (r.find key)), ?_, rfl, rfl⟩
    rw [eval_bind, heval]
    rfl
  · refine Or.inr ⟨hkey, .arithmetic, ?_⟩
    have heval : (t.getReads key).eval storedRead = .error .arithmetic := by
      rw [← hanswers.map_fst, ← hrun, hget]
      rfl
    rw [eval_bind, heval]
    rfl

/-- A move that begins comes to what the store's cursor comes to. -/
theorem Follows.step_move (h : Follows cap s a) {j : Nat} {it : TableIterator}
    {x : TableRuns × RunCursor} (hj : s.iters[j]? = some (some it)) (hat : IsAt it x)
    (op : TableOp) :
    ∃ p, s.step cachedRead (.move j op) = (.ok .nothing,
        { s with iters := s.iters.set j none, calls := s.calls ++ [some p] }) ∧
      ComesTo p (RunStore.move j x.1 x.2 op) := by
  obtain ⟨r, q⟩ := x
  obtain ⟨v, hv, htrailed⟩ := hat
  obtain ⟨t, ht, hbelongs⟩ := h.sound.iters it (List.mem_of_getElem? hj)
  obtain rfl := hbelongs.table_eq
  have hserves : CacheServes it.table v s.lock.cache := hv.cacheServes h.sound.serves ht
  have hanswers := h.sound.answers ht (op.reads_all hbelongs)
  refine ⟨op.reads it >>= fun x => pure (.moved j x.1 x.2), by simp only [step, hj], ?_⟩
  have hfollowed : TableIterator.Followed it.table v (it, s.lock.cache) (.ofCursor q) :=
    ⟨htrailed, hserves⟩
  have hmirrors := hfollowed.step hv.shows_view hv.ordered op
  rw [hv.runs.step_eq] at hmirrors
  have hstep : TableIterator.step (it, s.lock.cache) op =
      (op.reads it).run cachedRead s.lock.cache >>= fun x => x.1.2.current >>= fun entry =>
        pure ({ moved := x.1.1, valid := x.1.2.valid, current := entry,
                currentKey := x.1.2.currentKey }, x.1.2, x.2) := by
    rw [TableIterator.step, TableOp.onIter_eq, bind_assoc]
    rfl
  rw [hstep] at hmirrors
  -- The move and the cursor either both panic or both end, in the same place.
  cases heval : (op.reads it).eval storedRead with
  | error e =>
      rw [heval] at hanswers
      have hrun : (op.reads it).run cachedRead s.lock.cache = .error e := hanswers
      cases hruns : runsStep r q op with
      | error e' =>
          rw [RunStore.move, hruns]
          exact ⟨e, by rw [eval_bind, heval]; rfl⟩
      | ok y =>
          rw [hruns, hrun] at hmirrors
          obtain ⟨s', hs', -⟩ := hmirrors
          cases hs'
  | ok x =>
      obtain ⟨moved, it'⟩ := x
      rw [heval] at hanswers
      obtain ⟨c', hrun, -⟩ := hanswers
      have hrun : (op.reads it).run cachedRead s.lock.cache = .ok ((moved, it'), c') := hrun
      rw [hrun, ok_bind] at hmirrors
      have hend : (op.reads it >>= fun x => pure (.moved j x.1 x.2) :
          BlockReads Outcome).eval storedRead = .ok (.moved j moved it') := by
        rw [eval_bind, heval]
        rfl
      cases hcurrent : it'.current with
      | error e =>
          cases hruns : runsStep r q op with
          | error e' =>
              rw [RunStore.move, hruns]
              exact ⟨e, by rw [hend, ok_bind, Outcome.shown, hcurrent]; rfl⟩
          | ok y =>
              rw [hruns, hcurrent] at hmirrors
              obtain ⟨s', hs', -⟩ := hmirrors
              cases hs'
      | ok entry =>
          cases hruns : runsStep r q op with
          | error e' =>
              rw [hruns, hcurrent] at hmirrors
              exact absurd ⟨_, rfl⟩ hmirrors
          | ok y =>
              rw [hruns, hcurrent] at hmirrors
              obtain ⟨s', hs', hfollowed'⟩ := hmirrors
              obtain ⟨hshown, rfl⟩ := Prod.mk.inj (Except.ok.inj hs')
              rw [RunStore.move, hruns]
              refine ⟨moved, it', hend, ?_, v, ?_⟩
              · rw [Outcome.shown, hcurrent, ← hshown]
                rfl
              · rw [hfollowed'.1.table_eq]
                exact ⟨hv, hfollowed'.1⟩

/-- A call that ends shows what the store has for it. -/
theorem Follows.finish (h : Follows cap s a) {k : Nat} {out : Outcome} {pending : Pending}
    (hx : a.calls[k]? = some (some pending)) (hcomes : ComesTo (.done out) pending) :
    ∃ a', RunStore.Next HoldsRuns a (.work k) (s.finish k out).1 a' ∧
      Alike (s.finish k out).2 a' ∧ (s.finish k out).2.lock = s.lock := by
  have hended : List.Forall₂ (Option.Rel ComesTo) (s.calls.set k none) (a.calls.set k none) :=
    forall₂_set h.calls .none k
  cases out with
  | found r =>
      rcases pending with e | ⟨w, _ | back⟩
      · obtain ⟨e', he⟩ := hcomes
        cases he
      · obtain ⟨out, hout, hshown, -⟩ := hcomes
        obtain rfl : Outcome.found r = out := Except.ok.inj hout
        obtain rfl : Shown.found r = w := Except.ok.inj hshown
        exact ⟨_, .shows hx, ⟨h.tables, h.iters, hended⟩, rfl⟩
      · obtain ⟨moved, it, hout, -⟩ := hcomes
        cases hout
  | moved j moved it =>
      dsimp only [LockedTables.finish]
      cases hcurrent : it.current with
      | error e =>
          have hshown : (Outcome.moved j moved it).shown = .error e := by
            rw [Outcome.shown, hcurrent]
            rfl
          rcases pending with e' | ⟨w, _ | back⟩
          · exact ⟨_, .panics hx, ⟨h.tables, h.iters, hended⟩, rfl⟩
          · obtain ⟨out, hout, hok, -⟩ := hcomes
            obtain rfl : Outcome.moved j moved it = out := Except.ok.inj hout
            rw [hshown] at hok
            cases hok
          · obtain ⟨moved', it', hout, hok, -⟩ := hcomes
            rw [← Except.ok.inj hout, hshown] at hok
            cases hok
      | ok entry =>
          have hshown : (Outcome.moved j moved it).shown = .ok (.moved
              { moved := moved, valid := it.valid, current := entry,
                currentKey := it.currentKey }) := by
            rw [Outcome.shown, hcurrent]
            rfl
          rcases pending with e' | ⟨w, _ | ⟨j', r, q⟩⟩
          · obtain ⟨e, he⟩ := hcomes
            have hfault : (Outcome.moved j moved it).shown = .error e := he
            rw [hshown] at hfault
            cases hfault
          · obtain ⟨out, hout, -, htarget⟩ := hcomes
            obtain rfl : Outcome.moved j moved it = out := Except.ok.inj hout
            cases htarget
          · obtain ⟨moved', it', hout, hok, hat⟩ := hcomes
            obtain ⟨rfl, rfl, rfl⟩ := Outcome.moved.inj (Except.ok.inj hout)
            obtain rfl := Except.ok.inj (hshown.symm.trans hok)
            exact ⟨_, .shows hx, ⟨h.tables, forall₂_set h.iters (.some hat) j, hended⟩, rfl⟩

/-- A call that goes on reads a block, and one that ends shows what the store has for it. -/
theorem Follows.step_work (h : Follows cap s a) (k : Nat) :
    ∃ a', RunStore.Next HoldsRuns a (.work k) (s.step cachedRead (.work k)).1 a' ∧
      Alike (s.step cachedRead (.work k)).2 a' ∧
      (s.step cachedRead (.work k)).2.lock.cache.id = s.lock.cache.id := by
  rcases hk : s.calls[k]? with _ | _ | p
  · exact ⟨a, by simp only [step, hk]; exact .waits, by simp only [step, hk]; exact h.toAlike,
      by simp only [step, hk]⟩
  · exact ⟨a, by simp only [step, hk]; exact .waits, by simp only [step, hk]; exact h.toAlike,
      by simp only [step, hk]⟩
  · obtain ⟨x, hx, hrel⟩ := exists_of_forall₂ h.calls hk
    obtain ⟨pending, rfl, hcomes⟩ : ∃ pending, x = some pending ∧ ComesTo p pending := by
      cases hrel with
      | some hcomes => exact ⟨_, rfl, hcomes⟩
    cases p with
    | done out =>
        obtain ⟨a', hnext, halike, hlock⟩ := h.finish hx hcomes
        have hstep : s.step cachedRead (.work k) = s.finish k out := by simp only [step, hk]
        rw [hstep]
        exact ⟨a', hnext, halike, by rw [hlock]⟩
    | stop e =>
        have hstep : s.step cachedRead (.work k) =
            (.error e, { s with calls := s.calls.set k none }) := by simp only [step, hk]
        have hended : List.Forall₂ (Option.Rel ComesTo) (s.calls.set k none) (a.calls.set k none) :=
          forall₂_set h.calls .none k
        rw [hstep]
        rcases pending with e' | ⟨w, _ | back⟩
        · exact ⟨_, .panics hx, ⟨h.tables, h.iters, hended⟩, rfl⟩
        · obtain ⟨out, hout, -⟩ := hcomes
          cases hout
        · obtain ⟨moved, it, hout, -⟩ := hcomes
          cases hout
    | call i next =>
        obtain ⟨b, c', hread, hcached, hid⟩ := h.read hk
        have hstep : s.step cachedRead (.work k) = (.ok .nothing,
            { s with lock := { s.lock with cache := c' }
                     calls := s.calls.set k (some (next (.ok b))) }) := by
          simp only [step, hk, SharedCache.write_of_ok h.free hcached, h.free]
        have hsame : ComesTo (next (.ok b)) pending := by
          have heval : (Calls.call i next : BlockReads Outcome).eval storedRead =
              (next (.ok b)).eval storedRead := by
            rw [Calls.eval, hread]
            rfl
          rcases pending with e | ⟨w, _ | back⟩ <;> simpa only [ComesTo, heval] using hcomes
        rw [hstep]
        exact ⟨a, .waits, ⟨h.tables, h.iters, forall₂_set_left h.calls hx (.some hsame)⟩, hid⟩

/-- The store can follow every step of the tables. -/
theorem Follows.step (h : Follows cap s a) {op : SharedOp}
    (hfile : ∀ opt file size, op = .openTable opt file size → ∃ r, HoldsRuns opt file size r)
    (hid : op.opens = true → s.lock.cache.id + 1 < wordLimit) :
    ∃ a', RunStore.Next HoldsRuns a op (s.step cachedRead op).1 a' ∧
      Follows cap (s.step cachedRead op).2 a' ∧
      (s.step cachedRead op).2.lock.cache.id ≤ s.lock.cache.id + if op.opens then 1 else 0 := by
  obtain ⟨hsound, hfree⟩ := h.kept hfile hid
  suffices halike : ∃ a', RunStore.Next HoldsRuns a op (s.step cachedRead op).1 a' ∧
      Alike (s.step cachedRead op).2 a' ∧
      (s.step cachedRead op).2.lock.cache.id ≤ s.lock.cache.id + if op.opens then 1 else 0 by
    obtain ⟨a', hnext, halike, hle⟩ := halike
    exact ⟨a', hnext, ⟨halike, hsound, hfree⟩, hle⟩
  cases op with
  | openTable opt file size =>
      obtain ⟨r, hr⟩ := hfile opt file size rfl
      obtain ⟨t, v, lock, hstep, hlock, hv⟩ := h.step_openTable hr (hid rfl)
      rw [hstep]
      exact ⟨_, .opens hr, ⟨forall₂_concat h.tables ⟨v, hv⟩, h.iters, h.calls⟩, hlock.le⟩
  | cloneTable i =>
      cases hi : s.tables[i]? with
      | none =>
          have hstep : s.step cachedRead (.cloneTable i) = (.ok .nothing, s) := by
            simp only [LockedTables.step, hi]
          rw [hstep]
          exact ⟨a, .noTable (none_of_forall₂ h.tables hi) (Or.inl rfl), h.toAlike,
            Nat.le_add_right _ _⟩
      | some t =>
          obtain ⟨r, hr, hv⟩ := exists_of_forall₂ h.tables hi
          have hstep : s.step cachedRead (.cloneTable i) =
              (.ok .nothing, { s with tables := s.tables ++ [t] }) := by
            simp only [LockedTables.step, hi]
          rw [hstep]
          exact ⟨_, .clones hr, ⟨forall₂_concat h.tables hv, h.iters, h.calls⟩,
            Nat.le_add_right _ _⟩
  | iterate i =>
      cases hi : s.tables[i]? with
      | none =>
          have hstep : s.step cachedRead (.iterate i) = (.ok .nothing, s) := by
            simp only [LockedTables.step, hi]
          rw [hstep]
          exact ⟨a, .noTable (none_of_forall₂ h.tables hi) (Or.inr (Or.inl rfl)), h.toAlike,
            Nat.le_add_right _ _⟩
      | some t =>
          obtain ⟨r, hr, v, hv⟩ := exists_of_forall₂ h.tables hi
          obtain ⟨it, hiter, hfresh⟩ := TableIterator.iter_spec hv.shows_view
          have hstep : s.step cachedRead (.iterate i) =
              (.ok .nothing, { s with iters := s.iters ++ [some it] }) := by
            simp only [LockedTables.step, hi, hiter]
          have hat : IsAt it (r, .start) := by
            have htrailed := hfresh.trailed
            obtain rfl := htrailed.table_eq
            exact ⟨v, hv, htrailed⟩
          rw [hstep]
          exact ⟨_, .iterates hr, ⟨h.tables, forall₂_concat h.iters (.some hat), h.calls⟩,
            Nat.le_add_right _ _⟩
  | get i key =>
      cases hi : s.tables[i]? with
      | none =>
          have hstep : s.step cachedRead (.get i key) = (.ok .nothing, s) := by
            simp only [LockedTables.step, hi]
          rw [hstep]
          exact ⟨a, .noTable (none_of_forall₂ h.tables hi) (Or.inr (Or.inr ⟨key, rfl⟩)), h.toAlike,
            Nat.le_add_right _ _⟩
      | some t =>
          obtain ⟨r, hr, v, hv⟩ := exists_of_forall₂ h.tables hi
          obtain ⟨p, hstep, hcomes | ⟨hkey, hcomes⟩⟩ := h.step_get hi hv key
          · rw [hstep]
            exact ⟨_, .gets hr, ⟨h.tables, h.iters, forall₂_concat h.calls (.some hcomes)⟩,
              Nat.le_add_right _ _⟩
          · rw [hstep]
            exact ⟨_, .overflows hr hkey, ⟨h.tables, h.iters,
              forall₂_concat h.calls (.some hcomes)⟩, Nat.le_add_right _ _⟩
  | move j op =>
      rcases hj : s.iters[j]? with _ | _ | it
      · have hstep : s.step cachedRead (.move j op) = (.ok .nothing, s) := by
          simp only [LockedTables.step, hj]
        rw [hstep]
        exact ⟨a, .noIter (by rw [none_of_forall₂ h.iters hj]; rfl), h.toAlike,
          Nat.le_add_right _ _⟩
      · obtain ⟨x, hx, hrel⟩ := exists_of_forall₂ h.iters hj
        cases hrel
        have hstep : s.step cachedRead (.move j op) = (.ok .nothing, s) := by
          simp only [LockedTables.step, hj]
        rw [hstep]
        exact ⟨a, .noIter (by rw [hx]; rfl), h.toAlike, Nat.le_add_right _ _⟩
      · obtain ⟨x, hx, hrel⟩ := exists_of_forall₂ h.iters hj
        cases hrel with
        | some hat =>
            obtain ⟨p, hstep, hcomes⟩ := h.step_move hj hat op
            rw [hstep]
            exact ⟨_, .moves hx, ⟨h.tables, forall₂_set h.iters .none j,
              forall₂_concat h.calls (.some hcomes)⟩, Nat.le_add_right _ _⟩
  | work k =>
      obtain ⟨a', hnext, halike, hsame⟩ := h.step_work k
      exact ⟨a', hnext, halike, hsame.le.trans (Nat.le_add_right _ _)⟩

/-- The store follows the tables, and the operations to come open written tables, not more of them
than there are ids left. -/
structure Ahead (cap : Nat) (ops : List SharedOp) (s : LockedTables) (a : RunStore) : Prop
    extends Follows cap s a where
  files : ∀ opt file size, .openTable opt file size ∈ ops → ∃ r, HoldsRuns opt file size r
  room : s.lock.cache.id + ops.countP SharedOp.opens < wordLimit

theorem Ahead.step {op : SharedOp} {ops : List SharedOp} (h : Ahead cap (op :: ops) s a) :
    ∃ a', RunStore.Next HoldsRuns a op (s.step cachedRead op).1 a' ∧
      Ahead cap ops (s.step cachedRead op).2 a' := by
  have hroom := h.room
  rw [List.countP_cons] at hroom
  have hfile : ∀ opt file size, op = .openTable opt file size → ∃ r, HoldsRuns opt file size r := by
    rintro opt file size rfl
    exact h.files opt file size List.mem_cons_self
  have hid : op.opens = true → s.lock.cache.id + 1 < wordLimit := by
    intro hopens
    rw [if_pos hopens] at hroom
    exact lt_of_le_of_lt (Nat.add_le_add_left (Nat.le_add_left 1 _) _) hroom
  obtain ⟨a', hnext, hfollows, hle⟩ := h.toFollows.step hfile hid
  refine ⟨a', hnext, hfollows, ?_, ?_⟩
  · intro opt file size hmem
    exact h.files opt file size (List.mem_cons_of_mem _ hmem)
  · apply lt_of_le_of_lt (Nat.add_le_add_right hle _)
    rwa [Nat.add_assoc, Nat.add_comm (ite _ _ _)]

/-- The store follows whole runs. -/
theorem follows_reached {lock : SharedCache} (h : withCacheCapacity cap = .ok lock)
    {ops : List SharedOp}
    (hfiles : ∀ opt file size, .openTable opt file size ∈ ops → ∃ r, HoldsRuns opt file size r)
    (hfew : ops.countP SharedOp.opens < wordLimit) :
    ∃ a, SpecRun (RunStore.Next HoldsRuns) .empty ops
        (traceOps (LockedTables.step cachedRead) (start lock) ops).1 a ∧
      Follows cap (reached lock ops) a := by
  obtain ⟨hsound, hfree, hid⟩ := sound_start h
  have hstart : Ahead cap ops (start lock) .empty :=
    ⟨⟨⟨.nil, .nil, .nil⟩, hsound, hfree⟩, hfiles, by rwa [start, hid, Nat.zero_add]⟩
  obtain ⟨a, hrun, hend⟩ := traceOps_specRun (Ahead cap) (fun _ _ _ _ h => h.step) hstart
  exact ⟨a, hrun, hend.toFollows⟩

end LockedTables

end

/-- Users of tables that were written before, in any number and in any interleaving, see what the
store shows, and every call comes to its end after a number of turns that depends on nothing but the
call. -/
theorem tables_refine_store [Crates] {cap : Nat} {lock : SharedCache}
    (h : withCacheCapacity cap = .ok lock) (ops : List SharedOp)
    (hfiles : ∀ opt file size, .openTable opt file size ∈ ops → ∃ r, HoldsRuns opt file size r)
    (hfew : ops.countP SharedOp.opens < wordLimit) :
    (∃ a, SpecRun (RunStore.Next HoldsRuns) .empty ops
      (traceOps (LockedTables.step cachedRead) (LockedTables.start lock) ops).1 a) ∧
    ∀ k p, (LockedTables.reached lock ops).calls[k]? = some (some p) →
      ∃ n, ∀ after,
        (∀ opt file size, .openTable opt file size ∈ after → ∃ r, HoldsRuns opt file size r) →
        (ops ++ after).countP SharedOp.opens < wordLimit →
        n < after.countP (SharedOp.works k) →
        (LockedTables.reached lock (ops ++ after)).calls[k]? = some none := by
  constructor
  · obtain ⟨a, hrun, -⟩ := LockedTables.follows_reached h hfiles hfew
    exact ⟨a, hrun⟩
  · intro k p hk
    obtain ⟨n, hturns⟩ : ∃ n, ∀ m, p.turn storedRead m = _ := p.exists_turn
    refine ⟨n, ?_⟩
    intro after hafter hlimit hmany
    have hall : ∀ opt file size, .openTable opt file size ∈ ops ++ after →
        ∃ r, HoldsRuns opt file size r := by
      intro opt file size hmem
      rcases List.mem_append.mp hmem with hmem | hmem
      · exact hfiles opt file size hmem
      · exact hafter opt file size hmem
    have hunambiguous : ∀ opt file size, .openTable opt file size ∈ ops ++ after →
        Unambiguous opt file size := by
      intro opt file size hmem
      obtain ⟨r, hr⟩ := hall opt file size hmem
      exact hr.open_spec.1
    obtain ⟨a, -, hfollows⟩ := LockedTables.follows_reached h hall hlimit
    obtain ⟨hlt, hturn⟩ := LockedTables.turn_reached h hunambiguous hk hfollows.free
    -- A call that were still going on would have a turn to come.
    cases hcall : (LockedTables.reached lock (ops ++ after)).calls[k]? with
    | none => exact absurd hlt (not_lt.mpr (List.getElem?_eq_none_iff.mp hcall))
    | some call =>
        cases call with
        | none => rfl
        | some q =>
            obtain ⟨m, hlast⟩ : ∃ m, ∀ m', q.turn storedRead m' = _ := q.exists_turn
            have hcome := hturn m
            rw [LockedTables.turn, hcall, Option.join_some, Option.bind_some, hlast, if_pos rfl,
              hturns, if_neg (by omega)] at hcome
            cases hcome

/-- Two users of the table of three keys: one looks a key up, the other moves an iterator over a copy
of the table, in turns. -/
def neighboursOps : List SharedOp :=
  [.openTable .default (BufferBackedFile neighboursImage) 211, .cloneTable 0, .iterate 1,
    .get 0 [97], .move 0 .advance, .work 1, .work 0, .work 1, .work 0, .move 0 (.seek [98])]

/-- The store follows the two users, and the seek that is not over yet ends after some turns. -/
theorem tables_refine_store_neighbours : letI := referenceCrates
    (∃ a, SpecRun (RunStore.Next HoldsRuns) .empty neighboursOps
      (traceOps (LockedTables.step cachedRead) (LockedTables.start (share smallCache))
        neighboursOps).1 a) ∧
    ∀ k p, (LockedTables.reached (share smallCache) neighboursOps).calls[k]? = some (some p) →
      ∃ n, ∀ after,
        (∀ opt file size, .openTable opt file size ∈ after → ∃ r, HoldsRuns opt file size r) →
        (neighboursOps ++ after).countP SharedOp.opens < wordLimit →
        n < after.countP (SharedOp.works k) →
        (LockedTables.reached (share smallCache) (neighboursOps ++ after)).calls[k]? =
          some none := by
  let := referenceCrates
  have hlock : withCacheCapacity 4 = .ok (share smallCache) := rfl
  apply tables_refine_store hlock neighboursOps ?_ (by decide)
  intro opt file size hmem
  simp only [neighboursOps, List.mem_cons, SharedOp.openTable.injEq, List.not_mem_nil, reduceCtorEq,
    or_false] at hmem
  obtain ⟨rfl, rfl, rfl⟩ := hmem
  exact ⟨_, tinyBlocks, BloomPolicy.new 10, BloomPolicy.new 10, neighbours, neighboursImage, rfl,
    rfl, rfl, rfl, by decide, by decide, neighbours_sizeLimits, neighboursImage_eq,
    neighboursImage_small, defectiveData_none _ _ _ _, rfl⟩

end SSTable
