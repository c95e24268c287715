import SSTable.Verification.Table.RoundTrip

/-!
# Walking back and forth

In a table whose blocks can all be read and are not empty, an iterator goes back exactly as it
goes forward, also from one block to another.

Main results:

- Theorem {lit}`prev_spec`: going back reaches the entry before.
- Theorem {lit}`walk_counts`: a walk is where the numbers of its steps forward and back say.
-/

namespace SSTable

open Foundation Foundation.Exec Foundation.Bytes

/-- The steps of a walk. -/
inductive WalkOp where
  | advance
  | prev
deriving DecidableEq, Repr

/-- The index of the entry that a walk ends on: one step forward reaches the first one. -/
def walkIndex (ops : List WalkOp) : Int := ops.count .advance - ops.count .prev - 1

@[simp] theorem walkIndex_nil : walkIndex [] = -1 := rfl

theorem walkIndex_advance (ops : List WalkOp) :
    walkIndex (ops ++ [.advance]) = walkIndex ops + 1 := by
  have hadvance : (ops ++ [WalkOp.advance]).count .advance = ops.count .advance + 1 := by simp
  have hprev : (ops ++ [WalkOp.advance]).count .prev = ops.count .prev := by simp
  rw [walkIndex, walkIndex, hadvance, hprev]
  omega

theorem walkIndex_prev (ops : List WalkOp) :
    walkIndex (ops ++ [.prev]) = walkIndex ops - 1 := by
  have hadvance : (ops ++ [WalkOp.prev]).count .advance = ops.count .advance := by simp
  have hprev : (ops ++ [WalkOp.prev]).count .prev = ops.count .prev + 1 := by simp
  rw [walkIndex, walkIndex, hadvance, hprev]
  omega

section

variable [Crates]

/-- Take a step. -/
def WalkOp.run : WalkOp → TableIterator → BlockCache → Exec (Bool × TableIterator × BlockCache)
  | .advance => TableIterator.advance
  | .prev => TableIterator.prev

/-- A walk: every step returned true, and between the steps the cache may have been used. -/
inductive Walk (t : Table) (handles : List BlockHandle) (it : TableIterator) (c : BlockCache) :
    List WalkOp → TableIterator → BlockCache → Prop
  | nil : Walk t handles it c [] it c
  | others {ops : List WalkOp} {it₁ : TableIterator} {c₁ c₂ : BlockCache}
      (hwalk : Walk t handles it c ops it₁ c₁) (hrun : CacheRun t handles c₁ c₂) :
      Walk t handles it c ops it₁ c₂
  | step {ops : List WalkOp} {op : WalkOp} {it₁ it₂ : TableIterator} {c₁ c₂ : BlockCache}
      (hwalk : Walk t handles it c ops it₁ c₁) (hstep : op.run it₁ c₁ = .ok (true, it₂, c₂)) :
      Walk t handles it c (ops ++ [op]) it₂ c₂

/-- Every block of the view can be read and has entries. -/
def TableView.Dense (v : TableView) : Prop := ∀ b ∈ v.blocks, ∃ L, b = some L ∧ L.slots ≠ []

namespace TableIterator

/-- The iterator is on the entry with the given number. -/
def OnEntry (t : Table) (v : TableView) (k : Nat) (it : TableIterator) : Prop :=
  ∃ i j, On t v i j it ∧ v.start i + j = k

variable {t : Table} {v : TableView} {it : TableIterator} {c : BlockCache} {k : Nat}

theorem OnEntry.ready (h : OnEntry t v k it) : Ready t v (k + 1) it := by
  obtain ⟨i, j, hon, rfl⟩ := h
  exact hon.ready

theorem OnEntry.lt_length (h : OnEntry t v k it) : k < v.entries.length := by
  obtain ⟨i, j, hon, rfl⟩ := h
  exact hon.lt_length

theorem OnEntry.shown (h : OnEntry t v k it) (hord : v.Ordered) :
    ∃ e, v.entries[k]? = some e ∧ it.valid = true ∧ it.current = .ok (some e) := by
  obtain ⟨i, j, hon, rfl⟩ := h
  obtain ⟨e, hget, hvalid, hcurrent, -⟩ := hon.shown hord
  exact ⟨e, hget, hvalid, hcurrent⟩

/-- Advancing from the place before an entry returns true exactly if there is such an entry. -/
theorem advance_to (hshows : t.Shows v) (hord : v.Ordered) (hserves : CacheServes t v c)
    (hready : Ready t v k it) :
    ∃ more it' c', it.advance c = .ok (more, it', c') ∧ CacheServes t v c' ∧
      (more = true → OnEntry t v k it') ∧ (more = false ↔ v.entries.length ≤ k) := by
  obtain ⟨⟨more, it', c'⟩, hadvance, hserves', hend⟩ := advance_spec hshows hord hserves hready
  refine ⟨more, it', c', hadvance, hserves', ?_⟩
  rcases hend with ⟨hmore, i, j, hon, hnum⟩ | ⟨hmore, -, hlast⟩
  · have hmore : more = true := hmore
    subst hmore
    have hlt : k < v.entries.length := hnum ▸ hon.lt_length
    exact ⟨fun _ => ⟨i, j, hon, hnum⟩, by simp [hlt]⟩
  · have hmore : more = false := hmore
    subst hmore
    exact ⟨by simp, by simp [hlast]⟩

/-- The block with a number, where none is empty or cannot be read. -/
theorem dense_block {i : Nat} (hdense : v.Dense) (h : On t v (i + 1) 0 it) :
    ∃ L, v.blocks[i]? = some (some L) ∧ L.slots ≠ [] := by
  obtain ⟨s, hindex⟩ := h.index
  have hlt := hindex.lt_length
  rw [v.slots_length, ← v.length_eq] at hlt
  have hi := List.getElem?_eq_getElem (Nat.lt_of_succ_lt hlt)
  obtain ⟨L, hL, hne⟩ := hdense _ (List.mem_of_getElem? hi)
  exact ⟨L, hL ▸ hi, hne⟩

/-- Going back reaches the entry before. -/
theorem prev_spec (hshows : t.Shows v) (hord : v.Ordered) (hdense : v.Dense)
    (hserves : CacheServes t v c) (h : OnEntry t v (k + 1) it) :
    ∃ it' c', it.prev c = .ok (true, it', c') ∧ CacheServes t v c' ∧ OnEntry t v k it' := by
  obtain ⟨i, j, hon, hnum⟩ := h
  cases j with
  | succ j =>
      obtain ⟨it', hprev, hon'⟩ := prev_within hon (c := c)
      exact ⟨it', c, hprev, hserves, i, j, hon', by omega⟩
  | zero =>
      cases i with
      | zero => simp at hnum
      | succ i =>
          obtain ⟨L, hL, hne⟩ := dense_block hdense hon
          have hacross := prev_across hshows hord hserves hon hL
          simp only [if_neg hne] at hacross
          obtain ⟨it', c', hprev, hserves', hon'⟩ := hacross
          have hsucc := v.start_succ hL
          have hpos := List.length_pos_of_ne_nil hne
          simp only [blockEntries, BlockLayout.entries_length] at hsucc
          exact ⟨it', c', hprev, hserves', i, _, hon', by omega⟩

/-- There is nothing before the first entry. -/
theorem prev_at_entry_zero (hdense : v.Dense) (h : OnEntry t v 0 it) :
    ∃ it', it.prev c = .ok (false, it', c) := by
  obtain ⟨i, j, hon, hnum⟩ := h
  obtain ⟨hstart, rfl⟩ := Nat.add_eq_zero_iff.mp hnum
  cases i with
  | zero => exact prev_at_start hon
  | succ i =>
      obtain ⟨L, hL, hne⟩ := dense_block hdense hon
      have hsucc := v.start_succ hL
      have hpos := List.length_pos_of_ne_nil hne
      simp only [blockEntries, BlockLayout.entries_length] at hsucc
      omega

/-- Where a walk is: on the entry with its index, or nowhere yet. -/
def Walked (t : Table) (v : TableView) (ops : List WalkOp) (it : TableIterator) : Prop :=
  (ops = [] ∧ Fresh t v it) ∨ ∃ k : Nat, walkIndex ops = k ∧ OnEntry t v k it

/-- A step of a walk: whether it returns true, and where it ends. -/
theorem Walked.step {ops : List WalkOp} (hshows : t.Shows v) (hord : v.Ordered) (hdense : v.Dense)
    (hserves : CacheServes t v c) (h : Walked t v ops it) (op : WalkOp) :
    ∃ more it' c', op.run it c = .ok (more, it', c') ∧ CacheServes t v c' ∧
      (more = true → Walked t v (ops ++ [op]) it') ∧
      (more = false ↔ (op = .prev ∧ walkIndex ops ≤ 0) ∨
        (op = .advance ∧ walkIndex ops = (v.entries.length : Int) - 1)) := by
  cases op with
  | advance =>
      have hready : ∃ k : Nat, walkIndex ops + 1 = k ∧ k ≤ v.entries.length ∧ Ready t v k it := by
        rcases h with ⟨rfl, hfresh⟩ | ⟨k, hk, hentry⟩
        · exact ⟨0, rfl, Nat.zero_le _, hfresh.toReset.ready⟩
        · exact ⟨k + 1, by omega, hentry.lt_length, hentry.ready⟩
      obtain ⟨k, hk, hle, hready⟩ := hready
      obtain ⟨more, it', c', hadvance, hserves', htrue, hfalse⟩ :=
        advance_to hshows hord hserves hready
      refine ⟨more, it', c', hadvance, hserves', ?_, ?_⟩
      · intro hmore
        exact Or.inr ⟨k, by rw [walkIndex_advance, hk], htrue hmore⟩
      · rw [hfalse]
        simp only [reduceCtorEq, false_and, true_and, false_or]
        omega
  | prev =>
      rcases h with ⟨rfl, hfresh⟩ | ⟨k, hk, hentry⟩
      · obtain ⟨it', hprev⟩ := prev_fresh hfresh (c := c)
        exact ⟨false, it', c, hprev, hserves, by simp, by simp⟩
      · cases k with
        | zero =>
            obtain ⟨it', hprev⟩ := prev_at_entry_zero hdense hentry (c := c)
            exact ⟨false, it', c, hprev, hserves, by simp, by simp [hk]⟩
        | succ k =>
            obtain ⟨it', c', hprev, hserves', hentry'⟩ :=
              prev_spec hshows hord hdense hserves hentry
            refine ⟨true, it', c', hprev, hserves', ?_, ?_⟩
            · intro _
              exact Or.inr ⟨k, by rw [walkIndex_prev]; omega, hentry'⟩
            · simp only [Bool.true_eq_false, reduceCtorEq, true_and, false_and, or_false, false_iff]
              omega

/-- Where a whole walk is. -/
theorem Walked.walk {it₀ : TableIterator} {c₀ : BlockCache} {ops : List WalkOp}
    (hshows : t.Shows v) (hord : v.Ordered) (hdense : v.Dense) (hserves : CacheServes t v c₀)
    (hfresh : Fresh t v it₀) (hwalk : Walk t v.handles it₀ c₀ ops it c) :
    CacheServes t v c ∧ Walked t v ops it := by
  induction hwalk with
  | nil => exact ⟨hserves, Or.inl ⟨rfl, hfresh⟩⟩
  | others _ hrun ih => exact ⟨ih.1.run hshows hrun, ih.2⟩
  | @step ops op it₁ it₂ c₁ c₂ _ hstep ih =>
      obtain ⟨more, it', c', hrun, hserves', htrue, -⟩ :=
        Walked.step hshows hord hdense ih.1 ih.2 op
      rw [hstep, Except.ok.injEq, Prod.mk.injEq, Prod.mk.injEq] at hrun
      obtain ⟨hmore, rfl, rfl⟩ := hrun
      exact ⟨hserves', htrue hmore.symm⟩

end TableIterator

/-- The blocks of a table are not empty unless the block size is below that of an empty block. -/
theorem Sizes.view_dense {opt : Options} {es : List Entry} {fb : Bytes}
    (hs : Sizes opt (cuts opt es) fb) (hblock : 8 ≤ opt.blockSize) :
    (hs.view fun _ => false).Dense := by
  intro b hb
  obtain ⟨i, hi, rfl⟩ := List.mem_mapIdx.mp hb
  refine ⟨layoutOf opt ((cuts opt es)[i]).entries, rfl, ?_⟩
  rw [Ne, layoutOf_slots_eq_nil_iff]
  exact cut_ne_nil hblock (List.getElem_mem hi)

end

/-- A walk over a table without empty or defective blocks is on the entry whose index is the
number of steps forward, less the number of steps back, less one.  The next step returns false
exactly if it goes back from the first entry or from the fresh iterator, or forward from the
last entry. -/
theorem walk_counts [Crates] (opt ropt : Options) (es : List Entry) (n : Nat) (img : Bytes)
    (f : RandomAccess) (c : BlockCache) (hcmp : opt.cmp = DefaultCmp)
    (hrcmp : ropt.cmp = DefaultCmp) (hblock : 8 ≤ opt.blockSize) (hinc : Increasing es)
    (hkeys : NonEmptyKeys es) (hlimits : BlockLimits opt es)
    (hwrite : TableBuilder.writeTable opt [] es = .ok (.ok n, img))
    (hsize : img.length ≤ maxAllocation)
    (hf : DefectiveData opt ropt (cuts opt es) img (fun _ => false) f)
    (hc : c.Reachable) (hid : c.id + 1 < wordLimit) :
    ∃ t c₀ it₀, Table.new ropt f n c = .ok (.ok t, c₀) ∧ t.iter = .ok it₀ ∧
      ∀ ops it c₁, Walk t (dataHandles opt es) it₀ c₀ ops it c₁ →
        (ops ≠ [] → ∃ (k : Nat) (e : Entry), walkIndex ops = k ∧ es[k]? = some e ∧
          it.valid = true ∧ it.current = .ok (some e)) ∧
        ∀ op : WalkOp, ∃ more it' c₂, op.run it c₁ = .ok (more, it', c₂) ∧
          (more = false ↔ (op = .prev ∧ walkIndex ops ≤ 0) ∨
            (op = .advance ∧ walkIndex ops = (es.length : Int) - 1)) := by
  obtain ⟨fb, hs, t, reader, -, hnew, -, hshows, hserves, -⟩ :=
    open_written hcmp hrcmp hlimits hwrite hsize hf hc hid
  obtain ⟨it₀, hiter, hfresh⟩ := TableIterator.iter_spec hshows
  have hord := hs.view_ordered (fun _ => false) hinc hkeys
  have hdense := hs.view_dense hblock
  have hentries : (hs.view fun _ => false).entries = es := by
    rw [hs.view_entries, readable_none, flatten_cuts]
  refine ⟨t, _, it₀, hnew, hiter, ?_⟩
  intro ops it c₁ hwalk
  obtain ⟨hserves₁, hwalked⟩ :=
    TableIterator.Walked.walk hshows hord hdense hserves hfresh hwalk
  constructor
  · intro hne
    rcases hwalked with ⟨hnil, -⟩ | ⟨k, hk, hentry⟩
    · exact absurd hnil hne
    · obtain ⟨e, hget, hvalid, hcurrent⟩ := hentry.shown hord
      rw [hentries] at hget
      exact ⟨k, e, hk, hget, hvalid, hcurrent⟩
  · intro op
    obtain ⟨more, it', c₂, hrun, -, -, hfalse⟩ :=
      hwalked.step hshows hord hdense hserves₁ op
    rw [hentries] at hfalse
    exact ⟨more, it', c₂, hrun, hfalse⟩

/-- Walks over the table of three keys. -/
theorem walk_counts_neighbours : letI := referenceCrates
    ∃ t c₀ it₀, Table.new .default (BufferBackedFile neighboursImage) 211 smallCache =
        .ok (.ok t, c₀) ∧ t.iter = .ok it₀ ∧
      ∀ ops it c₁, Walk t (dataHandles tinyBlocks neighbours) it₀ c₀ ops it c₁ →
        (ops ≠ [] → ∃ (k : Nat) (e : Entry), walkIndex ops = k ∧ neighbours[k]? = some e ∧
          it.valid = true ∧ it.current = .ok (some e)) ∧
        ∀ op : WalkOp, ∃ more it' c₂, op.run it c₁ = .ok (more, it', c₂) ∧
          (more = false ↔ (op = .prev ∧ walkIndex ops ≤ 0) ∨
            (op = .advance ∧ walkIndex ops = (neighbours.length : Int) - 1)) :=
  letI := referenceCrates
  walk_counts tinyBlocks .default neighbours 211 neighboursImage
    (BufferBackedFile neighboursImage) smallCache rfl rfl (by decide) (by decide) (by decide)
    neighbours_blockLimits neighboursImage_eq neighboursImage_small
    (defectiveData_none _ _ _ _) smallCache_reachable (by decide)

end SSTable
