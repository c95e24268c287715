import SSTable.Verification.Table.Seeking
import SSTable.Verification.Table.Using

/-!
# Defective data blocks

Going forward, an iterator passes over the data blocks that cannot be read, and over nothing
else.  Going back and seeking do not pass over them.

Main results:

- Theorem {lit}`forward_skips_defective`: a forward scan reads the entries of the other blocks.
- Theorem {lit}`skips_defective_iff`: exactly when going back and seeking reach the entry that
  they would reach if the defective blocks were not there.
- Theorem {lit}`defective_stops`: a defective block that ends both.
-/

namespace SSTable

open Foundation Foundation.Exec Foundation.Bytes

/-- A forward scan yields exactly the entries of the blocks that are not defective, in order, and
then ends with an invalid iterator; a second scan with the same iterator yields them again.
Between the opening and the scan, the cache may have been used in any way. -/
theorem forward_skips_defective [Crates] (opt ropt : Options) (es : List Entry) (n : Nat)
    (img : Bytes) (bad : Nat → Bool) (f : RandomAccess) (c : BlockCache)
    (hcmp : opt.cmp = DefaultCmp) (hrcmp : ropt.cmp = DefaultCmp) (hinc : Increasing es)
    (hkeys : NonEmptyKeys es) (hlimits : BlockLimits opt es)
    (hwrite : TableBuilder.writeTable opt [] es = .ok (.ok n, img))
    (hsize : img.length ≤ maxAllocation) (hf : DefectiveData opt ropt (cuts opt es) img bad f)
    (hc : c.Reachable) (hid : c.id + 1 < wordLimit) :
    ∃ t c₁ it, Table.new ropt f n c = .ok (.ok t, c₁) ∧ t.iter = .ok it ∧
      ∀ c₂, CacheRun t (dataHandles opt es) c₁ c₂ →
        ∃ it₁ c₃ it₂ c₄,
          TableIterator.collect ((readable bad (cuts opt es)).length + 1) it c₂ =
            .ok (readable bad (cuts opt es), it₁, c₃) ∧ it₁.valid = false ∧
          TableIterator.collect ((readable bad (cuts opt es)).length + 1) it₁ c₃ =
            .ok (readable bad (cuts opt es), it₂, c₄) ∧ it₂.valid = false := by
  obtain ⟨fb, hs, t, reader, -, hnew, -, hshows, hserves, -⟩ :=
    open_written hcmp hrcmp hlimits hwrite hsize hf hc hid
  obtain ⟨it, hiter, hfresh⟩ := TableIterator.iter_spec hshows
  have hord := hs.view_ordered bad hinc hkeys
  have hentries := hs.view_entries bad
  refine ⟨t, _, it, hnew, hiter, ?_⟩
  intro c₂ hrun
  have hserves₂ := hserves.run hshows hrun
  obtain ⟨it₁, c₃, hfirst, hreset₁, hserves₃⟩ := TableIterator.collect_spec hshows hord hserves₂
    hfresh.toReset.ready (Nat.zero_le _)
  obtain ⟨it₂, c₄, hsecond, hreset₂, -⟩ := TableIterator.collect_spec hshows hord hserves₃
    hreset₁.ready (Nat.zero_le _)
  rw [hentries] at hfirst hsecond
  exact ⟨it₁, c₃, it₂, c₄, hfirst, hreset₁.valid, hsecond, hreset₂.valid⟩

/-! ## A defective block between two others -/

/-- The file of three keys whose second data block cannot be read. -/
def defectiveFile : RandomAccess := failingFile neighboursImage fun off => off == 18

theorem defectiveFile_data : letI := referenceCrates
    DefectiveData tinyBlocks .default (cuts tinyBlocks neighbours) neighboursImage (· == 1)
      defectiveFile := by
  let := referenceCrates
  obtain ⟨-, -, -, -, -, -, -, -, hlen, -, hhandles, -⟩ := neighbours_facts
  apply defectiveData_failing
  · intro i p hp
    have hget := congrArg (fun hs => hs[i]?) hhandles
    simp only [List.getElem?_map, hp, Option.map_some] at hget
    match i with
    | 0 => simp_all
    | 1 => simp_all
    | 2 => simp_all
    | _ + 3 => simp at hget
  · intro off hoff
    rw [hlen] at hoff
    simp only [beq_eq_false_iff_ne]
    omega
  · rw [hlen]
    decide

/-- A scan of the table of three keys without its second block. -/
theorem forward_skips_defective_neighbours : letI := referenceCrates
    ∃ t c₁ it, Table.new .default defectiveFile 211 smallCache = .ok (.ok t, c₁) ∧
      t.iter = .ok it ∧
      ∀ c₂, CacheRun t (dataHandles tinyBlocks neighbours) c₁ c₂ →
        ∃ it₁ c₃ it₂ c₄,
          TableIterator.collect ((readable (· == 1) (cuts tinyBlocks neighbours)).length + 1)
            it c₂ = .ok (readable (· == 1) (cuts tinyBlocks neighbours), it₁, c₃) ∧
          it₁.valid = false ∧
          TableIterator.collect ((readable (· == 1) (cuts tinyBlocks neighbours)).length + 1)
            it₁ c₃ = .ok (readable (· == 1) (cuts tinyBlocks neighbours), it₂, c₄) ∧
          it₂.valid = false :=
  letI := referenceCrates
  forward_skips_defective tinyBlocks .default neighbours 211 neighboursImage (· == 1)
    defectiveFile smallCache rfl rfl (by decide) (by decide) neighbours_blockLimits
    neighboursImage_eq neighboursImage_small defectiveFile_data smallCache_reachable (by decide)

/-! ## Going back and seeking -/

section

/-- Going back from the first entry of a block reaches the last entry in front of it that can be
read, and returns false only if there is none. -/
def PrevSkips (bad : Nat → Bool) (cs : List Cut) (i : Nat)
    (r : Exec (Bool × TableIterator × BlockCache)) : Prop :=
  ∃ more it c, r = .ok (more, it, c) ∧
    match (readable bad (cs.take i)).getLast? with
    | some e => more = true ∧ it.current = .ok (some e)
    | none => more = false

/-- The block in front of a block can be read and is not empty, or it cannot be read and there is
nothing to be read in front of it. -/
def PrevFinds (bad : Nat → Bool) (cs : List Cut) (i : Nat) : Prop :=
  ∀ j d, i = j + 1 → cs[j]? = some d →
    (bad j = false ∧ d.entries ≠ []) ∨ (bad j = true ∧ readable bad (cs.take j) = [])

/-- Returning false skips nothing exactly if there is nothing to be read in front. -/
theorem prevSkips_false_iff {bad : Nat → Bool} {cs : List Cut} {i : Nat} {it : TableIterator}
    {c : BlockCache} :
    PrevSkips bad cs i (.ok (false, it, c)) ↔ readable bad (cs.take i) = [] := by
  constructor
  · rintro ⟨more, it₁, c₁, hrun, hmatch⟩
    rw [Except.ok.injEq, Prod.mk.injEq] at hrun
    obtain ⟨rfl, -⟩ := hrun
    rw [← List.getLast?_eq_none_iff]
    cases hlast : (readable bad (cs.take i)).getLast? with
    | none => rfl
    | some e => simp [hlast] at hmatch
  · intro hnil
    refine ⟨false, it, c, rfl, ?_⟩
    rw [hnil]
    rfl

theorem prevFinds_succ_iff {bad : Nat → Bool} {cs : List Cut} {i : Nat} {d : Cut}
    (hd : cs[i]? = some d) :
    PrevFinds bad cs (i + 1) ↔
      (bad i = false ∧ d.entries ≠ []) ∨ (bad i = true ∧ readable bad (cs.take i) = []) := by
  constructor
  · intro h
    exact h i d rfl hd
  · intro h j d' hij hd'
    obtain rfl := Nat.succ.inj hij
    rw [hd, Option.some.injEq] at hd'
    exact hd' ▸ h

variable [Crates]

namespace TableIterator

variable {t : Table} {v : TableView} {it : TableIterator} {c : BlockCache} {i : Nat}

/-- An iterator that shows the first entry of a block is there, unless it has gone back beyond
the first entry of all. -/
theorem Located.at_first (hord : v.Ordered) (hsep : Separated v.index.keys v.blockKeys)
    (h : Located t v it) {L : BlockLayout} {e : Entry} (hL : v.blocks[i]? = some (some L))
    (he : L.entries[0]? = some e) (hcurrent : it.current = .ok (some e)) :
    On t v i 0 it ∨ (i = 0 ∧ Stalled t v (some 0) it) := by
  have hvalid : it.valid = true := by
    cases hcb : it.currentBlock with
    | none => simp [TableIterator.current, hcb] at hcurrent
    | some cb =>
        simp only [TableIterator.current, hcb, BlockIter.current] at hcurrent
        cases hv : cb.valid with
        | true => simp [TableIterator.valid, hcb, hv]
        | false => simp [hv] at hcurrent
  -- Only one block holds the key, and it holds it only once.
  have hplace : ∀ {i' j : Nat} {L' : BlockLayout} {cb : BlockIter} {s : Slot},
      v.blocks[i']? = some (some L') → it.currentBlock = some cb → BlockIter.At L' j s cb →
      i' = i ∧ j = 0 := by
    intro i' j L' cb s hL' hcb hat
    have hord' := hord.block L' (List.mem_of_getElem? hL')
    have hshown := hat.current (hord'.key_ne_nil s (List.mem_of_getElem? hat.slot_eq))
    rw [TableIterator.current, hcb] at hcurrent
    obtain rfl : s.entry = e := Option.some.inj (Except.ok.inj (hshown.symm.trans hcurrent))
    have hkey : s.key ∈ L.keys := by
      rw [← BlockLayout.keysOf_entries]
      exact List.mem_map_of_mem (List.mem_of_getElem? he)
    have hkey' : s.key ∈ L'.keys :=
      List.mem_of_getElem? (by rw [L'.keys_getElem?, hat.slot_eq, Option.map_some])
    have hkeys := v.blockKeys_getElem? hL
    have hkeys' := v.blockKeys_getElem? hL'
    rw [blockEntries, BlockLayout.keysOf_entries] at hkeys hkeys'
    obtain rfl := hsep.index_unique hkeys' hkeys hkey' hkey
    rw [hL', Option.some.injEq, Option.some.injEq] at hL
    subst hL
    refine ⟨rfl, ?_⟩
    by_contra hne
    rw [L'.entries_getElem?, Option.map_eq_some_iff] at he
    obtain ⟨s', hs', hentry⟩ := he
    have hlt := hord'.key_lt hs' hat.slot_eq (Nat.pos_of_ne_zero hne)
    have hsame : s'.key = s.key := congrArg Prod.fst hentry
    rw [hsame] at hlt
    exact lt_irrefl _ hlt
  rcases h.of_valid hvalid with ⟨i', j, hon⟩ | ⟨j, hstalled⟩
  · obtain ⟨L', cb, s, hL', hcb, hat⟩ := hon.block
    obtain ⟨rfl, rfl⟩ := hplace hL' hcb hat
    exact Or.inl hon
  · obtain ⟨L', cb, hL', hcb, s, hat⟩ := hstalled.block
    obtain ⟨rfl, rfl⟩ := hplace hL' hcb hat
    exact Or.inr ⟨rfl, hstalled⟩

end TableIterator

variable {opt : Options} {es : List Entry} {fb : Bytes} {bad : Nat → Bool} {i : Nat}

/-- Going back from the first entry of a block. -/
theorem prevSkips_iff (hs : Sizes opt (cuts opt es) fb) {t : Table} {it : TableIterator}
    {c : BlockCache} (hinc : Increasing es) (hkeys : NonEmptyKeys es)
    (hshows : t.Shows (hs.view bad)) (hserves : CacheServes t (hs.view bad) c)
    (hlocated : TableIterator.Located t (hs.view bad) it) {b : Cut} {e : Entry}
    (hb : (cuts opt es)[i]? = some b) (hbad : bad i = false) (he : b.entries.head? = some e)
    (hcurrent : it.current = .ok (some e)) :
    PrevSkips bad (cuts opt es) i (it.prev c) ↔ PrevFinds bad (cuts opt es) i := by
  have hord := hs.view_ordered bad hinc hkeys
  have hblock : (hs.view bad).blocks[i]? = some (some (layoutOf opt b.entries)) := by
    simp [hs.view_blocks, hb, hbad]
  have hplace := hlocated.at_first hord (hs.view_separated bad hinc hkeys) hblock
    (by rw [layoutOf_entries, ← List.head?_eq_getElem?, he]) hcurrent
  cases i with
  | zero =>
      have hprev : ∃ it', it.prev c = .ok (false, it', c) := by
        rcases hplace with hon | ⟨-, hstalled⟩
        · exact TableIterator.prev_at_start hon
        · obtain ⟨it', hrun, -⟩ := hstalled.prev (c := c)
          exact ⟨it', hrun⟩
      obtain ⟨it', hprev⟩ := hprev
      rw [hprev, prevSkips_false_iff]
      constructor
      · intro _ j d hij
        cases hij
      · intro _
        rfl
  | succ i =>
      have hon := hplace.resolve_right (fun h => by cases h.1)
      have hi := (List.getElem?_eq_some_iff.mp hb).1
      obtain ⟨d, hd⟩ : ∃ d, (cuts opt es)[i]? = some d :=
        ⟨_, List.getElem?_eq_getElem (Nat.lt_of_succ_lt hi)⟩
      rw [prevFinds_succ_iff hd]
      cases hbadi : bad i with
      | true =>
          have hfront : (hs.view bad).blocks[i]? = some none := by
            simp [hs.view_blocks, hd, hbadi]
          obtain ⟨it', c', hprev, -, -⟩ :=
            TableIterator.prev_across hshows hord hserves hon hfront
          rw [hprev, prevSkips_false_iff, readable_take_succ bad hd]
          simp [hbadi]
      | false =>
          have hfront : (hs.view bad).blocks[i]? = some (some (layoutOf opt d.entries)) := by
            simp [hs.view_blocks, hd, hbadi]
          have hacross := TableIterator.prev_across hshows hord hserves hon hfront
          simp only [Bool.false_eq_true, true_and, false_and, or_false]
          by_cases hnil : d.entries = []
          · simp only [if_pos (layoutOf_slots_eq_nil_iff.mpr hnil)] at hacross
            constructor
            · rintro ⟨more, it₁, c₁, hrun, -⟩
              exact absurd ⟨_, hrun⟩ hacross
            · intro hne
              exact absurd hnil hne
          · simp only [if_neg (mt layoutOf_slots_eq_nil_iff.mp hnil)] at hacross
            obtain ⟨it', c', hprev, -, hon'⟩ := hacross
            obtain ⟨e', hget, -, hshown, -⟩ := hon'.shown hord
            have hlast : d.entries.length - 1 < (layoutOf opt d.entries).slots.length := by
              rw [layoutOf_slots_length]
              exact Nat.sub_lt (List.length_pos_of_ne_nil hnil) Nat.one_pos
            rw [layoutOf_slots_length, (hs.view bad).entries_getElem? hfront hlast,
              layoutOf_entries, ← List.getLast?_eq_getElem?] at hget
            constructor
            · intro _
              exact hnil
            · intro _
              refine ⟨true, it', c', hprev, ?_⟩
              rw [readable_take_succ bad hd, hbadi, if_neg Bool.false_ne_true,
                List.getLast?_append, hget, Option.some_or]
              exact ⟨rfl, hshown⟩

end

/-- Going back and seeking in a table with defective blocks, in every state that an iterator over
it reaches.  Going back from the first entry of a readable block skips the defective blocks
exactly if the block in front of it can be read and is not empty, or there is nothing to be read
in front of it.  Seeking skips them unless the first block whose separator reaches the target
cannot be read or has keys below the target only, with readable entries behind it. -/
theorem skips_defective_iff [Crates] (opt ropt : Options) (es : List Entry) (n : Nat)
    (img : Bytes) (bad : Nat → Bool) (f : RandomAccess) (c : BlockCache)
    (hcmp : opt.cmp = DefaultCmp) (hrcmp : ropt.cmp = DefaultCmp) (hinc : Increasing es)
    (hkeys : NonEmptyKeys es) (hlimits : BlockLimits opt es)
    (hwrite : TableBuilder.writeTable opt [] es = .ok (.ok n, img))
    (hsize : img.length ≤ maxAllocation) (hf : DefectiveData opt ropt (cuts opt es) img bad f)
    (hc : c.Reachable) (hid : c.id + 1 < wordLimit) :
    ∃ t c₀ it₀, Table.new ropt f n c = .ok (.ok t, c₀) ∧ t.iter = .ok it₀ ∧
      ∀ it c₁, Used t (dataHandles opt es) it₀ c₀ it c₁ →
        (∀ i b e, (cuts opt es)[i]? = some b → bad i = false → b.entries.head? = some e →
          it.current = .ok (some e) →
          (PrevSkips bad (cuts opt es) i (it.prev c₁) ↔ PrevFinds bad (cuts opt es) i)) ∧
        ∀ target, ∃ it' c₂, it.seek target c₁ = .ok (it', c₂) ∧
          (SeeksLeast (readable bad (cuts opt es)) target it' c₂ ↔
            ¬ SeekLoses bad (cuts opt es) target) := by
  obtain ⟨fb, hs, t, reader, -, hnew, -, hshows, hserves, -⟩ :=
    open_written hcmp hrcmp hlimits hwrite hsize hf hc hid
  obtain ⟨it₀, hiter, hfresh⟩ := TableIterator.iter_spec hshows
  refine ⟨t, _, it₀, hnew, hiter, ?_⟩
  intro it c₁ hused
  obtain ⟨hserves₁, hlocated⟩ := Used.located hshows (hs.view_ordered bad hinc hkeys) hserves
    (.reset hfresh.toReset) hused
  constructor
  · intro i b e hb hbad he hcurrent
    exact prevSkips_iff hs hinc hkeys hshows hserves₁ hlocated hb hbad he hcurrent
  · intro target
    exact seek_readable bad hs hinc hkeys hshows hserves₁ hlocated.table_eq hlocated.rewound target

/-- Going back and seeking in the table of three keys without its second block. -/
theorem skips_defective_iff_neighbours : letI := referenceCrates
    ∃ t c₀ it₀, Table.new .default defectiveFile 211 smallCache = .ok (.ok t, c₀) ∧
      t.iter = .ok it₀ ∧
      ∀ it c₁, Used t (dataHandles tinyBlocks neighbours) it₀ c₀ it c₁ →
        (∀ i b e, (cuts tinyBlocks neighbours)[i]? = some b → (i == 1) = false →
          b.entries.head? = some e → it.current = .ok (some e) →
          (PrevSkips (· == 1) (cuts tinyBlocks neighbours) i (it.prev c₁) ↔
            PrevFinds (· == 1) (cuts tinyBlocks neighbours) i)) ∧
        ∀ target, ∃ it' c₂, it.seek target c₁ = .ok (it', c₂) ∧
          (SeeksLeast (readable (· == 1) (cuts tinyBlocks neighbours)) target it' c₂ ↔
            ¬ SeekLoses (· == 1) (cuts tinyBlocks neighbours) target) :=
  letI := referenceCrates
  skips_defective_iff tinyBlocks .default neighbours 211 neighboursImage (· == 1) defectiveFile
    smallCache rfl rfl (by decide) (by decide) neighbours_blockLimits neighboursImage_eq
    neighboursImage_small defectiveFile_data smallCache_reachable (by decide)

/-- Open a table, seek in it with a fresh iterator and go back; the result is the entry the
iterator was on and whether it moved. -/
def prevOpened [Crates] (opt : Options) (f : RandomAccess) (size : Nat) (c : BlockCache)
    (target : Bytes) : Exec (Result (Option Entry × Bool)) := do
  let (opened, c) ← Table.new opt f size c
  match opened with
  | .error e => pure (.error e)
  | .ok t => do
      let it ← t.iter
      let (it, c) ← it.seek target c
      let entry ← it.current
      let (more, _, _) ← it.prev c
      pure (.ok (entry, more))

set_option maxRecDepth 10000 in
/-- With the second of three blocks defective, seeking the separator behind it finds nothing although
the third block holds a greater key, and going back from the third block ends although the first one
can be read. -/
theorem defective_stops : letI := referenceCrates
    Increasing neighbours ∧ NonEmptyKeys neighbours ∧
      TableBuilder.writeTable tinyBlocks ([] : Bytes) neighbours = .ok (.ok 211, neighboursImage) ∧
      ∃ t c₀ it₀, Table.new .default defectiveFile 211 smallCache = .ok (.ok t, c₀) ∧
        t.iter = .ok it₀ ∧
        (∃ it c₁, it₀.seek [97, 0, 0] c₀ = .ok (it, c₁) ∧ it.valid = false ∧
          ¬ SeeksLeast (readable (· == 1) (cuts tinyBlocks neighbours)) [97, 0, 0] it c₁) ∧
        ∃ it c₁, it₀.seek [98] c₀ = .ok (it, c₁) ∧ it.current = .ok (some ([98], [3])) ∧
          ¬ PrevSkips (· == 1) (cuts tinyBlocks neighbours) 2 (it.prev c₁) := by
  let := referenceCrates
  refine ⟨by decide, by decide, neighboursImage_eq, ?_⟩
  obtain ⟨hread, hfront, hseek, hprev⟩ :
      readable (· == 1) (cuts tinyBlocks neighbours) = [([97], [1]), ([98], [3])] ∧
      readable (· == 1) ((cuts tinyBlocks neighbours).take 2) = [([97], [1])] ∧
      seekOpened .default defectiveFile 211 smallCache [97, 0, 0] = .ok (.ok false) ∧
      prevOpened .default defectiveFile 211 smallCache [98] =
        .ok (.ok (some ([98], [3]), false)) := by
    decide +kernel
  obtain ⟨t, c₀, it₀, it, c₁, hnew, hiter, hrun, hvalid⟩ := seekOpened_eq_ok hseek
  refine ⟨t, c₀, it₀, hnew, hiter, ⟨it, c₁, hrun, hvalid, ?_⟩, ?_⟩
  · have hbound : Cursor.lowerBound (keysOf [([97], [1]), ([98], [3])]) [97, 0, 0] = some 1 := by
      decide
    unfold SeeksLeast
    rw [hread, hbound]
    rintro ⟨htrue, -⟩
    rw [hvalid] at htrue
    cases htrue
  · simp only [prevOpened, hnew, ok_bind, hiter, bind_eq_ok_iff] at hprev
    obtain ⟨⟨it', c₂⟩, hrun', entry, hcurrent, ⟨more, it'', c₃⟩, hback, hresult⟩ := hprev
    simp only [pure_eq_ok, Except.ok.injEq, Prod.mk.injEq] at hresult
    obtain ⟨rfl, rfl⟩ := hresult
    refine ⟨it', c₂, hrun', hcurrent, ?_⟩
    rintro ⟨more, it₁, c₄, hback', hmatch⟩
    rw [hback, Except.ok.injEq, Prod.mk.injEq, Prod.mk.injEq] at hback'
    obtain ⟨rfl, -, -⟩ := hback'
    simp only [hfront] at hmatch
    cases hmatch.1

end SSTable
