import SSTable.Verification.Table.RoundTrip

/-!
# Seeking in a table

A seek looks into one data block only, the first whose separator reaches the target.  It reaches
the least entry that is not below the target, unless that block cannot be read or has keys below
the target only while there are entries behind it.

Main results:

- Theorem {lit}`seeksLeast_iff`: when a seek reaches the least entry, for any set of defective
  blocks.
- Theorem {lit}`seek_least_iff`: the same for a table without defective blocks.
- Theorem {lit}`seek_misses`: a seek that reaches nothing although the target is a key.
-/

namespace SSTable

open Foundation Foundation.Exec Foundation.Bytes

section

variable [Crates]

/-- A seek has reached the first entry whose key is not below the target, and advancing reads
the entries behind it; where there is no such entry, the iterator is invalid. -/
def SeeksLeast (es : List Entry) (target : Bytes) (it : TableIterator) (c : BlockCache) : Prop :=
  match Cursor.lowerBound (keysOf es) target with
  | some k => it.valid = true ∧ ∃ e it' c', es[k]? = some e ∧ it.current = .ok (some e) ∧
      TableIterator.collect (es.length - k) it c = .ok (es.drop (k + 1), it', c')
  | none => it.valid = false

/-- A seek loses entries if the first block whose separator reaches the target cannot be read or
has keys below the target only, and a readable block behind it has entries. -/
def SeekLoses (bad : Nat → Bool) (cs : List Cut) (target : Bytes) : Prop :=
  ∃ i c, cs[i]? = some c ∧ (∀ j d, j < i → cs[j]? = some d → d.sep < target) ∧ target ≤ c.sep ∧
    (bad i = true ∨ ∀ k ∈ keysOf c.entries, k < target) ∧
    ∃ j d, i < j ∧ cs[j]? = some d ∧ bad j = false ∧ d.entries ≠ []

namespace TableView

variable (v : TableView)

/-- The keys of the blocks that can be read. -/
def blockKeys : List (List Bytes) := v.blocks.map fun b => keysOf (blockEntries b)

theorem flatten_blockKeys : v.blockKeys.flatten = keysOf v.entries := by
  rw [blockKeys, entries, keysOf, List.map_flatten, List.map_map]
  rfl

theorem take_blockKeys (i : Nat) : (v.blockKeys.take i).flatten.length = v.start i := by
  have hkeys : (v.blockKeys.take i).flatten =
      keysOf ((v.blocks.take i).map blockEntries).flatten := by
    rw [blockKeys, keysOf, List.map_flatten, List.map_map, List.map_take]
    rfl
  rw [hkeys, keysOf_length, start]

theorem blockKeys_getElem? {i : Nat} {b : Option BlockLayout} (h : v.blocks[i]? = some b) :
    v.blockKeys[i]? = some (keysOf (blockEntries b)) := by
  rw [blockKeys, List.getElem?_map, h, Option.map_some]

end TableView

namespace TableIterator

variable {t : Table} {v : TableView} {it : TableIterator} {c : BlockCache} {target : Bytes}

/-- An invalid iterator is right exactly if there is nothing to reach. -/
theorem seeksLeast_iff_of_invalid {es : List Entry} (hinvalid : it.valid = false) :
    SeeksLeast es target it c ↔ Cursor.lowerBound (keysOf es) target = none := by
  unfold SeeksLeast
  cases Cursor.lowerBound (keysOf es) target <;> simp [hinvalid]

/-- A seek that finds nothing in its block is right exactly if the blocks behind it have no
entries. -/
theorem seeksLeast_iff_of_missing (hsep : Separated v.index.keys v.blockKeys) {i : Nat}
    (hbound : Cursor.lowerBound v.index.keys target = some i) {b : List Bytes}
    (hb : v.blockKeys[i]? = some b) (hnone : Cursor.lowerBound b target = none)
    (hinvalid : it.valid = false) :
    SeeksLeast v.entries target it c ↔
      ∀ (j : Nat) (d : List Bytes), i < j → v.blockKeys[j]? = some d → d = [] := by
  rw [seeksLeast_iff_of_invalid hinvalid, ← v.flatten_blockKeys]
  exact hsep.lowerBound_flatten_eq_none_iff hbound hb hnone

/-- A seek that ends on the least entry reads those behind it. -/
theorem On.seeksLeast (hshows : t.Shows v) (hord : v.Ordered) (hserves : CacheServes t v c)
    {i j : Nat} (h : On t v i j it)
    (hfound : Cursor.lowerBound (keysOf v.entries) target = some (v.start i + j)) :
    SeeksLeast v.entries target it c := by
  unfold SeeksLeast
  obtain ⟨e, he, hvalid, hcurrent, -⟩ := h.shown hord
  have hlt := h.lt_length
  obtain ⟨it', c', hcollect, -⟩ := collect_spec hshows hord hserves h.ready hlt
  have hcalls : v.entries.length - (v.start i + j + 1) + 1 =
      v.entries.length - (v.start i + j) := by omega
  rw [hcalls] at hcollect
  rw [hfound]
  exact ⟨hvalid, e, it', c', he, hcurrent, hcollect⟩

/-- Where seeking ends, no more than the entries behind the block can have been lost. -/
theorem Sought.seeksLeast_iff (hshows : t.Shows v) (hord : v.Ordered) (hserves : CacheServes t v c)
    (hsep : Separated v.index.keys v.blockKeys) (h : Sought t v target it) :
    SeeksLeast v.entries target it c ↔
      ¬ ∃ i b, Cursor.lowerBound v.index.keys target = some i ∧ v.blockKeys[i]? = some b ∧
        (∀ k ∈ b, k < target) ∧
        ∃ j d, i < j ∧ v.blockKeys[j]? = some d ∧ d ≠ [] := by
  unfold Sought at h
  cases hbound : Cursor.lowerBound v.index.keys target with
  | none =>
      rw [hbound] at h
      have hreset : Reset t v it := h
      rw [seeksLeast_iff_of_invalid hreset.valid, ← v.flatten_blockKeys,
        Cursor.lowerBound_eq_none_iff]
      constructor
      · rintro - ⟨i, b, hi, -⟩
        cases hi
      · intro _ k hk
        obtain ⟨b, hb, hkb⟩ := List.mem_flatten.mp hk
        exact hsep.lt_of_lowerBound_none hbound hb hkb
  | some i =>
      rw [hbound] at h
      have hi : i < v.blocks.length := by
        obtain ⟨s, hs, -⟩ := Cursor.lowerBound_eq_some_iff.mp hbound
        have hlt := (List.getElem?_eq_some_iff.mp hs).1
        rw [hsep.length_eq, TableView.blockKeys, List.length_map] at hlt
        exact hlt
      obtain ⟨b, hb⟩ : ∃ b, v.blocks[i]? = some b := ⟨_, List.getElem?_eq_getElem hi⟩
      have hkeys := v.blockKeys_getElem? hb
      simp only [hb] at h
      -- What is lost are the entries behind a block in which nothing is found.
      have hlosses : (¬ ∃ i' b', some i = some i' ∧ v.blockKeys[i']? = some b' ∧
          (∀ k ∈ b', k < target) ∧ ∃ j d, i' < j ∧ v.blockKeys[j]? = some d ∧ d ≠ []) ↔
          (Cursor.lowerBound (keysOf (blockEntries b)) target = none →
            ∀ (j : Nat) (d : List Bytes), i < j → v.blockKeys[j]? = some d → d = []) := by
        rw [Cursor.lowerBound_eq_none_iff]
        constructor
        · intro hnot hbelow j d hij hd
          by_contra hne
          exact hnot ⟨i, _, rfl, hkeys, hbelow, j, d, hij, hd, hne⟩
        · rintro hall ⟨i', b', hi', hb', hbelow, j, d, hij, hd, hne⟩
          obtain rfl := Option.some.inj hi'
          rw [hkeys, Option.some.injEq] at hb'
          exact hne (hall (hb' ▸ hbelow) j d hij hd)
      rw [hlosses]
      cases b with
      | none =>
          have hnone : Cursor.lowerBound (keysOf (blockEntries none)) target = none := rfl
          rw [seeksLeast_iff_of_missing hsep hbound hkeys hnone (Reset.valid h)]
          exact ⟨fun hall _ => hall, fun hall => hall hnone⟩
      | some L =>
          dsimp only at h
          have hblock : keysOf (blockEntries (some L)) = L.keys := by
            rw [blockEntries, BlockLayout.keysOf_entries]
          rw [hblock] at hkeys ⊢
          cases hentry : Cursor.lowerBound L.keys target with
          | none =>
              rw [hentry] at h
              have hparked : Parked t v i it := h
              rw [seeksLeast_iff_of_missing hsep hbound hkeys hentry hparked.valid]
              exact ⟨fun hall _ => hall, fun hall => hall rfl⟩
          | some j =>
              rw [hentry] at h
              have hon : On t v i j it := h
              have hfound := hsep.lowerBound_flatten_of_some hbound hkeys hentry
              rw [v.take_blockKeys, v.flatten_blockKeys] at hfound
              apply iff_of_true (hon.seeksLeast hshows hord hserves hfound)
              intro hnone
              cases hnone

end TableIterator

/-! ## In a written table -/

variable {opt : Options} {es : List Entry} {cs : List Cut} {fb : Bytes} {target : Bytes}

theorem Sizes.view_blockKeys (hs : Sizes opt cs fb) (bad : Nat → Bool) (i : Nat) :
    (hs.view bad).blockKeys[i]? =
      cs[i]?.map fun c => if bad i then [] else keysOf c.entries := by
  rw [TableView.blockKeys, List.getElem?_map, hs.view_blocks, Option.map_map]
  congr 1
  funext c
  cases bad i <;> simp [blockEntries]

/-- The separators of a sorted table separate the blocks that can be read. -/
theorem Sizes.view_separated (hs : Sizes opt (cuts opt es) fb) (bad : Nat → Bool)
    (hinc : Increasing es) (hkeys : NonEmptyKeys es) :
    Separated (hs.view bad).index.keys (hs.view bad).blockKeys := by
  rw [hs.view_index_keys]
  apply (cuts_separated hinc hkeys).of_subset
  · simp [TableView.blockKeys, Sizes.view]
  · intro j b d hb hd
    rw [hs.view_blockKeys, Option.map_eq_some_iff] at hb
    rw [List.getElem?_map, Option.map_eq_some_iff] at hd
    obtain ⟨c, hc, rfl⟩ := hb
    obtain ⟨c', hc', rfl⟩ := hd
    rw [hc, Option.some.injEq] at hc'
    subst hc'
    split
    · exact List.nil_subset _
    · exact List.Subset.refl _

/-- What it means for a seek to lose entries, in terms of the blocks that were written. -/
theorem Sizes.seekLoses_iff (hs : Sizes opt cs fb) (bad : Nat → Bool) :
    (∃ i b, Cursor.lowerBound (hs.view bad).index.keys target = some i ∧
      (hs.view bad).blockKeys[i]? = some b ∧ (∀ k ∈ b, k < target) ∧
      ∃ j d, i < j ∧ (hs.view bad).blockKeys[j]? = some d ∧ d ≠ []) ↔
    SeekLoses bad cs target := by
  simp only [hs.view_blockKeys, hs.view_index_keys, Cursor.lowerBound_eq_some_iff,
    List.getElem?_map, Option.map_eq_some_iff]
  constructor
  · rintro ⟨i, b, ⟨s, ⟨c, hc, rfl⟩, hle, hbefore⟩, ⟨c', hc', rfl⟩, hbelow, j, d, hij, ⟨c'', hd, rfl⟩,
      hne⟩
    rw [hc, Option.some.injEq] at hc'
    subst hc'
    refine ⟨i, c, hc, ?_, hle, ?_, j, c'', hij, hd, ?_, ?_⟩
    · intro m d hm hd
      exact hbefore m d.sep hm ⟨d, hd, rfl⟩
    · cases hbad : bad i with
      | true => exact Or.inl rfl
      | false => exact Or.inr (by simpa [hbad] using hbelow)
    · cases hbad : bad j with
      | true => simp [hbad] at hne
      | false => rfl
    · rintro hnil
      simp [hnil] at hne
  · rintro ⟨i, c, hc, hbefore, hle, hbelow, j, d, hij, hd, hbad, hne⟩
    refine ⟨i, _, ⟨c.sep, ⟨c, hc, rfl⟩, hle, ?_⟩, ⟨c, hc, rfl⟩, ?_, j, _, hij, ⟨d, hd, rfl⟩, ?_⟩
    · rintro m k hm ⟨d, hd, rfl⟩
      exact hbefore m d hm hd
    · intro k hk
      cases hbadi : bad i with
      | true => simp [hbadi] at hk
      | false =>
          rw [hbadi, if_neg Bool.false_ne_true] at hk
          exact hbelow.resolve_left (by simp [hbadi]) k hk
    · simpa [hbad, keysOf] using hne

/-- Seeking from any state of an iterator and of the cache: it reaches the least readable entry
that is not below the target, unless it loses entries. -/
theorem seek_readable (bad : Nat → Bool) (hs : Sizes opt (cuts opt es) fb) {t : Table}
    {it : TableIterator} {c : BlockCache} (hinc : Increasing es) (hkeys : NonEmptyKeys es)
    (hshows : t.Shows (hs.view bad)) (hserves : CacheServes t (hs.view bad) c)
    (htable : it.table = t)
    (hover : BlockIter.Over (hs.view bad).index { it.indexBlock with currentRestartIx := 0 })
    (target : Bytes) :
    ∃ it' c', it.seek target c = .ok (it', c') ∧
      (SeeksLeast (readable bad (cuts opt es)) target it' c' ↔
        ¬ SeekLoses bad (cuts opt es) target) := by
  have hord := hs.view_ordered bad hinc hkeys
  obtain ⟨it', c', hseek, hserves', hsought⟩ :=
    TableIterator.seek_spec hshows hord hserves htable hover target
  refine ⟨it', c', hseek, ?_⟩
  have hleast := hsought.seeksLeast_iff hshows hord hserves' (hs.view_separated bad hinc hkeys)
  rwa [hs.view_entries, hs.seekLoses_iff] at hleast

/-- Without defective blocks, only a target between the last key of a block and its separator is
lost. -/
theorem seekLoses_none_iff (hinc : Increasing es) (hkeys : NonEmptyKeys es) :
    SeekLoses (fun _ => false) (cuts opt es) target ↔
      ∃ i c, (cuts opt es)[i]? = some c ∧ i + 1 < (cuts opt es).length ∧ target ≤ c.sep ∧
        ∀ k ∈ keysOf c.entries, k < target := by
  constructor
  · rintro ⟨i, c, hc, -, hle, hbelow, j, d, hij, hd, -, -⟩
    have hj := (List.getElem?_eq_some_iff.mp hd).1
    exact ⟨i, c, hc, by omega, hle, hbelow.resolve_left (by simp)⟩
  · rintro ⟨i, c, hc, hi, hle, hbelow⟩
    have hnext := List.getElem?_eq_getElem hi
    refine ⟨i, c, hc, ?_, hle, Or.inr hbelow, i + 1, _, Nat.lt_succ_self i, hnext, rfl,
      cut_succ_ne_nil (cuts_chained opt es) hnext⟩
    intro j d hj hd
    -- A block that is not the first one has a key, and the separators before it do not lie above.
    obtain ⟨m, rfl⟩ : ∃ m, i = m + 1 := ⟨i - 1, by omega⟩
    have hne := cut_succ_ne_nil (cuts_chained opt es) hc
    have hsep := (cuts_separated hinc hkeys).sep_le hj
      (by rw [List.getElem?_map, hd]; rfl) (by rw [List.getElem?_map, hc]; rfl) (lastKeyOf_mem hne)
    exact lt_of_le_of_lt hsep (hbelow _ (lastKeyOf_mem hne))

end

/-- Seeking in a table without defective blocks, from any state of an iterator over it: the
iterator ends on the least entry that is not below the target, with the entries behind it to
come, exactly if every block but the last whose separator reaches the target has a key that
does. -/
theorem seek_least_iff [Crates] (opt ropt : Options) (es : List Entry) (n : Nat) (img : Bytes)
    (f : RandomAccess) (c : BlockCache) (hcmp : opt.cmp = DefaultCmp)
    (hrcmp : ropt.cmp = DefaultCmp) (hinc : Increasing es) (hkeys : NonEmptyKeys es)
    (hlimits : BlockLimits opt es) (hwrite : TableBuilder.writeTable opt [] es = .ok (.ok n, img))
    (hsize : img.length ≤ maxAllocation)
    (hf : DefectiveData opt ropt (cuts opt es) img (fun _ => false) f)
    (hc : c.Reachable) (hid : c.id + 1 < wordLimit) :
    ∃ t c₁, Table.new ropt f n c = .ok (.ok t, c₁) ∧
      ∀ (it : TableIterator) (c₂ : BlockCache) (target : Bytes), TableIterator.Attached t it →
        CacheRun t (dataHandles opt es) c₁ c₂ →
        ∃ it' c₃, it.seek target c₂ = .ok (it', c₃) ∧
          (SeeksLeast es target it' c₃ ↔
            ∀ i b, (cuts opt es)[i]? = some b → i + 1 < (cuts opt es).length → target ≤ b.sep →
              ∃ k ∈ keysOf b.entries, target ≤ k) := by
  obtain ⟨fb, hs, t, reader, -, hnew, -, hshows, hserves, -⟩ :=
    open_written hcmp hrcmp hlimits hwrite hsize hf hc hid
  refine ⟨t, _, hnew, ?_⟩
  intro it c₂ target hattached hrun
  obtain ⟨it', c₃, hseek, hleast⟩ := seek_readable (fun _ => false) hs hinc hkeys hshows
    (hserves.run hshows hrun) hattached.table_eq (hattached.over hshows) target
  rw [readable_none, flatten_cuts, seekLoses_none_iff hinc hkeys] at hleast
  refine ⟨it', c₃, hseek, hleast.trans ?_⟩
  constructor
  · intro hnot i b hb hi hle
    by_contra hnone
    refine hnot ⟨i, b, hb, hi, hle, ?_⟩
    intro k hk
    exact not_le.mp fun hreach => hnone ⟨k, hk, hreach⟩
  · rintro hall ⟨i, b, hb, hi, hle, hbelow⟩
    obtain ⟨k, hk, hreach⟩ := hall i b hb hi hle
    exact absurd (hbelow k hk) (not_lt.mpr hreach)

/-- Seeking in the table of three keys. -/
theorem seek_least_iff_neighbours : letI := referenceCrates
    ∃ t c₁, Table.new .default (BufferBackedFile neighboursImage) 211 smallCache =
        .ok (.ok t, c₁) ∧
      ∀ (it : TableIterator) (c₂ : BlockCache) (target : Bytes), TableIterator.Attached t it →
        CacheRun t (dataHandles tinyBlocks neighbours) c₁ c₂ →
        ∃ it' c₃, it.seek target c₂ = .ok (it', c₃) ∧
          (SeeksLeast neighbours target it' c₃ ↔
            ∀ i b, (cuts tinyBlocks neighbours)[i]? = some b →
              i + 1 < (cuts tinyBlocks neighbours).length → target ≤ b.sep →
              ∃ k ∈ keysOf b.entries, target ≤ k) :=
  letI := referenceCrates
  seek_least_iff tinyBlocks .default neighbours 211 neighboursImage
    (BufferBackedFile neighboursImage) smallCache rfl rfl (by decide) (by decide)
    neighbours_blockLimits neighboursImage_eq neighboursImage_small
    (defectiveData_none _ _ _ _) smallCache_reachable (by decide)

/-- Open a table, seek in it with a fresh iterator, and say whether the iterator is valid. -/
def seekOpened [Crates] (opt : Options) (f : RandomAccess) (size : Nat) (c : BlockCache)
    (target : Bytes) : Exec (Result Bool) := do
  let (opened, c) ← Table.new opt f size c
  match opened with
  | .error e => pure (.error e)
  | .ok t => do
      let it ← t.iter
      let (it, _) ← it.seek target c
      pure (.ok it.valid)

theorem seekOpened_eq_ok [Crates] {opt : Options} {f : RandomAccess} {size : Nat} {c : BlockCache}
    {target : Bytes} {valid : Bool} (h : seekOpened opt f size c target = .ok (.ok valid)) :
    ∃ t c₁ it it' c₂, Table.new opt f size c = .ok (.ok t, c₁) ∧ t.iter = .ok it ∧
      it.seek target c₁ = .ok (it', c₂) ∧ it'.valid = valid := by
  simp only [seekOpened, bind_eq_ok_iff] at h
  obtain ⟨⟨opened, c₁⟩, hnew, h⟩ := h
  cases opened with
  | error e => simp at h
  | ok t =>
      simp only [bind_eq_ok_iff] at h
      obtain ⟨it, hiter, ⟨it', c₂⟩, hseek, hvalid⟩ := h
      simp only [pure_eq_ok, Except.ok.injEq] at hvalid
      exact ⟨t, c₁, it, it', c₂, hnew, hiter, hseek, hvalid⟩

/-- Open a table and look a key up. -/
def getOpened [Crates] (opt : Options) (f : RandomAccess) (size : Nat) (c : BlockCache)
    (key : Bytes) : Exec (Result (Option Bytes)) := do
  let (opened, c) ← Table.new opt f size c
  match opened with
  | .error e => pure (.error e)
  | .ok t => do
      let (found, _) ← t.get key c
      pure found

theorem getOpened_eq_ok [Crates] {opt : Options} {f : RandomAccess} {size : Nat} {c : BlockCache}
    {key : Bytes} {found : Option Bytes} (h : getOpened opt f size c key = .ok (.ok found)) :
    ∃ t c₁ c₂, Table.new opt f size c = .ok (.ok t, c₁) ∧ t.get key c₁ = .ok (.ok found, c₂) := by
  simp only [getOpened, bind_eq_ok_iff] at h
  obtain ⟨⟨opened, c₁⟩, hnew, h⟩ := h
  cases opened with
  | error e => simp at h
  | ok t =>
      simp only [bind_eq_ok_iff] at h
      obtain ⟨⟨r, c₂⟩, hget, hresult⟩ := h
      simp only [pure_eq_ok, Except.ok.injEq] at hresult
      subst hresult
      exact ⟨t, c₁, c₂, hnew, hget⟩

set_option maxRecDepth 10000 in
/-- What there is to compute about a key that is the separator of the block in front of its own. -/
theorem neighbours_missed : letI := referenceCrates
    seekOpened .default (BufferBackedFile neighboursImage) 211 smallCache [97, 0] =
        .ok (.ok false) ∧
      getOpened .default (BufferBackedFile neighboursImage) 211 smallCache [97, 0] =
        .ok (.ok none) := by
  decide +kernel

/-- Seeking a key that was written can leave the iterator invalid: the separator of the block in
front of it reaches the key as well. -/
theorem seek_misses : letI := referenceCrates
    Increasing neighbours ∧ NonEmptyKeys neighbours ∧
      TableBuilder.writeTable tinyBlocks ([] : Bytes) neighbours = .ok (.ok 211, neighboursImage) ∧
      ∃ t c₁ it it' c₂,
        Table.new .default (BufferBackedFile neighboursImage) 211 smallCache = .ok (.ok t, c₁) ∧
        t.iter = .ok it ∧ it.seek [97, 0] c₁ = .ok (it', c₂) ∧ it'.valid = false ∧
        ¬ SeeksLeast neighbours [97, 0] it' c₂ := by
  let := referenceCrates
  refine ⟨by decide, by decide, neighboursImage_eq, ?_⟩
  obtain ⟨t, c₁, it, it', c₂, hnew, hiter, hseek, hvalid⟩ := seekOpened_eq_ok neighbours_missed.1
  refine ⟨t, c₁, it, it', c₂, hnew, hiter, hseek, hvalid, ?_⟩
  have hbound : Cursor.lowerBound (keysOf neighbours) [97, 0] = some 1 := by decide
  unfold SeeksLeast
  rw [hbound]
  rintro ⟨htrue, -⟩
  rw [hvalid] at htrue
  cases htrue

end SSTable
