import SSTable.Foundation.Pieces
import SSTable.Model.FilterBlock

/-!
# Filter blocks

The file is divided into ranges of 2 KiB, and a data block belongs to the range it begins in.
The builder writes one filter for the keys of every range, and the reader finds the filter of a
block's range from the block's offset.

Main results:

- Theorem {lit}`feed_finish_spec`: what the builder writes for a sequence of data blocks.
- Theorem {lit}`new_filterBlockBytes`: a written filter block is opened.
- Theorem {lit}`keyMayMatch_reading`: a key is tested against the filter of the range.
-/

namespace SSTable

open Foundation Foundation.Exec Foundation.Bytes Foundation.Pieces

/-! ## Ranges -/

/-- The number of a range, in a 32-bit word, is the index of its filter. -/
theorem getFilterIndex_eq (offset : Nat) :
    getFilterIndex offset filterBaseLog2 = .ok (asU32 (offset / 2048)) := by
  rw [getFilterIndex, if_pos (by decide)]
  rfl

theorem asU32_of_lt {n : Nat} (h : n < 2 ^ 32) : asU32 n = n := Nat.mod_eq_of_lt h

/-- The number of a range that fits a 32-bit word is the index of its filter. -/
theorem getFilterIndex_of_lt {offset : Nat} (h : offset / 2048 < 2 ^ 32) :
    getFilterIndex offset filterBaseLog2 = .ok (offset / 2048) := by
  rw [getFilterIndex_eq, asU32_of_lt h]

/-- The filter of the keys of one range; without keys it is empty. -/
def filterOf (policy : FilterPolicy) (keys : List Bytes) : Exec Bytes :=
  if keys = [] then .ok [] else policy.createFilter keys.flatten (starts keys)

/-- Keys that can be told from no keys: not all of them are empty strings. -/
def Visible (keys : List Bytes) : Prop := keys.flatten = [] → keys = []

theorem visible_nil : Visible [] := fun _ => rfl

theorem Visible.append {keys keys' : List Bytes} (h : Visible keys) (h' : Visible keys') :
    Visible (keys ++ keys') := by
  intro hnil
  rw [List.flatten_append, List.append_eq_nil_iff] at hnil
  rw [h hnil.1, h' hnil.2, List.append_nil]

theorem visible_of_mem {keys : List Bytes} {k : Bytes} (hk : k ∈ keys) (hne : k ≠ []) :
    Visible keys := by
  intro hnil
  exact absurd (List.flatten_eq_nil_iff.mp hnil k hk) hne

theorem visible_of_forall_ne {keys : List Bytes} (hne : ∀ k ∈ keys, k ≠ []) : Visible keys := by
  cases keys with
  | nil => exact visible_nil
  | cons k keys => exact visible_of_mem List.mem_cons_self (hne k List.mem_cons_self)

/-- The keys of the blocks that begin in a range.  The first block begins at the given offset,
and every block is given with the offset of the block after it. -/
def rangeKeys (start : Nat) : List (List Bytes × Nat) → Nat → List Bytes
  | [], _ => []
  | (keys, next) :: rest, g => (if start / 2048 = g then keys else []) ++ rangeKeys next rest g

/-- The keys of every block with the offset that the block begins at. -/
def blockStarts (start : Nat) : List (List Bytes × Nat) → List (Nat × List Bytes)
  | [] => []
  | (keys, next) :: rest => (start, keys) :: blockStarts next rest

/-- The keys of a block are among the keys of the range that the block begins in. -/
theorem mem_rangeKeys_of_start {start off : Nat} {blocks : List (List Bytes × Nat)}
    {keys : List Bytes} (h : (off, keys) ∈ blockStarts start blocks) {k : Bytes} (hk : k ∈ keys) :
    k ∈ rangeKeys start blocks (off / 2048) := by
  induction blocks generalizing start with
  | nil => simp [blockStarts] at h
  | cons block rest ih =>
      obtain ⟨keys', next⟩ := block
      rw [blockStarts, List.mem_cons] at h
      rw [rangeKeys, List.mem_append]
      rcases h with heq | h
      · obtain ⟨rfl, rfl⟩ := Prod.mk.inj heq
        left
        rwa [if_pos rfl]
      · exact Or.inr (ih h)

/-- The keys of a range are keys of the blocks that begin in the range. -/
theorem exists_start_of_mem_rangeKeys {start g : Nat} {blocks : List (List Bytes × Nat)} {k : Bytes}
    (h : k ∈ rangeKeys start blocks g) :
    ∃ block ∈ blockStarts start blocks, block.1 / 2048 = g ∧ k ∈ block.2 := by
  induction blocks generalizing start with
  | nil => cases h
  | cons block rest ih =>
      obtain ⟨keys, next⟩ := block
      rw [rangeKeys, List.mem_append] at h
      rw [blockStarts]
      rcases h with hfirst | hrest
      · split at hfirst
        · rename_i hg
          exact ⟨_, List.mem_cons_self, hg, hfirst⟩
        · cases hfirst
      · obtain ⟨block, hmem, hblock⟩ := ih hrest
        exact ⟨block, List.mem_cons_of_mem _ hmem, hblock⟩

/-- The offsets of the blocks ascend, and their ranges are numbered by 32-bit words. -/
def Ascending (start : Nat) : List (List Bytes × Nat) → Prop
  | [] => True
  | (_, next) :: rest => start ≤ next ∧ next < 2 ^ 43 ∧ Ascending next rest

/-- No block begins in an earlier range than the first one. -/
theorem rangeKeys_below {start g : Nat} {blocks : List (List Bytes × Nat)}
    (hasc : Ascending start blocks) (hg : g < start / 2048) : rangeKeys start blocks g = [] := by
  induction blocks generalizing start with
  | nil => rfl
  | cons block rest ih =>
      obtain ⟨keys, next⟩ := block
      obtain ⟨hle, -, hrest⟩ := hasc
      have hnext : start / 2048 ≤ next / 2048 := Nat.div_le_div_right hle
      rw [rangeKeys, if_neg (by omega), List.nil_append]
      exact ih hrest (by omega)

/-- The bytes of a filter block: the filters, the offset of each and of their end, and the
binary logarithm of the size of a range. -/
def filterBlockBytes (fs : List Bytes) : Bytes :=
  fs.flatten ++ (words 4 (starts fs ++ [fs.flatten.length]) ++ [UInt8.ofNat filterBaseLog2])

namespace FilterBlockBuilder

/-- The builder that has generated some filters and remembers some keys. -/
def holding (policy : FilterPolicy) (fs pending : List Bytes) : FilterBlockBuilder where
  policy := policy
  filters := fs.flatten
  filterOffsets := starts fs
  keys := pending.flatten
  keyOffsets := starts pending

/-- The filters of consecutive ranges, from the first one on. -/
def Filters (policy : FilterPolicy) (K : Nat → List Bytes) (fs : List Bytes) : Prop :=
  ∀ g f, fs[g]? = some f → filterOf policy (K g) = .ok f

variable {policy : FilterPolicy} {K : Nat → List Bytes} {fs pending : List Bytes}

theorem addKeys_holding (keys : List Bytes) :
    (holding policy fs pending).addKeys keys = holding policy fs (pending ++ keys) := by
  induction keys generalizing pending with
  | nil => rw [List.append_nil]; rfl
  | cons key keys ih =>
      have hadd : (holding policy fs pending).addKey key = holding policy fs (pending ++ [key]) := by
        simp [holding, addKey, starts_concat]
      have hsplit : pending ++ key :: keys = (pending ++ [key]) ++ keys := by simp
      rw [hsplit, ← ih]
      exact congrArg (fun b => List.foldl addKey b keys) hadd

/-- Generating a filter consumes the remembered keys. -/
theorem generateFilter_holding {f : Bytes} (hvis : Visible pending)
    (hf : filterOf policy pending = .ok f) :
    (holding policy fs pending).generateFilter = .ok (holding policy (fs ++ [f]) []) := by
  unfold filterOf at hf
  by_cases hnil : pending = []
  · rw [if_pos hnil, Except.ok.injEq] at hf
    subst hnil hf
    simp [generateFilter, holding, starts_concat]
  · rw [if_neg hnil] at hf
    have hkeys : ¬ pending.flatten = [] := mt hvis hnil
    simp [generateFilter, holding, hkeys, hf, starts_concat]
    rfl

theorem Filters.concat (h : Filters policy K fs) {f : Bytes}
    (hf : filterOf policy (K fs.length) = .ok f) : Filters policy K (fs ++ [f]) := by
  intro g f' hg
  by_cases hlt : g < fs.length
  · rw [List.getElem?_append_left hlt] at hg
    exact h g f' hg
  · have hbound := (List.getElem?_eq_some_iff.mp hg).1
    rw [List.length_append, List.length_singleton] at hbound
    have heq : g = fs.length := by omega
    subst heq
    rw [List.getElem?_concat_length, Option.some.injEq] at hg
    rwa [← hg]

/-- Announcing a block generates the filters of the ranges before its own. -/
theorem startBlock_holding {offset : Nat} (hfs : Filters policy K fs)
    (hle : fs.length ≤ offset / 2048) (hlimit : offset < 2 ^ 43) (hvis : Visible pending)
    (hpending : fs.length < offset / 2048 → pending = K fs.length)
    (hskipped : ∀ g, fs.length < g → g < offset / 2048 → K g = [])
    (hok : ∀ g, ∃ f, filterOf policy (K g) = .ok f) :
    ∃ fs', (holding policy fs pending).startBlock offset =
        .ok (holding policy fs' (if fs.length < offset / 2048 then [] else pending)) ∧
      Filters policy K fs' ∧ fs'.length = offset / 2048 := by
  have hindex := getFilterIndex_of_lt (show offset / 2048 < 2 ^ 32 by omega)
  have hword : ∀ fs' : List Bytes, fs'.length ≤ offset / 2048 →
      asU32 (starts fs').length = fs'.length := by
    intro fs' hfs'
    rw [starts_length, asU32, Nat.mod_eq_of_lt (by omega)]
  -- The loop has generated some more filters; the keys went into the first of them.
  have hloop := @whileLoop_total _
    (fun b : FilterBlockBuilder => pure (decide (offset / 2048 > asU32 b.filterOffsets.length)))
    generateFilter
    (fun b => ∃ fs', b = holding policy fs' (if fs.length < fs'.length then [] else pending) ∧
      Filters policy K fs' ∧ fs.length ≤ fs'.length ∧ fs'.length ≤ offset / 2048)
    (fun b => ∃ fs', b = holding policy fs' (if fs.length < offset / 2048 then [] else pending) ∧
      Filters policy K fs' ∧ fs'.length = offset / 2048)
    (fun b => offset / 2048 - asU32 b.filterOffsets.length) ?_
    (offset / 2048 + 1) (holding policy fs pending) ?_ ?_
  · obtain ⟨b, hrun, fs', rfl, hfs', hlen'⟩ := hloop
    refine ⟨fs', ?_, hfs', hlen'⟩
    have hge : offset / 2048 ≥ asU32 (starts fs).length := by
      rw [hword fs hle]
      exact hle
    rw [startBlock, hindex, ok_bind]
    exact (congrArg (· >>= _) (ensure_of_true hge)).trans hrun
  · rintro b ⟨fs', rfl, hfs', hmin, hmax⟩
    have hlen := hword fs' hmax
    by_cases hdone : fs'.length = offset / 2048
    · refine Or.inl ⟨?_, fs', by rw [hdone], hfs', hdone⟩
      simp only [holding, pure_eq_ok, hlen, hdone, gt_iff_lt, lt_irrefl, decide_false]
    · refine Or.inr ⟨?_, ?_⟩
      · simp only [holding, pure_eq_ok, hlen, gt_iff_lt, Except.ok.injEq, decide_eq_true_eq]
        omega
      · obtain ⟨f, hf⟩ := hok fs'.length
        have hkeys : (if fs.length < fs'.length then [] else pending) = K fs'.length := by
          split
          · exact (hskipped _ ‹_› (by omega)).symm
          · have heq : fs'.length = fs.length := by omega
            rw [heq]
            exact hpending (by omega)
        have hvis' : Visible (if fs.length < fs'.length then [] else pending) := by
          split
          · exact visible_nil
          · exact hvis
        refine ⟨_, generateFilter_holding hvis' (hkeys ▸ hf), ⟨fs' ++ [f], ?_, hfs'.concat hf, ?_, ?_⟩, ?_⟩
        · rw [List.length_append, List.length_singleton, if_pos (by omega)]
        · rw [List.length_append]
          omega
        · rw [List.length_append, List.length_singleton]
          omega
        · have hlen' := hword (fs' ++ [f]) (by rw [List.length_append, List.length_singleton]; omega)
          simp only [holding, hlen, hlen', List.length_append, List.length_singleton]
          omega
  · exact ⟨fs, by rw [if_neg (lt_irrefl _)], hfs, le_rfl, hle⟩
  · simp only [holding]
    omega

/-- Feeding blocks generates the filters of the ranges before that of the offset reached, and
remembers the keys of that range. -/
theorem feed_holding (hok : ∀ g, ∃ f, filterOf policy (K g) = .ok f)
    {blocks : List (List Bytes × Nat)} (hblocks : ∀ block ∈ blocks, Visible block.1)
    {start : Nat} (hasc : Ascending start blocks) (hfs : Filters policy K fs)
    (hlen : fs.length = start / 2048) (hstart : start < 2 ^ 43) (hvis : Visible pending)
    (hK : ∀ g, fs.length ≤ g →
      K g = (if g = fs.length then pending else []) ++ rangeKeys start blocks g) :
    ∃ fs' pending', (holding policy fs pending).feed blocks = .ok (holding policy fs' pending') ∧
      Filters policy K fs' ∧ fs'.length < 2 ^ 32 ∧ Visible pending' ∧ K fs'.length = pending' ∧
      ∀ g, fs'.length < g → K g = [] := by
  induction blocks generalizing start fs pending with
  | nil =>
      refine ⟨fs, pending, rfl, hfs, by omega, hvis, ?_, ?_⟩
      · simpa [rangeKeys] using hK fs.length le_rfl
      · intro g hg
        have hneq : g ≠ fs.length := by omega
        simpa [rangeKeys, hneq] using hK g hg.le
  | cons block rest ih =>
      obtain ⟨keys, next⟩ := block
      obtain ⟨hle, hlimit, hrest⟩ := hasc
      have hdiv : start / 2048 ≤ next / 2048 := Nat.div_le_div_right hle
      have hvis' : Visible (pending ++ keys) :=
        hvis.append (hblocks (keys, next) List.mem_cons_self)
      have hrange : ∀ g, rangeKeys start ((keys, next) :: rest) g =
          (if g = fs.length then keys else []) ++ rangeKeys next rest g := by
        intro g
        simp only [rangeKeys, hlen, eq_comm]
      obtain ⟨fs₁, hrun, hfs₁, hlen₁⟩ := startBlock_holding hfs (by omega) hlimit hvis'
        (by
          intro hlt
          rw [hK fs.length le_rfl, if_pos rfl, hrange, if_pos rfl,
            rangeKeys_below hrest (by omega), List.append_nil])
        (by
          intro g hg hlt
          have hneq : g ≠ fs.length := by omega
          rw [hK g hg.le, if_neg hneq, hrange, if_neg hneq, rangeKeys_below hrest hlt]
          rfl)
        hok
      have hnext : Visible (if fs.length < next / 2048 then [] else pending ++ keys) := by
        split
        · exact visible_nil
        · exact hvis'
      obtain ⟨fs', pending', hfeed, hspec⟩ := ih
        (fun block hmem => hblocks block (List.mem_cons_of_mem _ hmem)) hrest hfs₁ hlen₁ hlimit hnext
        (by
          intro g hg
          rw [hK g (by omega), hrange]
          by_cases heq : g = fs.length
          · have hstay : ¬ fs.length < next / 2048 := by omega
            rw [if_pos heq, if_pos heq, if_pos (by omega), if_neg hstay, List.append_assoc]
          · rw [if_neg heq, if_neg heq, List.nil_append]
            split
            · rw [if_pos (by omega)]
            · rfl)
      refine ⟨fs', pending', ?_, hspec⟩
      rw [feed, addKeys_holding, hrun, ok_bind, hfeed]

/-- The bytes as they are written: every word of the offset array by itself. -/
theorem bytes_eq_filterBlockBytes (fs : List Bytes) :
    fs.flatten ++ ((starts fs).map encodeFixed32).flatten ++ encodeFixed32 fs.flatten.length ++
      [UInt8.ofNat filterBaseLog2] = filterBlockBytes fs := by
  simp only [filterBlockBytes, words, List.map_append, List.flatten_append, List.map_cons,
    List.map_nil, List.flatten_cons, List.flatten_nil, List.append_nil, List.append_assoc]
  rfl

/-- Finishing generates the filter of the remembered keys. -/
theorem finish_holding (hvis : Visible pending) (hfs : Filters policy K fs)
    (hK : K fs.length = pending) (hok : ∀ g, ∃ f, filterOf policy (K g) = .ok f)
    (hrest : ∀ g, fs.length < g → K g = []) :
    ∃ fs', (holding policy fs pending).finish = .ok (filterBlockBytes fs') ∧
      Filters policy K fs' ∧ fs'.length ≤ fs.length + 1 ∧
      (fs'.length = fs.length + 1 → K fs.length ≠ []) ∧ ∀ g, K g ≠ [] → g < fs'.length := by
  by_cases hnil : pending = []
  · refine ⟨fs, ?_, hfs, Nat.le_succ _, fun h => absurd h (Nat.ne_of_lt (Nat.lt_succ_self _)), ?_⟩
    · subst hnil
      rw [← bytes_eq_filterBlockBytes]
      rfl
    · intro g hg
      by_contra hle
      rcases Nat.lt_or_ge fs.length g with hlt | hge
      · exact hg (hrest g hlt)
      · have heq : g = fs.length := by omega
        exact hg (by rw [heq, hK, hnil])
  · obtain ⟨f, hf⟩ := hok fs.length
    refine ⟨fs ++ [f], ?_, hfs.concat hf, by rw [List.length_append, List.length_singleton],
      fun _ => hK ▸ hnil, ?_⟩
    · have hkeys : ¬ (holding policy fs pending).keys = [] := mt hvis hnil
      rw [hK] at hf
      rw [finish, if_neg hkeys, generateFilter_holding hvis hf, ok_bind,
        ← bytes_eq_filterBlockBytes]
      rfl
    · intro g hg
      rw [List.length_append, List.length_singleton]
      by_contra hle
      exact hg (hrest g (by omega))

/-- The builder writes one filter for every range that has keys, and each is the filter of
exactly the keys of its range.  Only keys in the last range give as many filters as there are
32-bit words. -/
theorem feed_finish_spec (policy : FilterPolicy) {blocks : List (List Bytes × Nat)}
    (hblocks : ∀ block ∈ blocks, Visible block.1) (hasc : Ascending 0 blocks)
    (hok : ∀ g, ∃ f, filterOf policy (rangeKeys 0 blocks g) = .ok f) :
    ∃ b fs, (new policy).feed blocks = .ok b ∧ b.finish = .ok (filterBlockBytes fs) ∧
      Filters policy (rangeKeys 0 blocks) fs ∧ fs.length ≤ 2 ^ 32 ∧
      (fs.length = 2 ^ 32 → rangeKeys 0 blocks (2 ^ 32 - 1) ≠ []) ∧
      ∀ g, rangeKeys 0 blocks g ≠ [] → g < fs.length := by
  have hnew : new policy = holding policy [] [] := rfl
  have hnone : Filters policy (rangeKeys 0 blocks) [] := by
    intro g f hg
    simp at hg
  obtain ⟨fs, pending, hfeed, hfs, hfew, hvis, hK, hrest⟩ :=
    feed_holding hok hblocks hasc hnone (by simp) (by decide) visible_nil (by simp)
  obtain ⟨fs', hfinish, hfs', hlen, hmore, hspec⟩ := finish_holding hvis hfs hK hok hrest
  refine ⟨_, fs', by rw [hnew, hfeed], hfinish, hfs', by omega, ?_, hspec⟩
  intro hfull
  have hlast : fs.length = 2 ^ 32 - 1 := by omega
  rw [← hlast]
  exact hmore (by omega)

/-! ### Offsets that are accepted -/

/-- Generating a filter adds its offset. -/
theorem generateFilter_offsets {b b' : FilterBlockBuilder} (h : b.generateFilter = .ok b') :
    b'.filterOffsets.length = b.filterOffsets.length + 1 := by
  unfold generateFilter at h
  dsimp only at h
  split at h
  · rw [pure_eq_ok, Except.ok.injEq] at h
    rw [← h, List.length_append, List.length_singleton]
  · simp only [bind_eq_ok_iff, pure_eq_ok, Except.ok.injEq] at h
    obtain ⟨f, -, rfl⟩ := h
    exact List.length_append

/-- An offset is accepted if its range, in 32 bits, is not one that has a filter; then all ranges
before it have one. -/
theorem startBlock_offsets {b b' : FilterBlockBuilder} {offset : Nat}
    (hlen : b.filterOffsets.length < 2 ^ 32) (h : b.startBlock offset = .ok b') :
    b.filterOffsets.length ≤ asU32 (offset / 2048) ∧
      b'.filterOffsets.length = asU32 (offset / 2048) := by
  have hindex := getFilterIndex_eq offset
  have hix : asU32 (offset / 2048) < 2 ^ 32 := Nat.mod_lt _ (by decide)
  have hword : ∀ n, n < 2 ^ 32 → asU32 n = n := fun n hn => Nat.mod_eq_of_lt hn
  simp only [startBlock, hindex, ok_bind, bind_eq_ok_iff, ensure_eq_ok_iff] at h
  obtain ⟨-, hge, hloop⟩ := h
  rw [hword _ hlen] at hge
  have hdone := whileLoop_invariant
    (fun s : FilterBlockBuilder => s.filterOffsets.length ≤ asU32 (offset / 2048))
    (by
      intro s s' hle hmore hgenerate
      rw [pure_eq_ok, Except.ok.injEq, decide_eq_true_eq, hword s.filterOffsets.length (by omega)] at hmore
      rw [generateFilter_offsets hgenerate]
      omega)
    hge hloop
  obtain ⟨hle, hdone⟩ := hdone
  rw [pure_eq_ok, Except.ok.injEq, decide_eq_false_iff_not, hword b'.filterOffsets.length (by omega)] at hdone
  omega

theorem addKeys_offsets (b : FilterBlockBuilder) (keys : List Bytes) :
    (b.addKeys keys).filterOffsets = b.filterOffsets := by
  induction keys generalizing b with
  | nil => rfl
  | cons key keys ih => exact ih (b.addKey key)

/-- Every block ends behind its begin, but less than 2^42 bytes behind it. -/
def Spaced (start : Nat) : List (List Bytes × Nat) → Prop
  | [] => True
  | (_, next) :: rest => start ≤ next ∧ next < start + 2 ^ 42 ∧ Spaced next rest

/-- The offsets that were accepted are below 2^43: the first one beyond has a range that, in 32
bits, already has a filter. -/
theorem feed_ascending {b b' : FilterBlockBuilder} {start : Nat}
    {blocks : List (List Bytes × Nat)} (hspaced : Spaced start blocks) (hstart : start < 2 ^ 43)
    (hlen : b.filterOffsets.length = start / 2048) (h : b.feed blocks = .ok b') :
    Ascending start blocks := by
  induction blocks generalizing b start with
  | nil => trivial
  | cons block rest ih =>
      obtain ⟨keys, next⟩ := block
      obtain ⟨hle, hnear, hrest⟩ := hspaced
      rw [feed, bind_eq_ok_iff] at h
      obtain ⟨b₁, hblock, h⟩ := h
      have hoffsets := addKeys_offsets b keys
      obtain ⟨hge, hlen₁⟩ := startBlock_offsets (by rw [hoffsets]; omega) hblock
      rw [hoffsets, hlen] at hge
      have hnext : next < 2 ^ 43 := by
        by_contra hover
        have hwrap : asU32 (next / 2048) = next / 2048 - 2 ^ 32 := by
          unfold asU32
          omega
        omega
      have hword : asU32 (next / 2048) = next / 2048 := Nat.mod_eq_of_lt (by omega)
      rw [hword] at hlen₁
      exact ⟨hle, hnext, ih hrest hnext hlen₁ h⟩

/-- A finished filter block has at least a word and a byte. -/
theorem finish_length {b : FilterBlockBuilder} {fb : Bytes} (h : b.finish = .ok fb) :
    5 ≤ fb.length := by
  have hword : ∀ n, (encodeFixed32 n).length = 4 := leBytes_length 4
  unfold finish at h
  split at h
  · simp only [pure_eq_ok, ok_bind, Except.ok.injEq] at h
    rw [← h]
    simp only [List.length_append, hword, List.length_singleton]
    omega
  · simp only [bind_eq_ok_iff, pure_eq_ok, Except.ok.injEq] at h
    obtain ⟨b', -, rfl⟩ := h
    simp only [List.length_append, hword, List.length_singleton]
    omega

end FilterBlockBuilder

/-! ## Reading -/

namespace FilterBlockReader

/-- Whatever a filter block contains, it is opened if it is long enough. -/
theorem new_total (policy : FilterPolicy) {data : Bytes} (h : 5 ≤ data.length) :
    ∃ r, new policy data = .ok r := by
  have hne : data ≠ [] := by
    rintro rfl
    simp at h
  have hlast := List.getLast?_eq_some_getLast hne
  have hslice := slice_of_le (show data.length - 5 ≤ data.length - 1 by omega) (Nat.sub_le _ 1)
  simp only [new, ensure_of_true h, ok_bind, hlast, unwrap_some, hslice, pure_eq_ok,
    Except.ok.injEq, exists_eq']

/-- The reader of a filter block that was written with the given filters. -/
def reading (policy : FilterPolicy) (fs : List Bytes) : FilterBlockReader where
  policy := policy
  block := filterBlockBytes fs
  offsetsOffset := fs.flatten.length
  filterBaseLg2 := filterBaseLog2

theorem filterBlockBytes_length (fs : List Bytes) :
    (filterBlockBytes fs).length = fs.flatten.length + 4 * fs.length + 5 := by
  simp [filterBlockBytes]
  omega

/-- A written filter block is opened, with any policy. -/
theorem new_filterBlockBytes (policy : FilterPolicy) {fs : List Bytes}
    (hsmall : fs.flatten.length < 2 ^ 32) : new policy (filterBlockBytes fs) = .ok (reading policy fs) := by
  have hlen := filterBlockBytes_length fs
  have hlong : (filterBlockBytes fs).length ≥ 5 := by omega
  have hlast : (filterBlockBytes fs).getLast? = some (UInt8.ofNat filterBaseLog2) := by
    rw [filterBlockBytes, ← List.append_assoc, List.getLast?_concat]
  have hget : (starts fs ++ [fs.flatten.length])[fs.length]? = some fs.flatten.length := by
    rw [← starts_length fs, List.getElem?_concat_length]
  have hword := slice_word (k := 4) hget [UInt8.ofNat filterBaseLog2]
  rw [← slice_append_right fs.flatten, ← filterBlockBytes] at hword
  have hlo : (filterBlockBytes fs).length - 5 = fs.flatten.length + 4 * fs.length := by omega
  have hhi : (filterBlockBytes fs).length - 1 = fs.flatten.length + (4 * fs.length + 4) := by omega
  have hvalue : decodeFixed32 (leBytes 4 fs.flatten.length) = fs.flatten.length :=
    leValue_leBytes_of_lt hsmall
  rw [new, ensure_of_true hlong, ok_bind, hlast, unwrap_some, ok_bind, hlo, hhi, hword, ok_bind,
    hvalue]
  rfl

/-- Every filter's offset is read back, and so is the end of the last one. -/
theorem offsetOf_reading (policy : FilterPolicy) {fs : List Bytes}
    (hsmall : fs.flatten.length < 2 ^ 32) {i : Nat} (hi : i ≤ fs.length) :
    (reading policy fs).offsetOf i = .ok (fs.take i).flatten.length := by
  have hlen := filterBlockBytes_length fs
  have hget : (starts fs ++ [fs.flatten.length])[i]? = some (fs.take i).flatten.length := by
    by_cases hlt : i < fs.length
    · rw [List.getElem?_append_left (by rwa [starts_length]), starts_getElem? hlt]
    · have heq : i = fs.length := by omega
      rw [heq, List.take_length, ← starts_length fs, List.getElem?_concat_length]
  have hword := slice_word (k := 4) hget [UInt8.ofNat filterBaseLog2]
  rw [← slice_append_right fs.flatten, ← filterBlockBytes] at hword
  have hvalue : decodeFixed32 (leBytes 4 (fs.take i).flatten.length) =
      (fs.take i).flatten.length := by
    have hle := flatten_take_le fs i
    exact leValue_leBytes_of_lt (by omega)
  simp only [offsetOf, reading, Nat.add_assoc, hword, ok_bind, hvalue, pure_eq_ok]

/-- The number of filters is kept in a 32-bit word. -/
theorem num_reading (policy : FilterPolicy) (fs : List Bytes) :
    (reading policy fs).num = .ok (asU32 fs.length) := by
  have hlen := filterBlockBytes_length fs
  have hquot : (filterBlockBytes fs).length - fs.flatten.length - 5 = 4 * fs.length := by omega
  simp only [num, reading]
  rw [wordSub_of_le (by omega), ok_bind, wordSub_of_le (by omega), ok_bind, hquot,
    Nat.mul_div_cancel_left _ (by omega), pure_eq_ok]

/-- A key is tested against the filter at the index of the block; an empty filter stops the
reader.  Only where there are as many filters as there are 32-bit words, the reader may believe
that there is none. -/
theorem keyMayMatch_reading_at (policy : FilterPolicy) {fs : List Bytes}
    (hsmall : fs.flatten.length < 2 ^ 32) (hfew : fs.length ≤ 2 ^ 32) {offset ix : Nat} {f : Bytes}
    (hindex : getFilterIndex offset filterBaseLog2 = .ok ix) (hf : fs[ix]? = some f) (key : Bytes) :
    (reading policy fs).keyMayMatch offset key =
      if fs.length = 2 ^ 32 ∧ 0 < ix then .ok true
      else if f = [] then .error .assertion
      else policy.keyMayMatch key f := by
  have hix := (List.getElem?_eq_some_iff.mp hf).1
  have hbase : (reading policy fs).filterBaseLg2 = filterBaseLog2 := rfl
  rw [keyMayMatch, hbase, hindex, ok_bind, num_reading, ok_bind]
  by_cases hfull : fs.length = 2 ^ 32 ∧ 0 < ix
  · have hzero : asU32 fs.length = 0 := by rw [hfull.1, asU32, Nat.mod_self]
    rw [if_pos hfull, hzero, if_pos hfull.2]
    rfl
  · rw [if_neg hfull]
    have hnum : ix ≤ asU32 fs.length ∧ ix + 1 < 2 ^ 32 := by
      rcases Nat.lt_or_eq_of_le hfew with hlt | heq
      · rw [asU32_of_lt hlt]
        omega
      · have hzero : ¬ 0 < ix := fun hpos => hfull ⟨heq, hpos⟩
        omega
    have hsucc := flatten_take_succ hf
    have hle := flatten_take_le fs (ix + 1)
    have hbegin := offsetOf_reading policy hsmall hix.le
    have hend := offsetOf_reading policy hsmall (Nat.succ_le_of_lt hix)
    rw [Nat.succ_eq_add_one, hsucc] at hend
    have hslice := slice_piece hf (words 4 (starts fs ++ [fs.flatten.length]) ++
      [UInt8.ofNat filterBaseLog2])
    rw [← filterBlockBytes] at hslice
    have hblock : (reading policy fs).block = filterBlockBytes fs := rfl
    have hoffsets : (reading policy fs).offsetsOffset = fs.flatten.length := rfl
    rw [if_neg (not_lt.mpr hnum.1), hbegin, ok_bind, addU32_of_lt hnum.2, ok_bind, hend, ok_bind]
    by_cases hnil : f = []
    · have hnone : ¬ (fs.take ix).flatten.length <
          (fs.take ix).flatten.length + f.length := by
        rw [hnil, List.length_nil, Nat.add_zero]
        exact lt_irrefl _
      rw [ensure_of_false hnone, error_bind, if_pos hnil]
    · have hpos : 0 < f.length := List.length_pos_iff.mpr hnil
      rw [ensure_of_true (by omega), ok_bind, ensure_of_true (by rw [hoffsets]; omega), ok_bind,
        hblock, hslice, ok_bind, if_neg hnil]
      rfl

/-- A key is tested against the filter of the range of the block. -/
theorem keyMayMatch_reading_eq (policy : FilterPolicy) {fs : List Bytes}
    (hsmall : fs.flatten.length < 2 ^ 32) (hfew : fs.length ≤ 2 ^ 32) {offset : Nat} {f : Bytes}
    (hf : fs[offset / 2048]? = some f) (key : Bytes) :
    (reading policy fs).keyMayMatch offset key =
      if fs.length = 2 ^ 32 ∧ 0 < offset / 2048 then .ok true
      else if f = [] then .error .assertion
      else policy.keyMayMatch key f := by
  have hix := (List.getElem?_eq_some_iff.mp hf).1
  exact keyMayMatch_reading_at policy hsmall hfew (getFilterIndex_of_lt (by omega)) hf key

/-- A key is tested against a filter that is not empty. -/
theorem keyMayMatch_reading (policy : FilterPolicy) {fs : List Bytes}
    (hsmall : fs.flatten.length < 2 ^ 32) (hfew : fs.length ≤ 2 ^ 32) {offset : Nat} {f : Bytes}
    (hf : fs[offset / 2048]? = some f) (hne : f ≠ []) (key : Bytes) :
    (reading policy fs).keyMayMatch offset key =
      if fs.length = 2 ^ 32 ∧ 0 < offset / 2048 then .ok true else policy.keyMayMatch key f := by
  rw [keyMayMatch_reading_eq policy hsmall hfew hf, if_neg hne]

end FilterBlockReader

end SSTable
