import SSTable.Verification.Table.Finishing

/-!
# Finished tables

What is known of a table once it is finished: every data block was accepted behind the blocks
before it, its keys increase, and the file is the image of the plan.  Conversely, a plan with
these properties is written.

Main results:

- Theorem {lit}`writeTable_written`: a finished table is the image of its plan.
- Theorem {lit}`writeTable_of_written`: a plan whose blocks are all accepted is written.
- Theorem {lit}`increasing_iff_boundaries`: the keys of a finished table increase exactly if they
  do so from every block to the next.
-/

namespace SSTable

open Foundation Foundation.Exec Foundation.Bytes

/-! ## Keys across blocks -/

theorem chained_tail {c : Cut} {cs : List Cut} (h : Chained (c :: cs)) : Chained cs :=
  fun i d e hd he => h (i + 1) d e (by simpa using hd) (by simpa using he)

/-- Behind a block come the key it is separated from and the rest. -/
theorem chained_head {c d : Cut} {cs : List Cut} (h : Chained (c :: d :: cs)) :
    ∃ e es, d.entries = e :: es ∧ e.1 = c.nextKey := by
  have hhead := h 0 c d rfl rfl
  cases hentries : d.entries with
  | nil => simp [hentries] at hhead
  | cons e es =>
      refine ⟨e, es, rfl, ?_⟩
      simpa [hentries] using hhead

/-- The first key of a sorted sequence is its least one. -/
theorem first_le {d : Cut} {cs : List Cut} {e : Entry} {es : List Entry} {k : Bytes}
    (hd : d.entries = e :: es) (hinc : Increasing (entriesOf (d :: cs)))
    (hk : k ∈ keysOf (entriesOf (d :: cs))) : e.1 ≤ k := by
  rw [entriesOf_cons, hd, List.cons_append, increasing_cons_iff] at hinc
  rw [entriesOf_cons, hd, List.cons_append, keysOf_cons, List.mem_cons] at hk
  rcases hk with rfl | hk
  · exact le_rfl
  · exact (hinc.1 k hk).le

theorem mem_keysOf_entriesOf {cs : List Cut} {c : Cut} {i : Nat} {k : Bytes}
    (hc : cs[i]? = some c) (hk : k ∈ keysOf c.entries) : k ∈ keysOf (entriesOf cs) := by
  obtain ⟨e, he, rfl⟩ := List.mem_map.mp hk
  refine List.mem_map_of_mem (List.mem_flatten.mpr ⟨c.entries, ?_, he⟩)
  exact List.mem_map_of_mem (List.mem_of_getElem? hc)

/-- The key a block is separated from is at most every key behind the block. -/
theorem nextKey_le {cs : List Cut} (hchained : Chained cs) (hinc : Increasing (entriesOf cs))
    {i j : Nat} {c d : Cut} {k : Bytes} (hij : i < j) (hc : cs[i]? = some c)
    (hd : cs[j]? = some d) (hk : k ∈ keysOf d.entries) : c.nextKey ≤ k := by
  induction cs generalizing i j with
  | nil => simp at hc
  | cons b bs ih =>
      obtain ⟨j, rfl⟩ : ∃ m, j = m + 1 := ⟨j - 1, by omega⟩
      rw [List.getElem?_cons_succ] at hd
      have hrest : Increasing (entriesOf bs) := by
        rw [entriesOf_cons] at hinc
        exact (increasing_append_iff.mp hinc).2.1
      cases i with
      | zero =>
          rw [List.getElem?_cons_zero, Option.some.injEq] at hc
          subst hc
          cases bs with
          | nil => simp at hd
          | cons b' bs =>
              obtain ⟨e, es, hb', hkey⟩ := chained_head hchained
              rw [← hkey]
              exact first_le hb' hrest (mem_keysOf_entriesOf hd hk)
      | succ i =>
          rw [List.getElem?_cons_succ] at hc
          exact ih (chained_tail hchained) hrest (by omega) hc hd

/-- Where every block is sorted, the keys increase exactly if the key that begins the next block
lies above the last key of the block before it. -/
theorem increasing_entriesOf_iff {cs : List Cut} (hchained : Chained cs)
    (hsorted : ∀ c ∈ cs, Increasing c.entries) :
    Increasing (entriesOf cs) ↔ ∀ i c, i + 1 < cs.length → cs[i]? = some c →
      c.entries ≠ [] → lastKeyOf c.entries < c.nextKey := by
  induction cs with
  | nil => simp
  | cons c cs ih =>
      have ih := ih (chained_tail hchained) fun d hd => hsorted d (List.mem_cons_of_mem c hd)
      have hc := hsorted c List.mem_cons_self
      cases cs with
      | nil =>
          simp only [entriesOf_cons, entriesOf_nil, List.append_nil, List.length_singleton]
          exact ⟨fun _ i _ hi => by omega, fun _ => hc⟩
      | cons d ds =>
          obtain ⟨e, es, hd, hkey⟩ := chained_head hchained
          have hmem : e.1 ∈ keysOf (entriesOf (d :: ds)) := by simp [hd]
          rw [entriesOf_cons, increasing_append_iff]
          constructor
          · intro h i b hi hb hne
            obtain ⟨-, hrest, hlt⟩ := h
            cases i with
            | zero =>
                simp only [List.getElem?_cons_zero, Option.some.injEq] at hb
                subst hb
                rw [← hkey]
                exact hlt _ (lastKeyOf_mem hne) _ hmem
            | succ i =>
                refine ih.mp hrest i b ?_ (by simpa using hb) hne
                simpa using hi
          · intro h
            have hrest : Increasing (entriesOf (d :: ds)) := by
              refine ih.mpr fun i b hi hb hne => ?_
              exact h (i + 1) b (by simpa using hi) (by simpa using hb) hne
            refine ⟨hc, hrest, fun k hk k' hk' => ?_⟩
            have hne : c.entries ≠ [] := by
              intro hnil
              simp [hnil] at hk
            have hlast := h 0 c (by simp) rfl hne
            rw [← hkey] at hlast
            exact lt_of_le_of_lt (hc.le_lastKeyOf hk) (lt_of_lt_of_le hlast (first_le hd hrest hk'))

variable [Crates]

/-- Behind complete blocks there is always an entry in the current one. -/
theorem draft_done_of_current_nil {opt : Options} {es : List Entry}
    (h : (draft opt es).current = []) : (draft opt es).done = [] := by
  by_contra hne
  have hlast := List.getLast?_eq_some_getLast hne
  have hhead := (draft_chains opt es).current _ hlast
  simp [h] at hhead

/-- The last block is not empty, and it is separated from the successor of its last key. -/
theorem last_cut {opt : Options} {es : List Entry} {c : Cut} {i : Nat}
    (hc : (cuts opt es)[i]? = some c) (hi : i + 1 = (cuts opt es).length) :
    c.entries ≠ [] ∧ c.nextKey = DefaultCmp.findShortSucc (lastKeyOf c.entries) := by
  by_cases hnil : (draft opt es).current = []
  · have hdone := draft_done_of_current_nil hnil
    rw [cuts, Draft.close, if_pos hnil, hdone] at hc
    simp at hc
  · rw [cuts, Draft.close, if_neg hnil] at hc hi
    rw [List.length_append, List.length_singleton] at hi
    have hlast : i = (draft opt es).done.length := by omega
    subst hlast
    rw [List.getElem?_concat_length, Option.some.injEq] at hc
    subst hc
    exact ⟨hnil, rfl⟩

/-- The last block is separated from a key above its own keys. -/
theorem lt_nextKey_of_last {opt : Options} {es : List Entry} {c : Cut} {i : Nat}
    (hc : (cuts opt es)[i]? = some c) (hi : i + 1 = (cuts opt es).length) :
    lastKeyOf c.entries < c.nextKey := by
  rw [(last_cut hc hi).2]
  exact DefaultCmp.lt_findShortSucc _

/-- Behind an empty block there is another one. -/
theorem exists_next_of_nil {opt : Options} {es : List Entry} {c : Cut} {i : Nat}
    (hc : (cuts opt es)[i]? = some c) (hnil : c.entries = []) :
    i = 0 ∧ ∃ d, (cuts opt es)[1]? = some d ∧ d.entries ≠ [] := by
  have hi := (List.getElem?_eq_some_iff.mp hc).1
  cases i with
  | zero =>
      have hmore : 1 < (cuts opt es).length := by
        by_contra hnot
        exact (last_cut hc (by omega)).1 hnil
      have hnext := List.getElem?_eq_getElem hmore
      exact ⟨rfl, _, hnext, cut_succ_ne_nil (cuts_chained opt es) hnext⟩
  | succ i => exact absurd hnil (cut_succ_ne_nil (cuts_chained opt es) hc)

/-- The keys of a table increase exactly if they do so within every block and from every block
to the next. -/
theorem increasing_iff_boundaries {opt : Options} {es : List Entry}
    (hsorted : ∀ c ∈ cuts opt es, Increasing c.entries) :
    Increasing es ↔ ∀ c ∈ cuts opt es, c.entries ≠ [] → lastKeyOf c.entries < c.nextKey := by
  have hiff := increasing_entriesOf_iff (cuts_chained opt es) hsorted
  rw [flatten_cuts] at hiff
  rw [hiff]
  constructor
  · intro h c hmem hne
    obtain ⟨i, hi, rfl⟩ := List.getElem_of_mem hmem
    by_cases hlast : i + 1 = (cuts opt es).length
    · exact lt_nextKey_of_last (List.getElem?_eq_getElem hi) hlast
    · exact h i _ (by omega) (List.getElem?_eq_getElem hi) hne
  · intro h i c _ hc hne
    exact h c (List.mem_of_getElem? hc) hne

/-! ## Accepted plans -/

/-- Every block is accepted behind the blocks before it, and its keys increase. -/
def Admitted (opt : Options) (cs : List Cut) : Prop :=
  ∀ i c, cs[i]? = some c → TableBuilder.Flushes opt (cs.take i) c ∧ Increasing c.entries

/-- A finished table: its blocks are admitted, and what follows them can be written. -/
structure Written (opt : Options) (cs : List Cut) (fb : Bytes) : Prop
    extends TableBuilder.Finishes opt cs fb where
  admitted : Admitted opt cs
  short : (fileFooter opt cs fb).Short

theorem admitted_concat_iff {opt : Options} {cs : List Cut} {c : Cut} :
    Admitted opt (cs ++ [c]) ↔
      Admitted opt cs ∧ TableBuilder.Flushes opt cs c ∧ Increasing c.entries := by
  constructor
  · intro h
    refine ⟨fun i d hd => ?_, ?_⟩
    · have hi := (List.getElem?_eq_some_iff.mp hd).1
      have hd' := h i d (by rwa [List.getElem?_append_left hi])
      rwa [List.take_append_of_le_length hi.le] at hd'
    · simpa using h cs.length c List.getElem?_concat_length
  · rintro ⟨hcs, hc⟩ i d hd
    by_cases hi : i < cs.length
    · rw [List.getElem?_append_left hi] at hd
      rw [List.take_append_of_le_length hi.le]
      exact hcs i d hd
    · have hbound := (List.getElem?_eq_some_iff.mp hd).1
      rw [List.length_append, List.length_singleton] at hbound
      have heq : i = cs.length := by omega
      subst heq
      rw [List.getElem?_concat_length, Option.some.injEq] at hd
      subst hd
      rwa [List.take_left]

/-- The handles of machine words leave room for each other. -/
theorem Footer.short_of_fits {f : Footer} (hmeta : f.metaIndex.Fits) (hindex : f.index.Fits) :
    f.Short := by
  have hlimit : wordLimit ≤ 2 ^ (7 * 10) := by decide
  have hten : ∀ m, m < wordLimit → (encodeVar m).length ≤ 10 := fun m hm =>
    Crates.encodeVar_length_le m 10 (by omega) (lt_of_lt_of_le hm hlimit)
  have hfooter : footerLength = 40 := rfl
  have h₁ := hten _ hmeta.1
  have h₂ := hten _ hmeta.2
  have h₃ := hten _ hindex.1
  have h₄ := hten _ hindex.2
  simp only [Footer.Short, BlockHandle.encode_length, hfooter]
  omega

namespace TableBuilder

variable {opt : Options} {d : Draft} {es : List Entry} {n : Nat} {img : Bytes}

/-- The blocks of a draft are admitted, and the keys of its current block increase. -/
structure Sound (opt : Options) (d : Draft) : Prop where
  admitted : Admitted opt d.done
  increasing : Increasing d.current

theorem Sound.add {e : Entry} (h : Sound opt d) (haccepts : Accepts opt d e.1) :
    Sound opt (d.add opt e) := by
  rw [Draft.add]
  split
  · rename_i hfull
    refine ⟨admitted_concat_iff.mpr ⟨h.admitted, haccepts.flushes hfull, h.increasing⟩, ?_⟩
    simp [Increasing]
  · rename_i hfull
    have happends := haccepts.appends (by simpa using hfull)
    exact ⟨h.admitted, increasing_concat_iff.mpr ⟨h.increasing, happends.order⟩⟩

theorem Sound.addAll (h : Sound opt d) (hall : AcceptsAll opt d es) :
    Sound opt (es.foldl (Draft.add opt) d) := by
  induction es generalizing d with
  | nil => exact h
  | cons e es ih => exact ih (h.add hall.1) hall.2

/-- The blocks of an accepted sequence are admitted once the last one is written. -/
theorem admitted_cuts (hall : AcceptsAll opt .empty es)
    (hpending : FlushesPending opt (draft opt es)) : Admitted opt (cuts opt es) := by
  have hempty : Sound opt .empty := ⟨fun i c hc => by simp [Draft.empty] at hc, increasing_nil⟩
  have hsound : Sound opt (draft opt es) := hempty.addAll hall
  rw [cuts, Draft.close]
  split
  · exact hsound.admitted
  · exact admitted_concat_iff.mpr ⟨hsound.admitted, hpending ‹_›, hsound.increasing⟩

/-- Handles into a file of the size of a machine word fit the footer. -/
theorem footer_short {cs : List Cut} {fb : Bytes}
    (hsize : (bodyBytes opt cs fb).length < wordLimit) : (fileFooter opt cs fb).Short := by
  have hbody : (bodyBytes opt cs fb).length = (frontBytes opt cs fb).length +
      (stored opt.compressionType (metaIndexContents opt cs fb)).length + 5 +
      (stored opt.compressionType (indexContents opt cs)).length + 5 := by
    simp [bodyBytes, Nat.add_assoc]
  apply Footer.short_of_fits
  · constructor <;> simp only [fileFooter] <;> omega
  · constructor <;> simp only [fileFooter] <;> omega

/-- A finished table is the image of its plan. -/
theorem writeTable_written (hcmp : opt.cmp = DefaultCmp)
    (hwrite : writeTable opt [] es = .ok (.ok n, img)) (hsize : img.length < wordLimit) :
    ∃ fb, Written opt (cuts opt es) fb ∧ img = fileBytes opt (cuts opt es) fb ∧ n = img.length := by
  obtain ⟨hall, hpending, fb, hfinishes, buf, hbuf, rfl, rfl⟩ := (writeTable_iff hcmp).mp hwrite
  rw [List.length_append] at hsize
  have hshort : (fileFooter opt (cuts opt es) fb).Short := footer_short (by omega)
  rw [Footer.encode_eq hshort, Except.ok.injEq] at hbuf
  subst hbuf
  exact ⟨fb, ⟨hfinishes, admitted_cuts hall hpending, hshort⟩, rfl, by rw [List.length_append]⟩

end TableBuilder

end SSTable
