import SSTable.Verification.Block.Construction
import SSTable.Model.TableBuilder

/-!
# The plan of a table

What a table builder writes is determined by its options and the entries: where the data
blocks end, which separators the index holds, and at which offset every block is stored.
This module says so without the builder's state.  The bytes of the filter block are a
parameter of the plan.

Main results:

- Theorem {lit}`flatten_cuts`: the data blocks cover the entries in order.
- Theorem {lit}`cuts_chained`: every block but the last is separated from the first key of the
  next one.
- Theorem {lit}`cut_ne_nil`: with a block size of at least eight, no data block is empty.
-/

namespace SSTable

open Foundation Foundation.Exec Foundation.Bytes

/-- A data block: its entries, and the key it is separated from. -/
structure Cut where
  entries : List Entry
  nextKey : Bytes
deriving DecidableEq

namespace Cut

/-- The key of the block's index entry. -/
def sep (c : Cut) : Bytes :=
  (DefaultCmp.findShortestSep (lastKeyOf c.entries) c.nextKey).toOption.getD []

theorem sep_of_ok {c : Cut} {s : Bytes}
    (h : DefaultCmp.findShortestSep (lastKeyOf c.entries) c.nextKey = .ok s) : c.sep = s := by
  simp [sep, h, Except.toOption]

end Cut

/-- The data blocks that are complete, and the entries of the one that is not. -/
structure Draft where
  done : List Cut
  current : List Entry

/-! ## Sequences of blocks -/

/-- The entries of a sequence of blocks. -/
def entriesOf (cs : List Cut) : List Entry := (cs.map Cut.entries).flatten

@[simp] theorem entriesOf_nil : entriesOf [] = [] := rfl

@[simp] theorem entriesOf_append (xs ys : List Cut) :
    entriesOf (xs ++ ys) = entriesOf xs ++ entriesOf ys := by
  simp [entriesOf]

@[simp] theorem entriesOf_cons (c : Cut) (cs : List Cut) :
    entriesOf (c :: cs) = c.entries ++ entriesOf cs := by
  simp [entriesOf]

/-- Every block is separated from the first key of the next one. -/
def Chained (cs : List Cut) : Prop :=
  ∀ i c d, cs[i]? = some c → cs[i + 1]? = some d → d.entries.head?.map Prod.fst = some c.nextKey

theorem chained_concat {cs : List Cut} {d : Cut} (h : Chained cs)
    (hlast : ∀ c, cs.getLast? = some c → d.entries.head?.map Prod.fst = some c.nextKey) :
    Chained (cs ++ [d]) := by
  intro i c d' hc hd'
  have hi := (List.getElem?_eq_some_iff.mp hd').1
  simp only [List.length_append, List.length_singleton] at hi
  rw [List.getElem?_append_left (by omega)] at hc
  rcases Nat.lt_or_ge (i + 1) cs.length with hlt | hge
  · rw [List.getElem?_append_left hlt] at hd'
    exact h i c d' hc hd'
  · have heq : i + 1 = cs.length := by omega
    rw [heq, List.getElem?_concat_length, Option.some.injEq] at hd'
    subst hd'
    refine hlast c ?_
    rw [List.getLast?_eq_getElem?, ← hc]
    congr 1
    omega

/-- Only the first data block can be empty. -/
theorem cut_succ_ne_nil {cs : List Cut} (h : Chained cs) {i : Nat} {c : Cut}
    (hc : cs[i + 1]? = some c) : c.entries ≠ [] := by
  have hi := (List.getElem?_eq_some_iff.mp hc).1
  have hhead := h i _ c (List.getElem?_eq_getElem (Nat.lt_of_succ_lt hi)) hc
  rintro hnil
  simp [hnil] at hhead

variable [Crates]

/-! ## Cutting the entries into blocks -/

namespace Draft

def empty : Draft where
  done := []
  current := []

/-- Whether the current block has grown beyond the block size. -/
def full (opt : Options) (es : List Entry) : Bool :=
  decide ((BlockBuilder.pushAll opt es).sizeEstimate > opt.blockSize)

/-- Add an entry to the current block, or begin a new block with it. -/
def add (opt : Options) (d : Draft) (e : Entry) : Draft :=
  if full opt d.current then
    { done := d.done ++ [{ entries := d.current, nextKey := e.1 }], current := [e] }
  else
    { d with current := d.current ++ [e] }

/-- The blocks of a finished table. -/
def close (d : Draft) : List Cut :=
  if d.current = [] then
    d.done
  else
    d.done ++ [{ entries := d.current
                 nextKey := DefaultCmp.findShortSucc (lastKeyOf d.current) }]

end Draft

/-- The blocks the entries are cut into. -/
def draft (opt : Options) (es : List Entry) : Draft := es.foldl (Draft.add opt) .empty

/-- The data blocks of a table. -/
def cuts (opt : Options) (es : List Entry) : List Cut := (draft opt es).close

@[simp] theorem draft_nil (opt : Options) : draft opt [] = .empty := rfl

@[simp] theorem draft_concat (opt : Options) (es : List Entry) (e : Entry) :
    draft opt (es ++ [e]) = (draft opt es).add opt e := by
  simp [draft]

theorem flatten_draft (opt : Options) (es : List Entry) :
    entriesOf (draft opt es).done ++ (draft opt es).current = es := by
  induction es using List.reverseRecOn with
  | nil => rfl
  | append_singleton es e ih =>
      rw [draft_concat, Draft.add]
      split
      · simp [ih]
      · simp [← List.append_assoc, ih]

/-- The data blocks cover the entries in order. -/
theorem flatten_cuts (opt : Options) (es : List Entry) : entriesOf (cuts opt es) = es := by
  have hdraft := flatten_draft opt es
  rw [cuts, Draft.close]
  split
  · rename_i hnil
    simpa [hnil] using hdraft
  · simpa using hdraft

/-- The current block begins with the key the last complete block is separated from. -/
structure Draft.Chains (d : Draft) : Prop where
  chained : Chained d.done
  current : ∀ c, d.done.getLast? = some c → d.current.head?.map Prod.fst = some c.nextKey

theorem draft_chains (opt : Options) (es : List Entry) : (draft opt es).Chains := by
  induction es using List.reverseRecOn with
  | nil => exact ⟨by simp [Chained, Draft.empty], by simp [Draft.empty]⟩
  | append_singleton es e ih =>
      rw [draft_concat, Draft.add]
      split
      · exact ⟨chained_concat ih.chained ih.current, by simp⟩
      · refine ⟨ih.chained, fun c hc => ?_⟩
        have hhead := ih.current c hc
        cases hcurrent : (draft opt es).current with
        | nil => simp [hcurrent] at hhead
        | cons f fs => simpa [hcurrent] using hhead

/-- Every block but the last is separated from the first key of the next one. -/
theorem cuts_chained (opt : Options) (es : List Entry) : Chained (cuts opt es) := by
  have hchains := draft_chains opt es
  rw [cuts, Draft.close]
  split
  · exact hchains.chained
  · exact chained_concat hchains.chained hchains.current

theorem not_full_nil {opt : Options} (hsize : 8 ≤ opt.blockSize) : Draft.full opt [] = false := by
  have hempty : (BlockBuilder.new opt).sizeEstimate = 8 := rfl
  rw [Draft.full, BlockBuilder.pushAll_nil, hempty, decide_eq_false_iff_not]
  omega

theorem draft_done_ne_nil {opt : Options} (hsize : 8 ≤ opt.blockSize) (es : List Entry) :
    ∀ c ∈ (draft opt es).done, c.entries ≠ [] := by
  induction es using List.reverseRecOn with
  | nil => simp [Draft.empty]
  | append_singleton es e ih =>
      rw [draft_concat, Draft.add]
      split
      · rename_i hfull
        intro c hc
        rcases List.mem_append.mp hc with hc | hc
        · exact ih c hc
        · rw [List.mem_singleton] at hc
          subst hc
          intro hnil
          simp only at hnil
          rw [hnil, not_full_nil hsize] at hfull
          cases hfull
      · exact ih

/-- With a block size of at least eight, no data block is empty. -/
theorem cut_ne_nil {opt : Options} (hsize : 8 ≤ opt.blockSize) {es : List Entry} {c : Cut}
    (hc : c ∈ cuts opt es) : c.entries ≠ [] := by
  have hdone := draft_done_ne_nil hsize es
  rw [cuts, Draft.close] at hc
  split at hc
  · exact hdone c hc
  · rename_i hne
    rcases List.mem_append.mp hc with hc | hc
    · exact hdone c hc
    · rw [List.mem_singleton] at hc
      exact hc ▸ hne

end SSTable
