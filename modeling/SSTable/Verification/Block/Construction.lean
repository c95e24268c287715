import Mathlib.Data.List.Induction
import SSTable.Verification.Block.Layout
import SSTable.Verification.Entries

/-!
# Building a block keeps a layout

Every state of a block builder is the encoding of a layout with the entries added so far.
This holds for entries in any order and for every restart interval; the order matters only
for the assertions that let an entry in.

Main results:

- Theorem {lit}`add_pushAll_iff`: an entry is accepted exactly when the restart counter and the
  order allow it, and then the builder is that of the longer sequence.
- Theorem {lit}`exists_layout`: the bytes of a finished block are those of a layout with the
  added entries.
-/

namespace SSTable

open Foundation Foundation.Exec Foundation.Bytes

namespace BlockLayout

/-- The layout of a block without entries. -/
def empty : BlockLayout where
  slots := []
  restartIx := [0]
  shared_le := by simp
  shared_eq := by simp
  shared_first := by simp
  restart_first := rfl
  restart_lt := Or.inr rfl
  restart_shared := by simp

/-- What a slot must share to be appended to a list of slots. -/
structure Fitting (slots : List Slot) (s : Slot) : Prop where
  le_length : s.shared ≤ s.key.length
  eq_last : ∀ t, slots.getLast? = some t → t.key.take s.shared = s.key.take s.shared
  of_nil : slots = [] → s.shared = 0

theorem Fitting.of_zero (slots : List Slot) {s : Slot} (h : s.shared = 0) : Fitting slots s where
  le_length := by omega
  eq_last t _ := by simp [h]
  of_nil _ := h

/-- Append a slot, as a restart or not. -/
def snoc (L : BlockLayout) (s : Slot) (restart : Bool) (hfit : Fitting L.slots s)
    (hrestart : restart = true → s.shared = 0) : BlockLayout where
  slots := L.slots ++ [s]
  restartIx := if restart then L.restartIx ++ [L.slots.length] else L.restartIx
  shared_le t ht := by
    rcases List.mem_append.mp ht with ht | ht
    · exact L.shared_le t ht
    · simp only [List.mem_singleton] at ht
      exact ht ▸ hfit.le_length
  shared_eq {i t u} ht hu := by
    rcases Nat.lt_trichotomy (i + 1) L.slots.length with hlt | heq | hgt
    · rw [List.getElem?_append_left (by omega)] at ht hu
      exact L.shared_eq ht hu
    · rw [List.getElem?_append_left (by omega)] at ht
      rw [heq, List.getElem?_concat_length, Option.some.injEq] at hu
      subst hu
      refine hfit.eq_last t ?_
      rw [List.getLast?_eq_getElem?, ← ht]
      congr 1
      omega
    · have := (List.getElem?_eq_some_iff.mp hu).1
      simp only [List.length_append, List.length_singleton] at this
      omega
  shared_first {t} ht := by
    rcases eq_or_ne L.slots [] with hnil | hne
    · simp only [hnil, List.nil_append, List.getElem?_cons_zero, Option.some.injEq] at ht
      exact ht ▸ hfit.of_nil hnil
    · rw [List.getElem?_append_left (List.length_pos_of_ne_nil hne)] at ht
      exact L.shared_first ht
  restart_first := by
    have hpos := L.restartIx_length_pos
    split
    · rw [List.getElem?_append_left hpos, L.restart_first]
    · exact L.restart_first
  restart_lt := by
    have hold : ∀ r ∈ L.restartIx, r < L.slots.length + 1 := by
      intro r hr
      rcases L.restart_lt with hlt | hzero
      · have := hlt r hr
        omega
      · rw [hzero, List.mem_singleton] at hr
        omega
    left
    intro r hr
    rw [List.length_append, List.length_singleton]
    split at hr
    · rcases List.mem_append.mp hr with hr | hr
      · exact hold r hr
      · simp only [List.mem_singleton] at hr
        omega
    · exact hold r hr
  restart_shared r hr {t} ht := by
    have hbound := (List.getElem?_eq_some_iff.mp ht).1
    rw [List.length_append, List.length_singleton] at hbound
    rcases Nat.lt_or_eq_of_le (Nat.le_of_lt_succ hbound) with hlt | rfl
    · rw [List.getElem?_append_left hlt] at ht
      refine L.restart_shared r ?_ ht
      split at hr
      · rcases List.mem_append.mp hr with hr | hr
        · exact hr
        · simp only [List.mem_singleton] at hr
          omega
      · exact hr
    · rw [List.getElem?_concat_length, Option.some.injEq] at ht
      subst ht
      split at hr
      · exact hrestart ‹_›
      -- An index without a slot was a restart already: the block had no slots.
      · rcases L.restart_lt with hlt | hzero
        · exact absurd (hlt _ hr) (lt_irrefl _)
        · rw [hzero, List.mem_singleton, List.length_eq_zero_iff] at hr
          exact hfit.of_nil hr

theorem restartIx_le (L : BlockLayout) {r : Nat} (hr : r ∈ L.restartIx) : r ≤ L.slots.length := by
  rcases L.restart_lt with hlt | hzero
  · exact (hlt r hr).le
  · rw [hzero, List.mem_singleton] at hr
    omega

end BlockLayout

variable [Crates]

namespace BlockLayout

section

variable (L : BlockLayout) (s : Slot) (restart : Bool) (hfit : Fitting L.slots s)
  (hrestart : restart = true → s.shared = 0)

@[simp] theorem snoc_body : (L.snoc s restart hfit hrestart).body = L.body ++ s.encode := by
  simp [body, snoc]

/-- Appending a slot moves no earlier one. -/
theorem snoc_offsetOf {r : Nat} (hr : r ≤ L.slots.length) :
    (L.snoc s restart hfit hrestart).offsetOf r = L.offsetOf r := by
  simp only [offsetOf, snoc]
  rw [List.take_append_of_le_length hr]

end

end BlockLayout

namespace BlockBuilder

/-- The builder is the encoding of a layout. -/
structure Encodes (L : BlockLayout) (b : BlockBuilder) : Prop where
  buffer_eq : b.buffer = L.body
  restarts_eq : b.restarts = L.restartIx.map fun r => asU32 (L.offsetOf r)
  lastKey_eq : ∀ s, L.slots.getLast? = some s → s.key = b.lastKey
  lastKey_of_nil : L.slots = [] → b.lastKey = []

theorem encodes_new (opt : Options) : Encodes .empty (new opt) where
  buffer_eq := rfl
  restarts_eq := by simp [new, BlockLayout.empty, BlockLayout.offsetOf, asU32]
  lastKey_eq := by simp [BlockLayout.empty]
  lastKey_of_nil _ := rfl

theorem Encodes.snoc {L : BlockLayout} {b b' : BlockBuilder} (h : Encodes L b) {s : Slot}
    {restart : Bool} (hfit : BlockLayout.Fitting L.slots s)
    (hrestart : restart = true → s.shared = 0) (hbuffer : b'.buffer = b.buffer ++ s.encode)
    (hrestarts : b'.restarts =
      if restart then b.restarts ++ [asU32 b.buffer.length] else b.restarts)
    (hlast : b'.lastKey = s.key) : Encodes (L.snoc s restart hfit hrestart) b' where
  buffer_eq := by rw [BlockLayout.snoc_body, hbuffer, h.buffer_eq]
  restarts_eq := by
    have hold : (L.restartIx.map fun r => asU32 ((L.snoc s restart hfit hrestart).offsetOf r)) =
        b.restarts := by
      rw [h.restarts_eq]
      refine List.map_congr_left fun r hr => ?_
      rw [L.snoc_offsetOf s restart hfit hrestart (L.restartIx_le hr)]
    rw [hrestarts]
    cases restart with
    | false => exact hold.symm
    | true =>
        have hnew := L.snoc_offsetOf s true hfit hrestart le_rfl
        rw [L.offsetOf_of_length_le le_rfl] at hnew
        simp only [if_true, BlockLayout.snoc, List.map_append, List.map_cons, List.map_nil]
        simp only [BlockLayout.snoc, if_true] at hold hnew
        rw [hold, hnew, h.buffer_eq]
  lastKey_eq t ht := by
    simp only [BlockLayout.snoc, List.getLast?_concat, Option.some.injEq] at ht
    rw [← ht, hlast]
  lastKey_of_nil hnil := by simp [BlockLayout.snoc] at hnil

/-- An appended key becomes the last one. -/
@[simp] theorem push_lastKey (b : BlockBuilder) (key val : Bytes) :
    (b.push key val).lastKey = key := by
  simp only [push]
  split
  · have hle := commonPrefixLength_le_left b.lastKey key
    rw [resize_of_le _ hle, take_commonPrefixLength, List.take_append_drop]
  · simp [resize]

/-- The slot in which the next entry is stored. -/
def nextSlot (b : BlockBuilder) (key val : Bytes) : Slot where
  shared :=
    if b.restartCounter < b.opt.blockRestartInterval then commonPrefixLength b.lastKey key else 0
  key := key
  val := val

/-- Appending an entry appends a slot, which becomes a restart at the end of an interval. -/
theorem Encodes.push {L : BlockLayout} {b : BlockBuilder} (h : Encodes L b) (key val : Bytes) :
    ∃ L', Encodes L' (b.push key val) ∧ L'.slots = L.slots ++ [b.nextSlot key val] ∧
      L'.restartIx = if b.restartCounter < b.opt.blockRestartInterval then L.restartIx
        else L.restartIx ++ [L.slots.length] := by
  have hlast := push_lastKey b key val
  by_cases hin : b.restartCounter < b.opt.blockRestartInterval
  · have hslot : b.nextSlot key val = ⟨commonPrefixLength b.lastKey key, key, val⟩ := by
      rw [nextSlot, if_pos hin]
    have hfit : BlockLayout.Fitting L.slots ⟨commonPrefixLength b.lastKey key, key, val⟩ :=
      { le_length := commonPrefixLength_le_right _ _
        eq_last := fun t ht => by
          rw [h.lastKey_eq t ht, take_commonPrefixLength]
        of_nil := fun hnil => by
          rw [h.lastKey_of_nil hnil]
          exact Nat.le_zero.mp (commonPrefixLength_le_left [] key) }
    rw [hslot, if_pos hin]
    refine ⟨L.snoc _ false hfit (by simp), h.snoc hfit _ ?_ ?_ hlast, rfl, rfl⟩
    · simp [BlockBuilder.push, hin, Slot.encode, Slot.head]
    · simp [BlockBuilder.push, hin]
  · have hslot : b.nextSlot key val = ⟨0, key, val⟩ := by
      rw [nextSlot, if_neg hin]
    have hfit := BlockLayout.Fitting.of_zero L.slots (s := ⟨0, key, val⟩) rfl
    rw [hslot, if_neg hin]
    refine ⟨L.snoc _ true hfit fun _ => rfl, h.snoc hfit _ ?_ ?_ hlast, rfl, rfl⟩
    · simp [BlockBuilder.push, hin, Slot.encode, Slot.head]
    · simp [BlockBuilder.push, hin]

/-! ## Sequences of entries -/

/-- The builder after a sequence of entries, checks aside. -/
def pushAll (opt : Options) (es : List Entry) : BlockBuilder :=
  es.foldl (fun b e => b.push e.1 e.2) (new opt)

@[simp] theorem pushAll_nil (opt : Options) : pushAll opt [] = new opt := rfl

@[simp] theorem pushAll_concat (opt : Options) (es : List Entry) (e : Entry) :
    pushAll opt (es ++ [e]) = (pushAll opt es).push e.1 e.2 := by
  simp [pushAll]

@[simp] theorem pushAll_opt (opt : Options) (es : List Entry) : (pushAll opt es).opt = opt := by
  induction es using List.reverseRecOn with
  | nil => rfl
  | append_singleton es e ih => simpa [push] using ih

@[simp] theorem pushAll_entries (opt : Options) (es : List Entry) :
    (pushAll opt es).entries = es.length := by
  induction es using List.reverseRecOn with
  | nil => rfl
  | append_singleton es e ih => simpa [push, entries] using ih

@[simp] theorem pushAll_lastKey (opt : Options) (es : List Entry) :
    (pushAll opt es).lastKey = lastKeyOf es := by
  induction es using List.reverseRecOn with
  | nil => rfl
  | append_singleton es e _ => simp

/-- The buffer of a builder is empty before the first entry only. -/
@[simp] theorem pushAll_buffer_eq_nil_iff (opt : Options) (es : List Entry) :
    (pushAll opt es).buffer = [] ↔ es = [] := by
  cases es using List.reverseRecOn with
  | nil => simp [new]
  | append_singleton es e =>
      have hpos := Crates.encodeVar_length_pos e.2.length
      have hne : encodeVar e.2.length ≠ [] := List.length_pos_iff.mp hpos
      simp [push, hne]

/-- No key is longer than the buffer of the block that it was added to: a prefix that is not stored
again was stored before. -/
theorem length_le_buffer (opt : Options) {es : List Entry} {key : Bytes} (hkey : key ∈ keysOf es) :
    key.length ≤ (pushAll opt es).buffer.length := by
  induction es using List.reverseRecOn generalizing key with
  | nil => simp at hkey
  | append_singleton es e ih =>
      have hlast : (lastKeyOf es).length ≤ (pushAll opt es).buffer.length := by
        by_cases hnil : es = []
        · simp [hnil, lastKeyOf]
        · exact ih (lastKeyOf_mem hnil)
      have hprefix := commonPrefixLength_le_left (lastKeyOf es) e.1
      rw [pushAll_concat]
      simp only [push, pushAll_lastKey, List.length_append, List.length_drop]
      rw [keysOf_append, List.mem_append] at hkey
      rcases hkey with hold | hnew
      · have hle := ih hold
        omega
      · have hkey : key = e.1 := by simpa [keysOf] using hnew
        subst hkey
        split <;> omega

theorem length_le_finish (opt : Options) {es : List Entry} {key : Bytes} (hkey : key ∈ keysOf es) :
    key.length ≤ (pushAll opt es).finish.length := by
  have hle := length_le_buffer opt hkey
  rw [finish, List.length_append, List.length_append]
  omega

/-- The restart counter stays within the restart interval, unless that is zero. -/
theorem pushAll_restartCounter_le {opt : Options} (hr : 1 ≤ opt.blockRestartInterval)
    (es : List Entry) : (pushAll opt es).restartCounter ≤ opt.blockRestartInterval := by
  induction es using List.reverseRecOn with
  | nil => simp [new]
  | append_singleton es e ih =>
      simp only [pushAll_concat, push, pushAll_opt]
      split <;> omega

/-- Every state of a builder is the encoding of a layout. -/
theorem exists_encodes (opt : Options) (es : List Entry) :
    ∃ L, Encodes L (pushAll opt es) ∧ L.entries = es := by
  induction es using List.reverseRecOn with
  | nil => exact ⟨.empty, encodes_new opt, rfl⟩
  | append_singleton es e ih =>
      obtain ⟨L, hL, hentries⟩ := ih
      obtain ⟨L', hL', hslots, -⟩ := hL.push e.1 e.2
      refine ⟨L', by simpa using hL', ?_⟩
      rw [BlockLayout.entries, hslots, List.map_append, ← BlockLayout.entries, hentries]
      rfl

/-- The bytes of a finished block are those of its layout. -/
theorem Encodes.finish_eq {L : BlockLayout} {b : BlockBuilder} (h : Encodes L b) :
    b.finish = L.contents := by
  have hword : ∀ n, encodeFixed32 (asU32 n) = encodeFixed32 n := leBytes_mod 4
  simp only [finish, BlockLayout.contents, BlockLayout.trailer, h.buffer_eq, h.restarts_eq,
    Pieces.words, List.map_map, List.length_map, List.append_assoc, Function.comp_def, hword]
  rfl

/-- The bytes of a finished block are those of a layout with the entries. -/
theorem exists_layout (opt : Options) (es : List Entry) :
    ∃ L : BlockLayout, L.entries = es ∧ (pushAll opt es).finish = L.contents := by
  obtain ⟨L, hL, hentries⟩ := exists_encodes opt es
  exact ⟨L, hentries, hL.finish_eq⟩

/-- An entry is accepted exactly when the restart counter and the comparator allow it. -/
theorem add_pushAll_iff_cmp {opt : Options} {es : List Entry} {key val : Bytes}
    {b : BlockBuilder} :
    (pushAll opt es).add key val = .ok b ↔
      (pushAll opt es).restartCounter ≤ opt.blockRestartInterval ∧
        (es = [] ∨ opt.cmp.cmp (lastKeyOf es) key = .lt) ∧ b = pushAll opt (es ++ [(key, val)]) := by
  simp [add, bind_eq_ok_iff, @eq_comm _ b]

/-- An entry is accepted exactly when the restart counter and the order allow it. -/
theorem add_pushAll_iff {opt : Options} (hcmp : opt.cmp = DefaultCmp) {es : List Entry}
    {key val : Bytes} {b : BlockBuilder} :
    (pushAll opt es).add key val = .ok b ↔
      (pushAll opt es).restartCounter ≤ opt.blockRestartInterval ∧
        (es = [] ∨ lastKeyOf es < key) ∧ b = pushAll opt (es ++ [(key, val)]) := by
  rw [add_pushAll_iff_cmp, hcmp]
  simp [DefaultCmp]

/-- Ordered entries are accepted. -/
theorem addAll_pushAll {opt : Options} (hr : 1 ≤ opt.blockRestartInterval) {es rest : List Entry}
    (hord : OrderedBy opt.cmp (es ++ rest)) :
    (pushAll opt es).addAll rest = .ok (pushAll opt (es ++ rest)) := by
  induction rest generalizing es with
  | nil => simp [addAll]
  | cons e rest ih =>
      have hsplit : es ++ e :: rest = (es ++ [e]) ++ rest := by simp
      rw [hsplit] at hord ⊢
      have horder := (orderedBy_concat_iff.mp hord.of_append).2
      have hadd : (pushAll opt es).add e.1 e.2 = .ok (pushAll opt (es ++ [e])) :=
        add_pushAll_iff_cmp.mpr ⟨pushAll_restartCounter_le hr es, horder, rfl⟩
      rw [addAll, hadd]
      exact ih hord

/-- Building a block of ordered entries succeeds. -/
theorem addAll_new_of_orderedBy {opt : Options} (hr : 1 ≤ opt.blockRestartInterval)
    {es : List Entry} (hord : OrderedBy opt.cmp es) :
    (new opt).addAll es = .ok (pushAll opt es) := by
  have hall : OrderedBy opt.cmp ([] ++ es) := hord
  exact addAll_pushAll hr hall

/-- Building a block of increasing entries succeeds. -/
theorem addAll_new {opt : Options} (hcmp : opt.cmp = DefaultCmp)
    (hr : 1 ≤ opt.blockRestartInterval) {es : List Entry} (hinc : Increasing es) :
    (new opt).addAll es = .ok (pushAll opt es) := by
  apply addAll_new_of_orderedBy hr
  rw [hcmp]
  exact hinc.orderedBy

end BlockBuilder

end SSTable
