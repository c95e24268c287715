import SSTable.Model.ReferenceCrates
import SSTable.Verification.Block.Construction

/-!
# The restart array of a block builder

After every entry, the restarts of a block builder are the offsets of the entries whose number is a
multiple of the restart interval.  Those entries are stored whole, and every other one without the
longest prefix it has in common with its predecessor.

Main results:

- Definition {lit}`RestartArray`: what the restarts say about the buffer and the finished block.
- Theorem {lit}`Spaced.push`: an entry is stored in the right slot, with a restart where an interval
  ends.
- Theorem {lit}`restart_array`: after every entry of an ordered sequence, the restarts are right.
-/

namespace SSTable

open Foundation Foundation.Exec Foundation.Bytes Foundation.Pieces

/-! ## Intervals -/

/-- The number of restarts among the given number of entries. -/
def intervalCount (r n : Nat) : Nat := max 1 ((n + r - 1) / r)

/-- The number of entries behind the last restart, which is one of them. -/
def sinceRestart (r n : Nat) : Nat := if n = 0 then 0 else (n - 1) % r + 1

theorem intervalCount_succ {r : Nat} (hr : 1 ≤ r) (n : Nat) : intervalCount r (n + 1) = n / r + 1 := by
  have hsum : n + 1 + r - 1 = n + r := by omega
  rw [intervalCount, hsum, Nat.add_div_right n hr]
  exact max_eq_right (Nat.le_add_left 1 _)

@[simp] theorem intervalCount_zero {r : Nat} (hr : 1 ≤ r) : intervalCount r 0 = 1 := by
  rw [intervalCount, Nat.zero_add, Nat.div_eq_of_lt (by omega)]
  rfl

theorem sinceRestart_succ (r n : Nat) : sinceRestart r (n + 1) = n % r + 1 := rfl

theorem succ_mod_of_lt {r n : Nat} (hin : n % r + 1 < r) : (n + 1) % r = n % r + 1 := by
  have hone : 1 % r = 1 := Nat.mod_eq_of_lt (by omega)
  rw [Nat.add_mod, hone, Nat.mod_eq_of_lt hin]

/-- An interval ends where the number of entries is a multiple of its length. -/
theorem sinceRestart_lt_iff {r : Nat} (hr : 1 ≤ r) (n : Nat) :
    sinceRestart r n < r ↔ n = 0 ∨ ¬ r ∣ n := by
  cases n with
  | zero => simp [sinceRestart, Nat.lt_of_lt_of_le Nat.zero_lt_one hr]
  | succ n =>
      have hsplit := Nat.div_add_mod n r
      have hmod := Nat.mod_lt n hr
      rw [sinceRestart_succ]
      by_cases hin : n % r + 1 < r
      · simp [hin, Nat.dvd_iff_mod_eq_zero, succ_mod_of_lt hin]
      · have hdvd : r ∣ n + 1 := ⟨n / r + 1, by rw [Nat.mul_add, Nat.mul_one]; omega⟩
        simp [hin, hdvd]

/-- Within an interval, the number of entries behind the last restart grows with the entries. -/
theorem sinceRestart_succ_of_lt {r n : Nat} (hin : sinceRestart r n < r) :
    sinceRestart r (n + 1) = sinceRestart r n + 1 := by
  cases n with
  | zero => simp [sinceRestart]
  | succ n =>
      rw [sinceRestart_succ] at hin
      rw [sinceRestart_succ, sinceRestart_succ, succ_mod_of_lt hin]

theorem sinceRestart_succ_of_not_lt {r n : Nat} (hr : 1 ≤ r) (hin : ¬ sinceRestart r n < r) :
    sinceRestart r (n + 1) = 1 := by
  rw [sinceRestart_lt_iff hr, not_or, not_not] at hin
  rw [sinceRestart_succ, Nat.mod_eq_zero_of_dvd hin.2]

/-- Within an interval, there is no new restart. -/
theorem intervalCount_succ_of_lt {r n : Nat} (hr : 1 ≤ r) (hin : sinceRestart r n < r) :
    intervalCount r (n + 1) = intervalCount r n := by
  rw [sinceRestart_lt_iff hr] at hin
  cases n with
  | zero => rw [intervalCount_succ hr, intervalCount_zero hr, Nat.zero_div]
  | succ n =>
      rw [intervalCount_succ hr, intervalCount_succ hr,
        Nat.succ_div_of_not_dvd (hin.resolve_left (Nat.succ_ne_zero n))]

/-- Where an interval ends, the next entry is a new restart. -/
theorem intervalCount_succ_of_not_lt {r n : Nat} (hr : 1 ≤ r) (hin : ¬ sinceRestart r n < r) :
    intervalCount r (n + 1) = intervalCount r n + 1 ∧ n = intervalCount r n * r := by
  rw [sinceRestart_lt_iff hr, not_or, not_not] at hin
  obtain ⟨hne, hdvd⟩ := hin
  obtain ⟨n, rfl⟩ := Nat.exists_eq_succ_of_ne_zero hne
  have hcount : intervalCount r (n + 1) = (n + 1) / r := by
    rw [intervalCount_succ hr, Nat.succ_div_of_dvd hdvd]
  rw [Nat.succ_eq_add_one, intervalCount_succ hr, hcount]
  exact ⟨rfl, (Nat.div_mul_cancel hdvd).symm⟩

/-- The restarts of a block that has an entry are among its entries. -/
theorem lt_intervalCount {r n j : Nat} (hr : 1 ≤ r) (hj : j * r < n) : j < intervalCount r n := by
  obtain ⟨m, rfl⟩ : ∃ m, n = m + 1 := ⟨n - 1, by omega⟩
  rw [intervalCount_succ hr, Nat.lt_succ_iff]
  exact (Nat.le_div_iff_mul_le hr).mpr (Nat.lt_succ_iff.mp hj)

namespace BlockBuilder

/-- A finished block is its buffer, its restarts and their number. -/
theorem finish_split (b : BlockBuilder) :
    b.finish = b.buffer ++ (words 4 b.restarts ++ leBytes 4 b.restarts.length) := by
  rw [finish, List.append_assoc]
  rfl

theorem finish_length (b : BlockBuilder) : b.finish.length = b.sizeEstimate := by
  simp only [finish_split, sizeEstimate, List.length_append, words_length, leBytes_length]
  omega

end BlockBuilder

/-! ## Restarts at the ends of intervals -/

section

variable [Crates]

namespace BlockBuilder

/-- The builder is the encoding of a layout whose restarts are an interval apart. -/
structure Spaced (r : Nat) (L : BlockLayout) (b : BlockBuilder) : Prop where
  encodes : Encodes L b
  restartIx_eq : L.restartIx = (List.range (intervalCount r L.slots.length)).map (· * r)
  counter_eq : b.restartCounter = sinceRestart r L.slots.length
  shared_eq : ∀ i s t, L.slots[i]? = some s → L.slots[i + 1]? = some t → ¬ r ∣ i + 1 →
    t.shared = commonPrefixLength s.key t.key

theorem spaced_new {opt : Options} (hr : 1 ≤ opt.blockRestartInterval) :
    Spaced opt.blockRestartInterval .empty (new opt) where
  encodes := encodes_new opt
  restartIx_eq := by
    change [0] = (List.range (intervalCount _ 0)).map _
    rw [intervalCount_zero hr, List.range_one, List.map_singleton, Nat.zero_mul]
  counter_eq := rfl
  shared_eq i s t hs := by simp [BlockLayout.empty] at hs

/-- An entry is stored in the next slot, which is a restart where an interval ends. -/
theorem Spaced.push {r : Nat} (hr : 1 ≤ r) {L : BlockLayout} {b : BlockBuilder}
    (h : Spaced r L b) (hopt : b.opt.blockRestartInterval = r) (key val : Bytes) :
    ∃ L', Spaced r L' (b.push key val) ∧ L'.entries = L.entries ++ [(key, val)] := by
  obtain ⟨L', hencodes, hslots, hrestarts⟩ := h.encodes.push key val
  rw [hopt, h.counter_eq, h.restartIx_eq] at hrestarts
  have hlen : L'.slots.length = L.slots.length + 1 := by simp [hslots]
  have hcounter : (b.push key val).restartCounter =
      (if sinceRestart r L.slots.length < r then sinceRestart r L.slots.length else 0) + 1 := by
    simp only [BlockBuilder.push, hopt, h.counter_eq]
  refine ⟨L', ?_, ?_⟩
  · constructor
    case encodes => exact hencodes
    case restartIx_eq =>
      rw [hrestarts, hlen]
      by_cases hin : sinceRestart r L.slots.length < r
      · rw [if_pos hin, intervalCount_succ_of_lt hr hin]
      · obtain ⟨hcount, hix⟩ := intervalCount_succ_of_not_lt hr hin
        rw [if_neg hin, hcount, List.range_succ, List.map_append, List.map_singleton, ← hix]
    case counter_eq =>
      rw [hcounter, hlen]
      by_cases hin : sinceRestart r L.slots.length < r
      · rw [if_pos hin, sinceRestart_succ_of_lt hin]
      · rw [if_neg hin, sinceRestart_succ_of_not_lt hr hin]
    case shared_eq =>
      intro i s t hs ht hdvd
      have hi := (List.getElem?_eq_some_iff.mp ht).1
      rw [hlen] at hi
      rw [hslots] at hs ht
      by_cases hlast : i + 1 = L.slots.length
      · -- The new slot shares what the last key has in common with its own.
        rw [hlast, List.getElem?_concat_length, Option.some.injEq] at ht
        rw [List.getElem?_append_left (by omega)] at hs
        have hkey : s.key = b.lastKey := by
          apply h.encodes.lastKey_eq
          rw [List.getLast?_eq_getElem?, ← hlast]
          exact hs
        have hin : sinceRestart r L.slots.length < r := by
          rw [sinceRestart_lt_iff hr, ← hlast]
          exact Or.inr hdvd
        rw [← ht, hkey, nextSlot, hopt, h.counter_eq, if_pos hin]
      · rw [List.getElem?_append_left (by omega)] at hs ht
        exact h.shared_eq i s t hs ht hdvd
  · rw [BlockLayout.entries, hslots, List.map_append, ← BlockLayout.entries]
    rfl

/-- The restarts of every block builder are an interval apart. -/
theorem exists_spaced {opt : Options} (hr : 1 ≤ opt.blockRestartInterval) (es : List Entry) :
    ∃ L, Spaced opt.blockRestartInterval L (pushAll opt es) ∧ L.entries = es := by
  induction es using List.reverseRecOn with
  | nil => exact ⟨.empty, spaced_new hr, rfl⟩
  | append_singleton es e ih =>
      obtain ⟨L, hL, hentries⟩ := ih
      have hopt : (pushAll opt es).opt.blockRestartInterval = opt.blockRestartInterval := by
        rw [pushAll_opt]
      obtain ⟨L', hL', hentries'⟩ := hL.push hr hopt e.1 e.2
      refine ⟨L', ?_, by rw [hentries', hentries]⟩
      rwa [pushAll_concat]

/-! ## What the restarts say -/

/-- The restarts of a block builder that has stored its entries in the given slots.  The buffer is
the slots one after the other, so the length of the slots in front of a slot is the offset at which
it begins. -/
structure RestartArray (r : Nat) (slots : List Slot) (b : BlockBuilder) : Prop where
  buffer_eq : b.buffer = slotBytes slots
  first : b.restarts.head? = some 0
  increasing : b.restarts.Pairwise (· < ·)
  length_eq : b.restarts.length = max 1 ((slots.length + r - 1) / r)
  offset_eq : ∀ j o, b.restarts[j]? = some o → o = (slotBytes (slots.take (j * r))).length
  whole : ∀ j s, slots[j * r]? = some s → s.shared = 0
  shares : ∀ i s t, slots[i]? = some s → slots[i + 1]? = some t → ¬ r ∣ i + 1 →
    LongestCommonPrefix s.key t.key t.shared
  finish_length : b.finish.length = b.sizeEstimate
  /-- The finished block ends with the restarts. -/
  word : ∀ j o, b.restarts[j]? = some o →
    ∃ w, slice b.finish (b.buffer.length + 4 * j) (b.buffer.length + 4 * j + 4) = .ok w ∧
      decodeFixed32 w = o
  /-- Behind them stands their number. -/
  count : ∃ w, sliceFrom b.finish (b.buffer.length + 4 * b.restarts.length) = .ok w ∧
    w.length = 4 ∧ decodeFixed32 w = b.restarts.length

namespace Spaced

variable {r : Nat} {L : BlockLayout} {b : BlockBuilder}

/-- Offsets into a buffer below 2^32 bytes are not cut. -/
theorem restarts_eq (h : Spaced r L b) (hsmall : b.buffer.length < 2 ^ 32) :
    b.restarts =
      (List.range (intervalCount r L.slots.length)).map fun j => L.offsetOf (j * r) := by
  rw [h.encodes.restarts_eq, h.restartIx_eq, List.map_map]
  apply List.map_congr_left
  intro j _
  have hle := L.offsetOf_le_body (j * r)
  rw [← h.encodes.buffer_eq] at hle
  exact Nat.mod_eq_of_lt (lt_of_le_of_lt hle hsmall)

theorem mul_le (h : Spaced r L b) {j : Nat} (hj : j < intervalCount r L.slots.length) :
    j * r ≤ L.slots.length := by
  apply L.restartIx_le
  rw [h.restartIx_eq]
  exact List.mem_map_of_mem (List.mem_range.mpr hj)

/-- The restarts are no more than the entries, except in an empty block. -/
theorem restarts_length_lt (h : Spaced r L b) (hr : 1 ≤ r) (hsmall : b.buffer.length < 2 ^ 32) :
    b.restarts.length < 2 ^ 32 := by
  rw [h.restarts_eq hsmall, List.length_map, List.length_range]
  have hslots := L.le_offsetOf le_rfl
  have hbody := L.offsetOf_le_body L.slots.length
  rw [← h.encodes.buffer_eq] at hbody
  rcases Nat.eq_zero_or_pos L.slots.length with hzero | hpos
  · rw [hzero, intervalCount_zero hr]
    omega
  · obtain ⟨n, hn⟩ : ∃ n, L.slots.length = n + 1 := ⟨L.slots.length - 1, by omega⟩
    have hdiv := Nat.div_le_self n r
    rw [hn, intervalCount_succ hr]
    omega

/-- Restarts an interval apart are those the entries call for. -/
theorem restartArray (h : Spaced r L b) (hr : 1 ≤ r) (hsmall : b.buffer.length < 2 ^ 32) :
    RestartArray r L.slots b := by
  have hrestarts := h.restarts_eq hsmall
  have hlength : b.restarts.length = intervalCount r L.slots.length := by
    rw [hrestarts, List.length_map, List.length_range]
  have hget : ∀ j o, b.restarts[j]? = some o →
      j < intervalCount r L.slots.length ∧ o = L.offsetOf (j * r) := by
    intro j o ho
    have hj := (List.getElem?_eq_some_iff.mp ho).1
    rw [hlength] at hj
    rw [hrestarts, List.getElem?_map, List.getElem?_range hj, Option.map_some,
      Option.some.injEq] at ho
    exact ⟨hj, ho.symm⟩
  constructor
  case buffer_eq => exact h.encodes.buffer_eq
  case first =>
    have hpos : 0 < intervalCount r L.slots.length := by
      rw [intervalCount]
      omega
    rw [List.head?_eq_getElem?, hrestarts, List.getElem?_map, List.getElem?_range hpos,
      Option.map_some, Nat.zero_mul, L.offsetOf_zero]
  case increasing =>
    rw [hrestarts, List.pairwise_map]
    apply List.pairwise_lt_range.imp_of_mem
    intro i j _ hj hij
    have hle := h.mul_le (List.mem_range.mp hj)
    have hlt : i * r < j * r := Nat.mul_lt_mul_of_pos_right hij hr
    exact L.offsetOf_lt_offsetOf hlt (by omega)
  case length_eq => exact hlength
  case offset_eq =>
    intro j o ho
    exact (hget j o ho).2
  case whole =>
    intro j s hs
    apply L.restart_shared (j * r) _ hs
    have hj := (List.getElem?_eq_some_iff.mp hs).1
    rw [h.restartIx_eq]
    exact List.mem_map_of_mem (List.mem_range.mpr (lt_intervalCount hr hj))
  case shares =>
    intro i s t hs ht hdvd
    rw [h.shared_eq i s t hs ht hdvd]
    exact longestCommonPrefix_commonPrefixLength s.key t.key
  case finish_length => exact b.finish_length
  case word =>
    intro j o ho
    have hoffset := (hget j o ho).2
    have hle := L.offsetOf_le_body (j * r)
    rw [← h.encodes.buffer_eq] at hle
    refine ⟨leBytes 4 o, ?_, leValue_leBytes_of_lt (by omega)⟩
    rw [Nat.add_assoc, finish_split, slice_append_right]
    exact slice_word ho _
  case count =>
    have hfront : b.buffer.length + 4 * b.restarts.length =
        (b.buffer ++ words 4 b.restarts).length := by
      rw [List.length_append, words_length]
    refine ⟨leBytes 4 b.restarts.length, ?_, leBytes_length _ _,
      leValue_leBytes_of_lt (h.restarts_length_lt hr hsmall)⟩
    rw [hfront, finish_split, ← List.append_assoc]
    exact sliceFrom_append _ _

end Spaced

/-- More entries make a longer buffer. -/
theorem pushAll_buffer_length_le (opt : Options) (es rest : List Entry) :
    (pushAll opt es).buffer.length ≤ (pushAll opt (es ++ rest)).buffer.length := by
  induction rest using List.reverseRecOn with
  | nil => simp
  | append_singleton rest e ih =>
      rw [← List.append_assoc, pushAll_concat]
      apply ih.trans
      simp only [BlockBuilder.push, List.length_append]
      omega

/-- After every entry of an ordered sequence, the restart counter is within the interval, the last
key is that of the entry, and the restarts are those the entries call for. -/
theorem restart_array (opt : Options) (es : List Entry) (hr : 1 ≤ opt.blockRestartInterval)
    (hord : OrderedBy opt.cmp es) :
    ∃ b, (new opt).addAll es = .ok b ∧ (b.buffer.length < 2 ^ 32 → ∀ done, done <+: es →
      ∃ b', (new opt).addAll done = .ok b' ∧
        b'.restartCounter ≤ opt.blockRestartInterval ∧
        (∀ e, done.getLast? = some e → b'.lastKey = e.1) ∧
        ∃ slots, slots.map Slot.entry = done ∧
          RestartArray opt.blockRestartInterval slots b') := by
  refine ⟨pushAll opt es, addAll_new_of_orderedBy hr hord, ?_⟩
  rintro hsmall done ⟨rest, rfl⟩
  have hle := pushAll_buffer_length_le opt done rest
  obtain ⟨L, hL, hentries⟩ := exists_spaced hr done
  refine ⟨pushAll opt done, addAll_new_of_orderedBy hr hord.of_append,
    pushAll_restartCounter_le hr done, ?_, L.slots, hentries, hL.restartArray hr (by omega)⟩
  intro e he
  rw [pushAll_lastKey, lastKeyOf, he]
  rfl

end BlockBuilder

end

/-- Four entries with two restarts. -/
theorem restart_array_four : letI := referenceCrates
    let opt : Options := { Options.default with blockRestartInterval := 2 }
    let es : List Entry := [([97], [1]), ([97, 98], [2]), ([98, 99], [3]), ([98, 100], [4])]
    ∃ b, (BlockBuilder.new opt).addAll es = .ok b ∧
      (b.buffer.length < 2 ^ 32 → ∀ done, done <+: es →
        ∃ b', (BlockBuilder.new opt).addAll done = .ok b' ∧ b'.restartCounter ≤ 2 ∧
          (∀ e, done.getLast? = some e → b'.lastKey = e.1) ∧
          ∃ slots, slots.map Slot.entry = done ∧ BlockBuilder.RestartArray 2 slots b') :=
  letI := referenceCrates
  BlockBuilder.restart_array { Options.default with blockRestartInterval := 2 }
    [([97], [1]), ([97, 98], [2]), ([98, 99], [3]), ([98, 100], [4])] (by decide)
    (Increasing.orderedBy (by decide))

end SSTable
