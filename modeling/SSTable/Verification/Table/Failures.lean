import SSTable.Verification.Table.Order

/-!
# Builders after a failed write

A full data block is taken out of the builder before it is written, and a failed write does not put
it back.  The builder then has no data block, which is the first thing that its functions ask for.

Main results:

- Theorem {lit}`failed_add_poisons`: after an {lit}`add` that failed, every call stops at an
  assertion.
-/

namespace SSTable

open Foundation Foundation.Exec Foundation.Bytes

section

variable [Crates] {Dst : Type} [Write Dst] {b b' : TableBuilder Dst}

namespace TableBuilder

/-- Writing a block does not touch the data block under construction. -/
theorem writeBlock_dataBlock (b : TableBuilder Dst) (block : Bytes) (ctype : CompressionType) :
    (b.writeBlock block ctype).2.dataBlock = b.dataBlock := by
  unfold writeBlock
  dsimp only
  split
  · rfl
  · split
    · rfl
    · split
      · rfl
      · split
        · rfl
        · rfl

/-- A data block that could not be written is lost. -/
theorem writeDataBlock_error {nextKey : Bytes} {e : Status}
    (h : b.writeDataBlock nextKey = .ok (.error e, b')) : b'.dataBlock = none := by
  simp only [writeDataBlock, bind_eq_ok_iff] at h
  obtain ⟨-, -, block, -, sep, -, h⟩ := h
  have hkeeps := writeBlock_dataBlock { b with dataBlock := none, prevBlockLastKey := block.lastKey }
    block.finish b.opt.compressionType
  split at h
  · rename_i e' b₁ hwrite
    rw [hwrite] at hkeeps
    simp only [pure_eq_ok, Except.ok.injEq, Prod.mk.injEq] at h
    rw [← h.2]
    exact hkeeps
  · -- Behind the write, nothing returns an error.
    simp only [bind_eq_ok_iff] at h
    obtain ⟨⟨encLen, handleEnc⟩, -, indexBlock, -, indexBlock', -, h⟩ := h
    split at h
    · simp at h
    · simp only [bind_eq_ok_iff, pure_eq_ok, Except.ok.injEq, Prod.mk.injEq] at h
      obtain ⟨fblock, -, herror, -⟩ := h
      cases herror

omit [Write Dst] in
/-- Appending to the data block writes nothing, and so returns no error. -/
theorem append_ne_error {key val : Bytes} {e : Status} :
    b.append key val ≠ .ok (.error e, b') := by
  intro h
  simp only [append, bind_eq_ok_iff, pure_eq_ok, Except.ok.injEq, Prod.mk.injEq] at h
  obtain ⟨dblock, -, dblock', -, herror, -⟩ := h
  cases herror

/-- Adding fails only where the full data block could not be written. -/
theorem add_error {key val : Bytes} {e : Status} (h : b.add key val = .ok (.error e, b')) :
    b'.dataBlock = none := by
  simp only [add, bind_eq_ok_iff, ensure_eq_ok_iff, unwrap_eq_ok_iff] at h
  obtain ⟨-, -, -, -, dblock, -, h⟩ := h
  by_cases hfull : dblock.sizeEstimate > b.opt.blockSize
  · rw [if_pos hfull, bind_eq_ok_iff] at h
    obtain ⟨⟨flushed, b₁⟩, hflush, h⟩ := h
    cases flushed with
    | error e' =>
        simp only [pure_eq_ok, Except.ok.injEq, Prod.mk.injEq] at h
        rw [← h.2]
        exact writeDataBlock_error hflush
    | ok u => exact absurd h append_ne_error
  · rw [if_neg hfull] at h
    exact absurd h append_ne_error

/-- A builder without a data block stops whatever is asked of it. -/
theorem add_of_none (h : b.dataBlock = none) (key val : Bytes) :
    b.add key val = .error .assertion := by
  rw [add, h, ensure_of_false (by decide)]
  rfl

theorem finish_of_none (h : b.dataBlock = none) : b.finish = .error .assertion := by
  rw [finish, h, ensure_of_false (by decide)]
  rfl

end TableBuilder

end

/-- After an {lit}`add` that failed, whatever the builder and the sink were, every further
{lit}`add` and {lit}`finish` stops at an assertion. -/
theorem failed_add_poisons [Crates] {Dst : Type} [Write Dst] (b b' : TableBuilder Dst)
    (key val : Bytes) (e : Status) (h : b.add key val = .ok (.error e, b')) :
    (∀ key' val', b'.add key' val' = .error .assertion) ∧ b'.finish = .error .assertion := by
  have hnone := TableBuilder.add_error h
  constructor
  · intro key' val'
    exact TableBuilder.add_of_none hnone key' val'
  · exact TableBuilder.finish_of_none hnone

/-- A sink with room for some more bytes.  It refuses a buffer that does not fit. -/
structure Disk where
  room : Nat
  taken : Bytes

namespace Disk

def put (dst : Disk) (b : Bytes) : Except IoError Unit × Disk :=
  if b.length ≤ dst.room then
    (.ok (), { room := dst.room - b.length, taken := dst.taken ++ b })
  else
    (.error { kind := .Other, text := "no space left on device" }, dst)

instance : Write Disk where
  write dst b :=
    match dst.put b with
    | (.ok (), dst) => (.ok b.length, dst)
    | (.error e, dst) => (.error e, dst)
  writeAll := put
  flush dst := (.ok (), dst)

end Disk

/-- A builder with one entry, on a disk that has room for its block but not for the block's
compression type. -/
def oneEntry : TableBuilder Disk :=
  letI := referenceCrates
  match (TableBuilder.new tinyBlocks ({ room := 13, taken := [] } : Disk)).add [97] [1] with
  | .ok (_, b) => b
  | .error _ => TableBuilder.new tinyBlocks { room := 13, taken := [] }

theorem oneEntry_eq : letI := referenceCrates
    (TableBuilder.new tinyBlocks ({ room := 13, taken := [] } : Disk)).add [97] [1] =
      .ok (.ok (), oneEntry) := by
  rfl

/-- The builder that is left when a second entry could not be added. -/
def afterFailure : TableBuilder Disk :=
  letI := referenceCrates
  match oneEntry.add [98] [2] with
  | .ok (_, b) => b
  | .error _ => oneEntry

theorem afterFailure_eq : letI := referenceCrates
    oneEntry.add [98] [2] =
      .ok (.error (Status.new .IOError "no space left on device"), afterFailure) := by
  rfl

/-- A second entry, for which the first block does not fit on the disk. -/
theorem failed_add_poisons_full : letI := referenceCrates
    (∀ key' val', afterFailure.add key' val' = .error .assertion) ∧
      afterFailure.finish = .error .assertion :=
  letI := referenceCrates
  failed_add_poisons oneEntry afterFailure [98] [2] _ afterFailure_eq

/-- A builder that has accepted one entry and failed to add the next one cannot be finished, so that
the accepted entry is lost. -/
theorem failed_add_stops : letI := referenceCrates
    ¬ ∀ (opt : Options) (dst : Disk) (before : List Entry) (b b' : TableBuilder Disk)
      (key val : Bytes) (e : Status), opt.cmp = DefaultCmp → Increasing (before ++ [(key, val)]) →
      (TableBuilder.new opt dst).addAll before = .ok (.ok (), b) →
      b.add key val = .ok (.error e, b') →
      (∀ key' val', key < key' → ∃ r, b'.add key' val' = .ok r) ∧ ∃ r, b'.finish = .ok r := by
  let := referenceCrates
  intro h
  have hbefore : (TableBuilder.new tinyBlocks ({ room := 13, taken := [] } : Disk)).addAll
      [([97], [1])] = .ok (.ok (), oneEntry) := by
    rw [TableBuilder.addAll, oneEntry_eq]
    rfl
  have hstops := TableBuilder.finish_of_none (TableBuilder.add_error afterFailure_eq)
  obtain ⟨-, r, hr⟩ := h _ _ _ _ _ _ _ _ rfl (by decide) hbefore afterFailure_eq
  rw [hstops] at hr
  cases hr

end SSTable
