import SSTable.Verification.Table.Image

/-!
# Sinks that take less than they are given

A sink may take a part of a buffer and report how much it took.  The builder ignores the report for
everything but the footer, so what it does next does not depend on it: every sink that returns no
error gets the same calls.

Main results:

- Theorem {lit}`received_replay_iff`: a sink has received what it was given exactly if it took every
  buffer whole.
- Theorem {lit}`TableBuilder.writeTable_follows`: every sink without errors gets the same calls.
-/

namespace SSTable

open Foundation Foundation.Exec Foundation.Bytes

/-! ## Calls on a sink -/

/-- A sink that follows the contract of the trait: a write takes the part of the buffer that it
reports, and {lit}`writeAll` takes all of it. -/
structure Sink (Dst : Type) [Write Dst] where
  received : Dst → Bytes
  write_le : ∀ {d d' : Dst} {b n}, Write.write d b = (.ok n, d') → n ≤ b.length
  write_ok : ∀ {d d' : Dst} {b n}, Write.write d b = (.ok n, d') →
    received d' = received d ++ b.take n
  writeAll_ok : ∀ {d d' : Dst} {b}, Write.writeAll d b = (.ok (), d') →
    received d' = received d ++ b
  flush_ok : ∀ {d d' : Dst}, Write.flush d = (.ok (), d') → received d' = received d

/-- A call on a sink. -/
inductive SinkCall where
  | write (b : Bytes)
  | writeAll (b : Bytes)
  | flush
deriving DecidableEq

/-- The bytes a sink is given. -/
def SinkCall.bytes : SinkCall → Bytes
  | .write b => b
  | .writeAll b => b
  | .flush => []

/-- The bytes a sequence of calls gives to a sink. -/
def givenBytes (calls : List SinkCall) : Bytes := (calls.map SinkCall.bytes).flatten

/-- A sink that takes everything and keeps the calls. -/
instance callsWrite : Write (List SinkCall) where
  write calls b := (.ok b.length, calls ++ [.write b])
  writeAll calls b := (.ok (), calls ++ [.writeAll b])
  flush calls := (.ok (), calls ++ [.flush])

section

variable {Dst : Type} [Write Dst] {d d' : Dst} {calls : List SinkCall}

/-- Make calls on a sink; there is no sink left if one of them fails. -/
def replay (d : Dst) : List SinkCall → Option Dst
  | [] => some d
  | .write b :: calls =>
      match Write.write d b with
      | (.ok _, d) => replay d calls
      | (.error _, _) => none
  | .writeAll b :: calls =>
      match Write.writeAll d b with
      | (.ok _, d) => replay d calls
      | (.error _, _) => none
  | .flush :: calls =>
      match Write.flush d with
      | (.ok _, d) => replay d calls
      | (.error _, _) => none

/-- Every buffer that is written is taken whole. -/
def TakesWhole (d : Dst) : List SinkCall → Prop
  | [] => True
  | .write b :: calls => (Write.write d b).1 = .ok b.length ∧ TakesWhole (Write.write d b).2 calls
  | .writeAll b :: calls => TakesWhole (Write.writeAll d b).2 calls
  | .flush :: calls => TakesWhole (Write.flush d).2 calls

@[simp] theorem replay_nil : replay d [] = some d := rfl

theorem replay_write {b : Bytes} : replay d (.write b :: calls) =
    match Write.write d b with
    | (.ok _, d) => replay d calls
    | (.error _, _) => none := rfl

theorem replay_writeAll {b : Bytes} : replay d (.writeAll b :: calls) =
    match Write.writeAll d b with
    | (.ok _, d) => replay d calls
    | (.error _, _) => none := rfl

theorem replay_flush : replay d (.flush :: calls) =
    match Write.flush d with
    | (.ok _, d) => replay d calls
    | (.error _, _) => none := rfl

theorem replay_write_iff {b : Bytes} : replay d (.write b :: calls) = some d' ↔
    ∃ n d₁, Write.write d b = (.ok n, d₁) ∧ replay d₁ calls = some d' := by
  rcases h : Write.write d b with ⟨e | n, d₁⟩
  · simp [replay_write, h]
  · simp [replay_write, h]

theorem replay_writeAll_iff {b : Bytes} : replay d (.writeAll b :: calls) = some d' ↔
    ∃ d₁, Write.writeAll d b = (.ok (), d₁) ∧ replay d₁ calls = some d' := by
  rcases h : Write.writeAll d b with ⟨e | u, d₁⟩
  · simp [replay_writeAll, h]
  · simp [replay_writeAll, h]

theorem replay_flush_iff : replay d (.flush :: calls) = some d' ↔
    ∃ d₁, Write.flush d = (.ok (), d₁) ∧ replay d₁ calls = some d' := by
  rcases h : Write.flush d with ⟨e | u, d₁⟩
  · simp [replay_flush, h]
  · simp [replay_flush, h]

theorem replay_append_iff {more : List SinkCall} : replay d (calls ++ more) = some d' ↔
    ∃ d₁, replay d calls = some d₁ ∧ replay d₁ more = some d' := by
  induction calls generalizing d with
  | nil => simp
  | cons call calls ih =>
      cases call with
      | write b =>
          simp only [List.cons_append, replay_write_iff, ih]
          constructor
          · rintro ⟨n, d₁, hcall, d₂, hrest, hmore⟩
            exact ⟨d₂, ⟨n, d₁, hcall, hrest⟩, hmore⟩
          · rintro ⟨d₂, ⟨n, d₁, hcall, hrest⟩, hmore⟩
            exact ⟨n, d₁, hcall, d₂, hrest, hmore⟩
      | writeAll b =>
          simp only [List.cons_append, replay_writeAll_iff, ih]
          constructor
          · rintro ⟨d₁, hcall, d₂, hrest, hmore⟩
            exact ⟨d₂, ⟨d₁, hcall, hrest⟩, hmore⟩
          · rintro ⟨d₂, ⟨d₁, hcall, hrest⟩, hmore⟩
            exact ⟨d₁, hcall, d₂, hrest, hmore⟩
      | flush =>
          simp only [List.cons_append, replay_flush_iff, ih]
          constructor
          · rintro ⟨d₁, hcall, d₂, hrest, hmore⟩
            exact ⟨d₂, ⟨d₁, hcall, hrest⟩, hmore⟩
          · rintro ⟨d₂, ⟨d₁, hcall, hrest⟩, hmore⟩
            exact ⟨d₁, hcall, d₂, hrest, hmore⟩

@[simp] theorem givenBytes_cons (call : SinkCall) (calls : List SinkCall) :
    givenBytes (call :: calls) = call.bytes ++ givenBytes calls := by
  simp [givenBytes]

/-- A sink never receives more than it was given. -/
theorem received_replay_le (S : Sink Dst) (h : replay d calls = some d') :
    (S.received d').length ≤ (S.received d).length + (givenBytes calls).length := by
  induction calls generalizing d with
  | nil =>
      obtain rfl := Option.some.inj h
      exact Nat.le_add_right _ _
  | cons call calls ih =>
      rw [givenBytes_cons, List.length_append]
      cases call with
      | write b =>
          obtain ⟨n, d₁, hcall, hrest⟩ := replay_write_iff.mp h
          have hle := ih hrest
          rw [S.write_ok hcall, List.length_append, List.length_take] at hle
          have := Nat.min_le_right n b.length
          simp only [SinkCall.bytes]
          omega
      | writeAll b =>
          obtain ⟨d₁, hcall, hrest⟩ := replay_writeAll_iff.mp h
          have hle := ih hrest
          rw [S.writeAll_ok hcall, List.length_append] at hle
          simp only [SinkCall.bytes]
          omega
      | flush =>
          obtain ⟨d₁, hcall, hrest⟩ := replay_flush_iff.mp h
          have hle := ih hrest
          rw [S.flush_ok hcall] at hle
          exact hle.trans (Nat.add_le_add_left (Nat.le_add_left _ _) _)

/-- A sink has received what it was given exactly if it took every buffer whole. -/
theorem received_replay_iff (S : Sink Dst) (h : replay d calls = some d') :
    S.received d' = S.received d ++ givenBytes calls ↔ TakesWhole d calls := by
  induction calls generalizing d with
  | nil =>
      obtain rfl := Option.some.inj h
      simp [givenBytes, TakesWhole]
  | cons call calls ih =>
      rw [givenBytes_cons, ← List.append_assoc]
      cases call with
      | write b =>
          obtain ⟨n, d₁, hcall, hrest⟩ := replay_write_iff.mp h
          have hreceived := S.write_ok hcall
          have hle := S.write_le hcall
          have hbound := received_replay_le S hrest
          rw [hreceived, List.length_append, List.length_take] at hbound
          simp only [SinkCall.bytes, TakesWhole, hcall, Except.ok.injEq]
          constructor
          · intro hall
            have hlen := congrArg List.length hall
            simp only [List.length_append] at hlen
            have hn : n = b.length := by omega
            refine ⟨hn, (ih hrest).mp ?_⟩
            rw [hreceived, hn, List.take_length]
            exact hall
          · rintro ⟨hn, hwhole⟩
            rw [(ih hrest).mpr hwhole, hreceived, hn, List.take_length]
      | writeAll b =>
          obtain ⟨d₁, hcall, hrest⟩ := replay_writeAll_iff.mp h
          simp only [SinkCall.bytes, TakesWhole, hcall, ← S.writeAll_ok hcall]
          exact ih hrest
      | flush =>
          obtain ⟨d₁, hcall, hrest⟩ := replay_flush_iff.mp h
          simp only [SinkCall.bytes, List.append_nil, TakesWhole, hcall, ← S.flush_ok hcall]
          exact ih hrest

theorem takesWhole_append_iff {more : List SinkCall} (h : replay d calls = some d') :
    TakesWhole d (calls ++ more) ↔ TakesWhole d calls ∧ TakesWhole d' more := by
  induction calls generalizing d with
  | nil =>
      obtain rfl := Option.some.inj h
      simp [TakesWhole]
  | cons call calls ih =>
      cases call with
      | write b =>
          obtain ⟨n, d₁, hcall, hrest⟩ := replay_write_iff.mp h
          simp only [List.cons_append, TakesWhole, hcall, ih hrest, and_assoc]
      | writeAll b =>
          obtain ⟨d₁, hcall, hrest⟩ := replay_writeAll_iff.mp h
          simp only [List.cons_append, TakesWhole, hcall, ih hrest]
      | flush =>
          obtain ⟨d₁, hcall, hrest⟩ := replay_flush_iff.mp h
          simp only [List.cons_append, TakesWhole, hcall, ih hrest]

end

/-- A growing byte vector takes everything. -/
theorem replay_bytes (d : Bytes) (calls : List SinkCall) :
    replay d calls = some (d ++ givenBytes calls) := by
  induction calls generalizing d with
  | nil => simp [givenBytes]
  | cons call calls ih =>
      cases call with
      | write b => simp [replay_write, ih, SinkCall.bytes]
      | writeAll b => simp [replay_writeAll, ih, SinkCall.bytes]
      | flush => simp [replay_flush, ih, SinkCall.bytes]

/-- The calls that are kept are those that are made. -/
theorem replay_calls (made calls : List SinkCall) : replay made calls = some (made ++ calls) := by
  induction calls generalizing made with
  | nil => simp
  | cons call calls ih =>
      cases call with
      | write b => simp [replay_write, Write.write, ih]
      | writeAll b => simp [replay_writeAll, Write.writeAll, ih]
      | flush => simp [replay_flush, Write.flush, ih]

namespace TableBuilder

/-- The builder on another sink. -/
def on {Dst D : Type} (b : TableBuilder Dst) (d : D) : TableBuilder D where
  opt := b.opt
  dst := d
  offset := b.offset
  numEntries := b.numEntries
  prevBlockLastKey := b.prevBlockLastKey
  dataBlock := b.dataBlock
  indexBlock := b.indexBlock
  filterBlock := b.filterBlock

variable [Crates] {Dst : Type} [Write Dst] {b b' : TableBuilder Dst}

/-- An execution has made some calls, and on every other sink that they do not fail on it returns the
same. -/
def Follows {α : Type} (f : (D : Type) → [Write D] → TableBuilder D → Exec (Result α × TableBuilder D))
    (b b' : TableBuilder Dst) (r : α) : Prop :=
  ∃ calls, replay b.dst calls = some b'.dst ∧
    ∀ (D : Type) [Write D] (d d' : D), replay d calls = some d' →
      f D (b.on d) = .ok (.ok r, b'.on d')

theorem writeBlock_follows {block : Bytes} {ctype : CompressionType} {h : BlockHandle}
    (hrun : b.writeBlock block ctype = (.ok h, b')) :
    Follows (fun _ _ b => .ok (b.writeBlock block ctype)) b b' h := by
  unfold writeBlock at hrun
  cases hcompress : compressBlock ctype block with
  | error e =>
      rw [compressBlock] at hcompress
      simp [hcompress] at hrun
  | ok data =>
      rw [compressBlock] at hcompress
      simp only [hcompress] at hrun
      rcases hdata : Write.write b.dst data with ⟨e | n, d₁⟩
      · simp [hdata] at hrun
      · simp only [hdata] at hrun
        rcases htype : Write.write d₁ [ctype.toByte] with ⟨e | m, d₂⟩
        · simp [htype] at hrun
        · simp only [htype] at hrun
          rcases hsum : writeFixedInt d₂ (maskCrc (crc32 (data ++ [ctype.toByte]))) with ⟨e | u, d₃⟩
          · simp [hsum] at hrun
          · simp only [hsum, Prod.mk.injEq, Except.ok.injEq] at hrun
            obtain ⟨rfl, rfl⟩ := hrun
            refine ⟨[.write data, .write [ctype.toByte],
              .writeAll (encodeFixed32 (maskCrc (crc32 (data ++ [ctype.toByte]))).toNat)], ?_, ?_⟩
            · rw [writeFixedInt] at hsum
              simp [replay_write, replay_writeAll, hdata, htype, hsum]
            · intro D _ d d' hreplay
              simp only [replay_write_iff, replay_writeAll_iff] at hreplay
              obtain ⟨_, _, h₁, _, _, h₂, _, h₃, hlast⟩ := hreplay
              obtain rfl := Option.some.inj hlast
              simp only [writeBlock, on, hcompress, h₁, h₂, writeFixedInt, h₃]

/-- Writing a block with an index entry uses the sink for the block only. -/
theorem writeDataBlock_follows {nextKey : Bytes} (hrun : b.writeDataBlock nextKey = .ok (.ok (), b')) :
    Follows (fun _ _ b => b.writeDataBlock nextKey) b b' () := by
  simp only [writeDataBlock, bind_eq_ok_iff, ensure_eq_ok_iff, unwrap_eq_ok_iff] at hrun
  obtain ⟨_, hsome, block, hblock, sep, hsep, hrun⟩ := hrun
  rcases hwrite : ({ b with dataBlock := none, prevBlockLastKey := block.lastKey } :
      TableBuilder Dst).writeBlock block.finish b.opt.compressionType with ⟨e | handle, b₁⟩
  · simp [hwrite] at hrun
  · obtain ⟨calls, hcalls, hother⟩ := writeBlock_follows hwrite
    simp only [hwrite, bind_eq_ok_iff, unwrap_eq_ok_iff] at hrun
    obtain ⟨⟨encLen, handleEnc⟩, hencode, indexBlock, hindex, indexBlock', hadd, hrun⟩ := hrun
    have hnext : ∀ (D : Type) [Write D] (d d' : D), replay d calls = some d' →
        (({ b with dataBlock := none, prevBlockLastKey := block.lastKey } : TableBuilder Dst).on
          d).writeBlock block.finish b.opt.compressionType = (.ok handle, b₁.on d') :=
      fun D _ d d' h => Except.ok.inj (hother D d d' h)
    cases hfilter : b₁.filterBlock with
    | none =>
        simp only [hfilter, pure_eq_ok, Except.ok.injEq, Prod.mk.injEq, true_and] at hrun
        subst hrun
        refine ⟨calls, hcalls, fun D _ d d' hreplay => ?_⟩
        have hblock' := hnext D d d' hreplay
        simp only [on] at hblock'
        simp only [writeDataBlock, on, hblock, hsep, hblock', hencode, hindex, hadd, hfilter,
          Option.isSome_some, ensure_of_true, unwrap_some, ok_bind, pure_eq_ok]
    | some fblock =>
        simp only [hfilter, bind_eq_ok_iff, pure_eq_ok, Except.ok.injEq, Prod.mk.injEq,
          true_and] at hrun
        obtain ⟨fblock', hstart, rfl⟩ := hrun
        refine ⟨calls, hcalls, fun D _ d d' hreplay => ?_⟩
        have hblock' := hnext D d d' hreplay
        simp only [on] at hblock'
        simp only [writeDataBlock, on, hblock, hsep, hblock', hencode, hindex, hadd, hfilter,
          hstart, Option.isSome_some, ensure_of_true, unwrap_some, ok_bind, pure_eq_ok]

/-- Appending an entry does not use the sink. -/
theorem append_follows {key val : Bytes} (hrun : b.append key val = .ok (.ok (), b')) :
    Follows (fun _ _ b => b.append key val) b b' () := by
  simp only [append, bind_eq_ok_iff, unwrap_eq_ok_iff, pure_eq_ok, Except.ok.injEq, Prod.mk.injEq,
    true_and] at hrun
  obtain ⟨dblock, hblock, dblock', hadd, rfl⟩ := hrun
  refine ⟨[], rfl, fun D _ d d' hreplay => ?_⟩
  obtain rfl := Option.some.inj hreplay
  simp [append, on, hblock, hadd]

omit [Crates] in
/-- One execution after the other. -/
theorem Follows.trans {α β : Type} {b₁ : TableBuilder Dst} {r : α} {r' : β}
    {f : (D : Type) → [Write D] → TableBuilder D → Exec (Result α × TableBuilder D)}
    {g : (D : Type) → [Write D] → TableBuilder D → Exec (Result β × TableBuilder D)}
    {k : (D : Type) → [Write D] → TableBuilder D → Exec (Result β × TableBuilder D)}
    (hf : Follows f b b₁ r) (hg : Follows g b₁ b' r')
    (hk : ∀ (D : Type) [Write D] (d d₁ : D), f D (b.on d) = .ok (.ok r, b₁.on d₁) →
      k D (b.on d) = g D (b₁.on d₁)) : Follows k b b' r' := by
  obtain ⟨calls, hcalls, hfirst⟩ := hf
  obtain ⟨more, hmore, hsecond⟩ := hg
  refine ⟨calls ++ more, replay_append_iff.mpr ⟨b₁.dst, hcalls, hmore⟩, fun D _ d d' hreplay => ?_⟩
  obtain ⟨d₁, h₁, h₂⟩ := replay_append_iff.mp hreplay
  rw [hk D d d₁ (hfirst D d d₁ h₁)]
  exact hsecond D d₁ d' h₂

theorem add_follows {key val : Bytes} (hrun : b.add key val = .ok (.ok (), b')) :
    Follows (fun _ _ b => b.add key val) b b' () := by
  simp only [add, bind_eq_ok_iff, ensure_eq_ok_iff, unwrap_eq_ok_iff] at hrun
  obtain ⟨_, -, _, horder, dblock, hblock, hrun⟩ := hrun
  by_cases hfull : dblock.sizeEstimate > b.opt.blockSize
  · rw [if_pos hfull, bind_eq_ok_iff] at hrun
    obtain ⟨⟨flushed, b₁⟩, hflush, hrun⟩ := hrun
    cases flushed with
    | error e => simp at hrun
    | ok u =>
        refine (writeDataBlock_follows hflush).trans (append_follows hrun) fun D _ d d₁ hwrite => ?_
        simp only [on, hblock] at hwrite
        simp only [add, on, hblock, horder, hfull, if_true, hwrite, Option.isSome_some,
          ensure_of_true, unwrap_some, ok_bind]
  · rw [if_neg hfull, pure_eq_ok, ok_bind] at hrun
    obtain ⟨calls, hcalls, hother⟩ := append_follows hrun
    refine ⟨calls, hcalls, fun D _ d d' hreplay => ?_⟩
    have happend := hother D d d' hreplay
    simp only [on, hblock] at happend
    simp only [add, on, hblock, horder, hfull, if_false, Option.isSome_some, ensure_of_true,
      unwrap_some, ok_bind, pure_eq_ok, happend]

theorem addAll_follows {es : List Entry} (hrun : b.addAll es = .ok (.ok (), b')) :
    Follows (fun _ _ b => b.addAll es) b b' () := by
  induction es generalizing b with
  | nil =>
      simp only [addAll, pure_eq_ok, Except.ok.injEq, Prod.mk.injEq, true_and] at hrun
      subst hrun
      refine ⟨[], rfl, fun D _ d d' hreplay => ?_⟩
      obtain rfl := Option.some.inj hreplay
      rfl
  | cons e es ih =>
      obtain ⟨key, val⟩ := e
      simp only [addAll, bind_eq_ok_iff, Prod.exists] at hrun
      obtain ⟨added, b₁, hadd, hrun⟩ := hrun
      cases added with
      | error e => simp at hrun
      | ok u =>
          refine (add_follows hadd).trans (ih hrun) fun D _ d d₁ hadd => ?_
          simp only [addAll, hadd, ok_bind]

theorem flushPending_follows (hrun : b.flushPending = .ok (.ok (), b')) :
    Follows (fun _ _ b => b.flushPending) b b' () := by
  simp only [flushPending, bind_eq_ok_iff, unwrap_eq_ok_iff] at hrun
  obtain ⟨dblock, hblock, hrun⟩ := hrun
  by_cases hpos : dblock.entries > 0
  · rw [if_pos hpos] at hrun
    obtain ⟨calls, hcalls, hother⟩ := writeDataBlock_follows hrun
    refine ⟨calls, hcalls, fun D _ d d' hreplay => ?_⟩
    have hwrite := hother D d d' hreplay
    simp only [on, hblock] at hwrite
    simp only [flushPending, on, hblock, unwrap_some, ok_bind, hpos, if_true, hwrite]
  · rw [if_neg hpos, pure_eq_ok, Except.ok.injEq, Prod.mk.injEq] at hrun
    obtain ⟨-, rfl⟩ := hrun
    refine ⟨[], rfl, fun D _ d d' hreplay => ?_⟩
    obtain rfl := Option.some.inj hreplay
    simp only [flushPending, on, hblock, unwrap_some, ok_bind, hpos, if_false, pure_eq_ok]

theorem writeFilterBlock_follows {ib ib' : BlockBuilder}
    (hrun : b.writeFilterBlock ib = .ok (.ok ib', b')) :
    Follows (fun _ _ b => b.writeFilterBlock ib) b b' ib' := by
  cases hfilter : b.filterBlock with
  | none =>
      simp only [writeFilterBlock, hfilter, pure_eq_ok, Except.ok.injEq, Prod.mk.injEq] at hrun
      obtain ⟨rfl, rfl⟩ := hrun
      refine ⟨[], rfl, fun D _ d d' hreplay => ?_⟩
      obtain rfl := Option.some.inj hreplay
      simp only [writeFilterBlock, on, hfilter, pure_eq_ok]
  | some fblock =>
      simp only [writeFilterBlock, hfilter, bind_eq_ok_iff] at hrun
      obtain ⟨data, hdata, hrun⟩ := hrun
      rcases hwrite : ({ b with filterBlock := none } : TableBuilder Dst).writeBlock data
        .CompressionNone with ⟨e | handle, b₁⟩
      · simp [hwrite] at hrun
      · obtain ⟨calls, hcalls, hother⟩ := writeBlock_follows hwrite
        simp only [hwrite, bind_eq_ok_iff, pure_eq_ok, Except.ok.injEq, Prod.mk.injEq] at hrun
        obtain ⟨⟨encLen, handleEnc⟩, hencode, ib'', hadd, rfl, rfl⟩ := hrun
        refine ⟨calls, hcalls, fun D _ d d' hreplay => ?_⟩
        have hblock := Except.ok.inj (hother D d d' hreplay)
        simp only [on] at hblock
        simp only [writeFilterBlock, on, hfilter, hdata, ok_bind, hblock, hencode, hadd, pure_eq_ok]

/-- An execution has made some calls, written a footer and flushed the sink, and on every other sink
that they do not fail on it does the same.  What it returns depends on the write of the footer. -/
def Ends (f : (D : Type) → [Write D] → TableBuilder D → Exec (Result Nat × D)) (b : TableBuilder Dst)
    (dst' : Dst) (n : Nat) : Prop :=
  ∃ calls off buf, (∃ d₁ d₂ k, replay b.dst calls = some d₁ ∧ Write.write d₁ buf = (.ok k, d₂) ∧
      Write.flush d₂ = (.ok (), dst') ∧ n = off + k) ∧
    ∀ (D : Type) [Write D] (d d₁ d₂ d' : D) (k : Nat), replay d calls = some d₁ →
      Write.write d₁ buf = (.ok k, d₂) → Write.flush d₂ = (.ok (), d') →
        f D (b.on d) = .ok (.ok (off + k), d')

omit [Crates] in
theorem Follows.ends {α : Type} {b₁ : TableBuilder Dst} {r : α} {dst' : Dst} {n : Nat}
    {f : (D : Type) → [Write D] → TableBuilder D → Exec (Result α × TableBuilder D)}
    {g : (D : Type) → [Write D] → TableBuilder D → Exec (Result Nat × D)}
    {k : (D : Type) → [Write D] → TableBuilder D → Exec (Result Nat × D)}
    (hf : Follows f b b₁ r) (hg : Ends g b₁ dst' n)
    (hk : ∀ (D : Type) [Write D] (d d₁ : D), f D (b.on d) = .ok (.ok r, b₁.on d₁) →
      k D (b.on d) = g D (b₁.on d₁)) : Ends k b dst' n := by
  obtain ⟨calls, hcalls, hfirst⟩ := hf
  obtain ⟨more, off, buf, ⟨d₁, d₂, m, hmore, hfooter⟩, hsecond⟩ := hg
  refine ⟨calls ++ more, off, buf,
    ⟨d₁, d₂, m, replay_append_iff.mpr ⟨b₁.dst, hcalls, hmore⟩, hfooter⟩, ?_⟩
  intro D _ d d₁ d₂ d' m hreplay hwrite hflush
  obtain ⟨d₀, h₁, h₂⟩ := replay_append_iff.mp hreplay
  rw [hk D d d₀ (hfirst D d d₀ h₁)]
  exact hsecond D d₀ d₁ d₂ d' m h₂ hwrite hflush

theorem writeFooter_ends {footer : Footer} {dst' : Dst} {n : Nat}
    (hrun : b.writeFooter footer = .ok (.ok n, dst')) :
    Ends (fun _ _ b => b.writeFooter footer) b dst' n := by
  simp only [writeFooter, bind_eq_ok_iff] at hrun
  obtain ⟨buf, hencode, hrun⟩ := hrun
  rcases hwrite : Write.write b.dst buf with ⟨e | k, d₁⟩
  · simp [hwrite] at hrun
  · rcases hflush : Write.flush d₁ with ⟨e | u, d₂⟩
    · simp [hwrite, hflush] at hrun
    · simp only [hwrite, hflush, pure_eq_ok, Except.ok.injEq, Prod.mk.injEq] at hrun
      obtain ⟨rfl, rfl⟩ := hrun
      refine ⟨[], b.offset, buf, ⟨_, d₁, k, rfl, hwrite, hflush, rfl⟩, ?_⟩
      intro D _ d d₁ d₂ d' k hreplay hwrite hflush
      obtain rfl := Option.some.inj hreplay
      simp only [writeFooter, on, hencode, ok_bind, hwrite, hflush, pure_eq_ok]

theorem finish_ends {dst' : Dst} {n : Nat} (hrun : b.finish = .ok (.ok n, dst')) :
    Ends (fun _ _ b => b.finish) b dst' n := by
  simp only [finish, bind_eq_ok_iff, ensure_eq_ok_iff] at hrun
  obtain ⟨_, hsome, ⟨flushed, b₁⟩, hflush, hrun⟩ := hrun
  cases flushed with
  | error e => simp at hrun
  | ok u =>
      simp only [bind_eq_ok_iff] at hrun
      obtain ⟨⟨filtered, b₂⟩, hfilter, hrun⟩ := hrun
      cases filtered with
      | error e => simp at hrun
      | ok ib =>
          simp only at hrun
          rcases hmeta : b₂.writeBlock ib.finish b.opt.compressionType with ⟨e | metaHandle, b₃⟩
          · simp [hmeta] at hrun
          · simp only [hmeta, bind_eq_ok_iff, unwrap_eq_ok_iff] at hrun
            obtain ⟨index, hindex, hrun⟩ := hrun
            rcases hlast : ({ b₃ with indexBlock := none } : TableBuilder Dst).writeBlock index.finish
              b.opt.compressionType with ⟨e | indexHandle, b₄⟩
            · simp [hlast] at hrun
            · simp only [hlast] at hrun
              obtain ⟨c₁, h₁, o₁⟩ := flushPending_follows hflush
              obtain ⟨c₂, h₂, o₂⟩ := writeFilterBlock_follows hfilter
              obtain ⟨c₃, h₃, o₃⟩ := writeBlock_follows hmeta
              obtain ⟨c₄, h₄, o₄⟩ := writeBlock_follows hlast
              obtain ⟨c₅, off, buf, ⟨d₁, d₂, k, h₅, hfooter⟩, o₅⟩ := writeFooter_ends hrun
              refine ⟨c₁ ++ (c₂ ++ (c₃ ++ (c₄ ++ c₅))), off, buf, ⟨d₁, d₂, k, ?_, hfooter⟩, ?_⟩
              · simp only [replay_append_iff]
                exact ⟨_, h₁, _, h₂, _, h₃, _, h₄, h₅⟩
              · intro D _ d d₁ d₂ d' k hreplay hwrite hflush
                simp only [replay_append_iff] at hreplay
                obtain ⟨e₁, r₁, e₂, r₂, e₃, r₃, e₄, r₄, r₅⟩ := hreplay
                have hsome' : (b.on d).dataBlock.isSome = true := hsome
                have hopt : (b.on d).opt = b.opt := rfl
                have hopt₁ : (b₁.on e₁).opt = b₁.opt := rfl
                have hindex' : (b₃.on e₃).indexBlock = some index := hindex
                have hblock := Except.ok.inj (o₃ D e₂ e₃ r₃)
                have hlast := Except.ok.inj (o₄ D e₃ e₄ r₄)
                have hnone : ({ b₃ with indexBlock := none } : TableBuilder Dst).on e₃ =
                  { b₃.on e₃ with indexBlock := none } := rfl
                rw [hnone] at hlast
                simp only [finish, hsome', ensure_of_true, hopt, o₁ D d e₁ r₁, ok_bind, hopt₁,
                  o₂ D e₁ e₂ r₂, hblock, hindex', unwrap_some, hlast]
                exact o₅ D e₄ d₁ d₂ d' k r₅ hwrite hflush

/-- Every sink without errors gets the same calls, and a footer. -/
theorem writeTable_follows {opt : Options} {dst dst' : Dst} {es : List Entry} {n : Nat}
    (hrun : writeTable opt dst es = .ok (.ok n, dst')) :
    ∃ calls off buf, (∃ d₁ d₂ k, replay dst calls = some d₁ ∧ Write.write d₁ buf = (.ok k, d₂) ∧
        Write.flush d₂ = (.ok (), dst') ∧ n = off + k) ∧
      ∀ (D : Type) [Write D] (d d₁ d₂ d' : D) (k : Nat), replay d calls = some d₁ →
        Write.write d₁ buf = (.ok k, d₂) → Write.flush d₂ = (.ok (), d') →
          writeTable opt d es = .ok (.ok (off + k), d') := by
  simp only [writeTable, bind_eq_ok_iff, Prod.exists] at hrun
  obtain ⟨added, b, hadd, hfinish⟩ := hrun
  cases added with
  | error e => simp at hfinish
  | ok u =>
      have hends : Ends (fun _ _ b => writeTable opt b.dst es) (new opt dst) dst' n := by
        refine (addAll_follows hadd).ends (finish_ends hfinish) fun D _ d d₁ hadd => ?_
        have hadd : (new opt d).addAll es = .ok (.ok (), b.on d₁) := hadd
        have hdst : ((new opt dst).on d).dst = d := rfl
        simp only [writeTable, hdst, hadd, ok_bind]
      exact hends

end TableBuilder

end SSTable
