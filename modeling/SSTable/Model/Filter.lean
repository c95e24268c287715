import SSTable.Model.Types

/-!
# Filter policies

The filter policy trait, the policy that filters nothing, and the bloom filter.  Keys
reach a policy as one concatenated string with the offset at which each key starts.
-/

namespace SSTable

open Foundation Foundation.Exec Foundation.Bytes

/-- The filter policy trait. -/
structure FilterPolicy where
  name : String
  createFilter : Bytes → List Nat → Exec Bytes
  keyMayMatch : Bytes → Bytes → Exec Bool

/-- The policy of tables without filters. -/
def NoFilterPolicy : FilterPolicy where
  name := "_"
  createFilter _ _ := pure []
  keyMayMatch _ _ := pure true

/-- The key that starts at an offset: it ends where the next one starts, or with the data. -/
def offsetDataPiece (data : Bytes) (off : Nat) (later : List Nat) : Exec Bytes :=
  slice data off (later.headD data.length)

/-- Feed the keys of a concatenation to a function, one after the other. -/
def offsetDataIterate {σ : Type} (data : Bytes) (f : σ → Bytes → Exec σ) :
    List Nat → σ → Exec σ
  | [], s => pure s
  | off :: later, s => do
      let piece ← offsetDataPiece data off later
      let s ← f s piece
      offsetDataIterate data f later s

/-! ## Bloom filters -/

def bloomSeed : UInt32 := 0xbc9f1d34

/-- The parameters of a bloom filter.  The bounds on {lit}`k` are those every constructor
establishes. -/
structure BloomPolicy where
  bitsPerKey : Nat
  k : Nat
  k_pos : 1 ≤ k
  k_le : k ≤ 30

namespace BloomPolicy

/-- The number of probes is 0.69 times the bits per key, rounded down and kept between
1 and 30.  In the range that is not cut off, single-precision rounding does not reach the
next integer, so the quotient below is the number the source computes. -/
def probes (bitsPerKey : Nat) : Nat := max 1 (min 30 (bitsPerKey * 69 / 100))

/-- A policy with the given number of bits per key. -/
def new (bitsPerKey : Nat) : BloomPolicy where
  bitsPerKey := bitsPerKey
  k := probes bitsPerKey
  k_pos := by unfold probes; omega
  k_le := by unfold probes; omega

/-- Mix full words of the key into the hash and return what is left over. -/
def hashWords : Bytes → UInt32 → UInt32 × Bytes
  | a :: b :: c :: d :: rest, h =>
      let w := UInt32.ofNat (decodeFixed32 [a, b, c, d])
      let h := (h + w) * 0xc6a4a793
      hashWords rest (h ^^^ (h >>> 16))
  | rest, h => (h, rest)

/-- Add the left-over bytes to the hash, low byte first. -/
def hashTail (h : UInt32) : Bytes → UInt32 → UInt32
  | [], _ => h
  | b :: bs, shift => hashTail (h + (b.toUInt32 <<< shift)) bs (shift + 8)

/-- Mix all bytes of the key into the hash: first the words, then what is left over. -/
def hashBytes (data : Bytes) (h : UInt32) : UInt32 :=
  let (h, rest) := hashWords data h
  if rest.length > 0 then
    let h := hashTail h rest 0 * 0xc6a4a793
    h ^^^ (h >>> 24)
  else
    h

/-- The hash of a key.  It starts from the length of the key, which is multiplied in 64 bits and
then cut to 32; the multiplication overflows for very long keys. -/
def bloomHash (data : Bytes) : Exec UInt32 := do
  let product ← wordMul data.length 0xc6a4a793
  pure (hashBytes data (bloomSeed ^^^ UInt32.ofNat product))

/-- The step between the probes of a key. -/
def delta (h : UInt32) : UInt32 := (h >>> 17) ||| (h <<< 15)

/-- The bit position of a probe; a filter without bits has none. -/
def bitPos (h : UInt32) (bits : Nat) : Exec Nat :=
  if bits = 0 then .error .arithmetic else .ok (h.toNat % bits)

/-- Set one bit of a filter. -/
def setBit (filter : Bytes) (pos : Nat) : Exec Bytes :=
  match filter[pos / 8]? with
  | some byte => .ok (filter.set (pos / 8) (byte ||| (1 <<< UInt8.ofNat (pos % 8))))
  | none => .error .outOfBounds

/-- Read one bit of a filter. -/
def testBit (filter : Bytes) (pos : Nat) : Exec Bool :=
  match filter[pos / 8]? with
  | some byte => .ok (byte &&& (1 <<< UInt8.ofNat (pos % 8)) != 0)
  | none => .error .outOfBounds

/-- Set the bits of one key, probe after probe. -/
def addProbes (bits : Nat) (d : UInt32) : Nat → UInt32 → Bytes → Exec Bytes
  | 0, _, filter => pure filter
  | n + 1, h, filter => do
      let pos ← bitPos h bits
      let filter ← setBit filter pos
      addProbes bits d n (h + d) filter

/-- Set the bits of one key. -/
def addKey (k bits : Nat) (filter key : Bytes) : Exec Bytes := do
  let h ← bloomHash key
  addProbes bits (delta h) k h filter

/-- Test the bits of one key, probe after probe. -/
def testProbes (bits : Nat) (d : UInt32) (filter : Bytes) : Nat → UInt32 → Exec Bool
  | 0, _ => pure true
  | n + 1, h => do
      let pos ← bitPos h bits
      if ← testBit filter pos then
        testProbes bits d filter n (h + d)
      else
        pure false

/-- The number of filter bytes for the given number of keys. -/
def filterLength (p : BloomPolicy) (keys : Nat) : Nat :=
  let filterBits := keys * p.bitsPerKey
  if filterBits < 64 then 8 else (filterBits + 7) / 8

/-- Build the filter of a list of keys; its last byte is the number of probes. -/
def createFilter (p : BloomPolicy) (keys : Bytes) (keyOffsets : List Nat) : Exec Bytes := do
  if keyOffsets.length * p.bitsPerKey ≥ wordLimit then
    throw .arithmetic
  let length := p.filterLength keyOffsets.length
  let adjFilterBits := asU32 (length * 8)
  let filter := List.replicate length 0 ++ [UInt8.ofNat p.k]
  offsetDataIterate keys (addKey p.k adjFilterBits) keyOffsets filter

/-- Test a key against a filter, with the number of probes the filter itself records. -/
def keyMayMatch (key filter : Bytes) : Exec Bool :=
  match filter.getLast? with
  | none => pure true
  | some k => do
      let bits := asU32 (filter.length - 1) * 8
      if bits ≥ 2 ^ 32 then
        throw .arithmetic
      if k > 30 then
        pure true
      else
        let h ← bloomHash key
        testProbes bits (delta h) filter.dropLast k.toNat h

/-- The bloom filter as a filter policy. -/
def toFilterPolicy (p : BloomPolicy) : FilterPolicy where
  name := "leveldb.BuiltinBloomFilter2"
  createFilter := p.createFilter
  keyMayMatch := keyMayMatch

example : (new 12).k = 8 := by decide
example : bloomHash [0x62] = .ok 0xef1345c4 := rfl
example : bloomHash [0xc3, 0x97] = .ok 0x5b663814 := rfl
example : bloomHash [0xe2, 0x99, 0xa5] = .ok 0x323c078f := rfl
example : bloomHash [0xe1, 0x80, 0xb9, 0x32] = .ok 0xed21633a := rfl

end BloomPolicy

end SSTable
