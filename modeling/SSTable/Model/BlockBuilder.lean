import SSTable.Model.Options

/-!
# Building blocks

Entries are stored with the prefix they share with the preceding key cut off.  Every
{lit}`blockRestartInterval` entries the whole key is stored, and the entry's offset is recorded
as a restart.
-/

namespace SSTable

open Foundation Foundation.Exec Foundation.Bytes

variable [Crates]

/-- The state of a block under construction. -/
structure BlockBuilder where
  opt : Options
  buffer : Bytes
  restarts : List Nat
  lastKey : Bytes
  restartCounter : Nat
  counter : Nat

namespace BlockBuilder

/-- An empty block. -/
def new (o : Options) : BlockBuilder where
  opt := o
  buffer := []
  restarts := [0]
  lastKey := []
  restartCounter := 0
  counter := 0

/-- The number of entries added. -/
def entries (b : BlockBuilder) : Nat := b.counter

/-- The number of bytes the finished block will have. -/
def sizeEstimate (b : BlockBuilder) : Nat := b.buffer.length + 4 * b.restarts.length + 4

/-- Append an entry, checks aside: the part of {lit}`add` that follows its assertions. -/
def push (b : BlockBuilder) (key val : Bytes) : BlockBuilder :=
  let inInterval := b.restartCounter < b.opt.blockRestartInterval
  let shared := if inInterval then commonPrefixLength b.lastKey key else 0
  let restarts := if inInterval then b.restarts else b.restarts ++ [asU32 b.buffer.length]
  let lastKey := if inInterval then b.lastKey else resize b.lastKey 0 0
  let restartCounter := if inInterval then b.restartCounter else 0
  let nonShared := key.length - shared
  { b with
    buffer := b.buffer ++ encodeVar shared ++ encodeVar nonShared ++ encodeVar val.length ++
      key.drop shared ++ val
    restarts := restarts
    lastKey := resize lastKey shared 0 ++ key.drop shared
    restartCounter := restartCounter + 1
    counter := b.counter + 1 }

/-- Add an entry; keys must arrive in strictly increasing order. -/
def add (b : BlockBuilder) (key val : Bytes) : Exec BlockBuilder := do
  ensure (b.restartCounter ≤ b.opt.blockRestartInterval)
  ensure (b.buffer = [] ∨ b.opt.cmp.cmp b.lastKey key = .lt)
  pure (b.push key val)

/-- Add a sequence of entries. -/
def addAll (b : BlockBuilder) : List Entry → Exec BlockBuilder
  | [] => pure b
  | (key, val) :: rest => do
      let b ← b.add key val
      b.addAll rest

/-- The bytes of the finished block: its entries, its restarts and their number. -/
def finish (b : BlockBuilder) : Bytes :=
  b.buffer ++ (b.restarts.map encodeFixed32).flatten ++ encodeFixed32 b.restarts.length

end BlockBuilder

end SSTable
