import SSTable.Model.Types

/-!
# The block cache

A least-recently-used cache: a map from keys to elements, and a doubly linked list of the
keys in the order of their last use.  The nodes of the list live in an explicit heap; the
list's head is a node without data whose {lit}`prev` pointer designates the last node.
-/

namespace SSTable

open Foundation Foundation.Exec Foundation.Bytes

/-- The address of a node. -/
abbrev LRUHandle := Nat

/-- A list node; the head is the one without data. -/
structure LRUNode (T : Type) where
  next : Option LRUHandle
  prev : Option LRUHandle
  data : Option T

/-- A doubly linked list in a heap of nodes. -/
structure LRUList (T : Type) where
  heap : LRUHandle → Option (LRUNode T)
  /-- The address of the next node to be allocated. -/
  fresh : LRUHandle
  count : Nat

namespace LRUList

variable {T : Type}

/-- The address of the head node. -/
def head : LRUHandle := 0

/-- Read a node. -/
def read (l : LRUList T) (p : LRUHandle) : Exec (LRUNode T) :=
  match l.heap p with
  | some n => .ok n
  | none => .error .dangling

/-- Replace the contents of an address. -/
def store (l : LRUList T) (p : LRUHandle) (n : Option (LRUNode T)) : LRUList T :=
  { l with heap := fun q => if q = p then n else l.heap q }

/-- Change a node in place. -/
def modify (l : LRUList T) (p : LRUHandle) (f : LRUNode T → LRUNode T) : Exec (LRUList T) := do
  let n ← l.read p
  pure (l.store p (some (f n)))

/-- Set the {lit}`next` pointer of a node. -/
def setNext (l : LRUList T) (p : LRUHandle) (q : Option LRUHandle) : Exec (LRUList T) :=
  l.modify p fun n => { n with next := q }

/-- Set the {lit}`prev` pointer of a node. -/
def setPrev (l : LRUList T) (p : LRUHandle) (q : Option LRUHandle) : Exec (LRUList T) :=
  l.modify p fun n => { n with prev := q }

/-- Swap the {lit}`next` pointers of two nodes. -/
def swapNext (l : LRUList T) (p q : LRUHandle) : Exec (LRUList T) := do
  let np ← l.read p
  let nq ← l.read q
  let l ← l.setNext p nq.next
  l.setNext q np.next

/-- Swap the {lit}`prev` pointers of two nodes. -/
def swapPrev (l : LRUList T) (p q : LRUHandle) : Exec (LRUList T) := do
  let np ← l.read p
  let nq ← l.read q
  let l ← l.setPrev p nq.prev
  l.setPrev q np.prev

/-- Take the element out of a node and leave the node in place. -/
def takeData (l : LRUList T) (p : LRUHandle) : Exec (T × LRUList T) := do
  let n ← l.read p
  let data ← unwrap n.data
  pure (data, l.store p (some { n with data := none }))

/-- Free a node together with the nodes it owns through its {lit}`next` pointer. -/
def freeFrom (l : LRUList T) : Nat → Option LRUHandle → LRUList T
  | fuel + 1, some p =>
      match l.heap p with
      | some n => (l.store p none).freeFrom fuel n.next
      | none => l
  | _, _ => l

/-- An empty list. -/
def new : LRUList T where
  heap := fun p => if p = head then some { next := none, prev := none, data := none } else none
  fresh := 1
  count := 0

/-- Insert an element at the front. -/
def insert (l : LRUList T) (elem : T) : Exec (LRUHandle × LRUList T) := do
  let l := { l with count := l.count + 1 }
  let headNode ← l.read head
  let newp := l.fresh
  match headNode.next with
  | some first => do
      let l := { l.store newp (some { next := none, prev := some head, data := some elem }) with
        fresh := l.fresh + 1 }
      let l ← l.setPrev first (some newp)
      let l ← l.setNext newp (some first)
      let l ← l.setNext head (some newp)
      pure (newp, l)
  | none => do
      let l := { l.store newp (some { next := none, prev := some head, data := some elem }) with
        fresh := l.fresh + 1 }
      let l ← l.setPrev head (some newp)
      let l ← l.setNext head (some newp)
      pure (newp, l)

/-- Unlink and free the last node and return its element. -/
def removeLast (l : LRUList T) : Exec (Option T × LRUList T) := do
  let headNode ← l.read head
  match headNode.prev with
  | none => pure (none, l)
  | some tail => do
      let tailNode ← l.read tail
      let before ← unwrap tailNode.prev
      let beforeNode ← l.read before
      let l ← l.setNext before none
      match beforeNode.next with
      | none => pure (none, l)
      | some last => do
          let lastNode ← l.read last
          let l ← l.setPrev head lastNode.prev
          let count ← wordSub l.count 1
          pure (lastNode.data, { l.freeFrom l.fresh (some last) with count := count })

/-- Swap the {lit}`prev` pointer of a node with that of the node behind it, if there is one. -/
def swapPrevBehind (l : LRUList T) (nodeHandle : LRUHandle) : Exec (LRUList T) := do
  let node ← l.read nodeHandle
  match node.next with
  | some nextp => l.swapPrev nextp nodeHandle
  | none => pure l

/-- Swap the {lit}`next` pointer of a node with that of the node it points back to, if there is
one. -/
def swapNextBefore (l : LRUList T) (nodeHandle : LRUHandle) : Exec (LRUList T) := do
  let node ← l.read nodeHandle
  match node.prev with
  | some prevp => l.swapNext prevp nodeHandle
  | none => pure l

/-- Unlink a node and return its element. -/
def remove (l : LRUList T) (nodeHandle : LRUHandle) : Exec (T × LRUList T) := do
  let l ← l.swapPrevBehind nodeHandle
  -- A node that had one behind it points back to itself here, and is swapped with itself.
  let l ← l.swapNextBefore nodeHandle
  let count ← wordSub l.count 1
  { l with count := count }.takeData nodeHandle

/-- Make the node behind, or the head if there is none, point back to a node. -/
def setPrevBehind (l : LRUList T) (next : Option LRUHandle) (p : LRUHandle) :
    Exec (LRUList T) :=
  match next with
  | some next => l.setPrev next (some p)
  | none => l.setPrev head (some p)

/-- Link the first node to the one behind it. -/
def linkFirst (l : LRUList T) (nodeHandle : LRUHandle) : Exec (LRUList T) := do
  let node ← l.read nodeHandle
  match node.next with
  | some newnext => do
      let newnextNode ← l.read newnext
      let l ← l.setPrev nodeHandle newnextNode.prev
      l.setPrev newnext (some nodeHandle)
  | none => l.setPrev head (some nodeHandle)

/-- Move a node to the front. -/
def reinsertFront (l : LRUList T) (nodeHandle : LRUHandle) : Exec (LRUList T) := do
  let node ← l.read nodeHandle
  let prevp ← unwrap node.prev
  let l ← l.setPrevBehind node.next prevp
  -- After this swap the node owns itself.
  let l ← l.swapNext prevp nodeHandle
  let l ← l.swapNext nodeHandle head
  let l ← l.linkFirst nodeHandle
  let headNode ← l.read head
  ensure (headNode.next.isSome = true)
  ensure (headNode.prev.isSome = true)
  pure l

end LRUList

/-- The key of a cached block: a cache id and a file offset in fixed width. -/
abbrev CacheKey := Bytes

abbrev CacheID := Nat

/-- A cache with a bound on the number of its elements. -/
structure Cache (T : Type) where
  list : LRUList CacheKey
  map : List (CacheKey × T × LRUHandle)
  cap : Nat
  id : CacheID

namespace Cache

variable {T : Type}

/-- An empty cache. -/
def new (capacity : Nat) : Exec (Cache T) := do
  ensure (capacity > 0)
  pure { list := LRUList.new, map := [], cap := capacity, id := 0 }

/-- An id that partitions the cache among its users. -/
def newCacheId (c : Cache T) : Exec (CacheID × Cache T) := do
  let id ← wordAdd c.id 1
  pure (id, { c with id := id })

/-- The number of cached elements. -/
def count (c : Cache T) : Nat := c.list.count

/-- The map without a key. -/
def mapRemove (m : List (CacheKey × T × LRUHandle)) (key : CacheKey) :
    List (CacheKey × T × LRUHandle) :=
  m.filter fun e => decide (e.1 ≠ key)

/-- Make room for one more element. -/
def evict (c : Cache T) : Exec (Cache T) :=
  if c.list.count ≥ c.cap then do
    let (removed, list) ← c.list.removeLast
    match removed with
    | some removedKey => do
        ensure ((c.map.lookup removedKey).isSome = true)
        pure { c with list := list, map := mapRemove c.map removedKey }
    | none => .error .assertion
  else
    pure c

/-- Insert an element; a full cache loses its least recently used one. -/
def insert (c : Cache T) (key : CacheKey) (elem : T) : Exec (Cache T) := do
  let c ← c.evict
  let (lruHandle, list) ← c.list.insert key
  pure { c with list := list, map := (key, elem, lruHandle) :: mapRemove c.map key }

/-- Look an element up and mark it as the most recently used one. -/
def get (c : Cache T) (key : CacheKey) : Exec (Option T × Cache T) :=
  match c.map.lookup key with
  | none => pure (none, c)
  | some (elem, lruHandle) => do
      let list ← c.list.reinsertFront lruHandle
      pure (some elem, { c with list := list })

/-- Take an element out of the cache. -/
def remove (c : Cache T) (key : CacheKey) : Exec (Option T × Cache T) :=
  match c.map.lookup key with
  | none => pure (none, c)
  | some (elem, lruHandle) => do
      let (_, list) ← c.list.remove lruHandle
      pure (some elem, { c with list := list, map := mapRemove c.map key })

end Cache

end SSTable
