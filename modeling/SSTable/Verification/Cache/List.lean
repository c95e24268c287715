import SSTable.Foundation.LinkedList
import SSTable.Model.Cache

/-!
# The list behind the cache

The heap of the recency list is read as a pair of pointer functions, and every operation as
the change it makes to them.  What the list holds is the sequence of its nodes with their
elements, most recently used first.

Main results:

- Theorem {lit}`insert_spec`: an element is inserted at the front.
- Theorem {lit}`removeLast_spec`: the last element is taken out and its node is freed.
- Theorem {lit}`reinsertFront_spec`: a node anywhere in the list is moved to the front.
-/

namespace SSTable

open Foundation Foundation.Exec Foundation.Bytes Function

namespace LRUList

variable {T : Type}

/-- What the heap of a list amounts to. -/
structure Shape (T : Type) where
  next : Pointers
  prev : Pointers
  data : Address → Option T
  live : Address → Bool
  fresh : Nat
  count : Nat

/-- Read the heap of a list. -/
def shape (l : LRUList T) : Shape T where
  next p := (l.heap p).bind LRUNode.next
  prev p := (l.heap p).bind LRUNode.prev
  data p := (l.heap p).bind LRUNode.data
  live p := (l.heap p).isSome
  fresh := l.fresh
  count := l.count

variable {l : LRUList T} {p q : LRUHandle}

@[simp] theorem shape_fresh : l.shape.fresh = l.fresh := rfl

@[simp] theorem shape_count : l.shape.count = l.count := rfl

/-! ## Single nodes -/

theorem read_shape (h : l.shape.live p = true) : ∃ n, l.read p = .ok n ∧
    n.next = l.shape.next p ∧ n.prev = l.shape.prev p ∧ n.data = l.shape.data p := by
  obtain ⟨n, hn⟩ := Option.isSome_iff_exists.mp h
  exact ⟨n, by simp [read, hn], by simp [shape, hn], by simp [shape, hn], by simp [shape, hn]⟩

theorem modify_shape {f : LRUNode T → LRUNode T} (h : l.shape.live p = true) :
    ∃ n l', l.heap p = some n ∧ l.modify p f = .ok l' ∧ l'.shape = { l.shape with
      next := update l.shape.next p (f n).next
      prev := update l.shape.prev p (f n).prev
      data := update l.shape.data p (f n).data } := by
  obtain ⟨n, hn⟩ := Option.isSome_iff_exists.mp h
  refine ⟨n, l.store p (some (f n)), hn, by simp [modify, read, hn], ?_⟩
  simp only [shape, store, Shape.mk.injEq, and_true]
  refine ⟨?_, ?_, ?_, ?_⟩ <;> funext r <;> by_cases hr : r = p <;> simp [update, hr, hn]

theorem setNext_shape (h : l.shape.live p = true) (target : Option LRUHandle) :
    ∃ l', l.setNext p target = .ok l' ∧
      l'.shape = { l.shape with next := update l.shape.next p target } := by
  obtain ⟨n, l', hn, hmodify, hshape⟩ := modify_shape (f := fun n => { n with next := target }) h
  refine ⟨l', hmodify, hshape.trans ?_⟩
  have hprev : n.prev = l.shape.prev p := by simp [shape, hn]
  have hdata : n.data = l.shape.data p := by simp [shape, hn]
  simp only [hprev, hdata, update_eq_self]

theorem setPrev_shape (h : l.shape.live p = true) (target : Option LRUHandle) :
    ∃ l', l.setPrev p target = .ok l' ∧
      l'.shape = { l.shape with prev := update l.shape.prev p target } := by
  obtain ⟨n, l', hn, hmodify, hshape⟩ := modify_shape (f := fun n => { n with prev := target }) h
  refine ⟨l', hmodify, hshape.trans ?_⟩
  have hnext : n.next = l.shape.next p := by simp [shape, hn]
  have hdata : n.data = l.shape.data p := by simp [shape, hn]
  simp only [hnext, hdata, update_eq_self]

theorem swapNext_shape (hp : l.shape.live p = true) (hq : l.shape.live q = true) :
    ∃ l', l.swapNext p q = .ok l' ∧ l'.shape = { l.shape with
      next := update (update l.shape.next p (l.shape.next q)) q (l.shape.next p) } := by
  obtain ⟨np, hreadp, hnextp, -⟩ := read_shape hp
  obtain ⟨nq, hreadq, hnextq, -⟩ := read_shape hq
  obtain ⟨l₁, hset₁, hshape₁⟩ := setNext_shape hp nq.next
  obtain ⟨l₂, hset₂, hshape₂⟩ := setNext_shape (l := l₁) (p := q) (by rw [hshape₁]; exact hq)
    np.next
  refine ⟨l₂, by simp only [swapNext, hreadp, hreadq, hset₁, hset₂, ok_bind], ?_⟩
  rw [hshape₂, hshape₁, hnextp, hnextq]

/-- Allocating a node. -/
theorem alloc_shape (l : LRUList T) (n : LRUNode T) :
    ({ l.store l.fresh (some n) with fresh := l.fresh + 1 } : LRUList T).shape =
      { next := update l.shape.next l.fresh n.next
        prev := update l.shape.prev l.fresh n.prev
        data := update l.shape.data l.fresh n.data
        live := update l.shape.live l.fresh true
        fresh := l.fresh + 1
        count := l.count } := by
  simp only [shape, store, Shape.mk.injEq, and_true]
  refine ⟨?_, ?_, ?_, ?_⟩ <;> funext r <;> by_cases hr : r = l.fresh <;> simp [update, hr]

/-- Freeing a node. -/
theorem store_none_shape : (l.store p none).shape = { l.shape with
    next := update l.shape.next p none
    prev := update l.shape.prev p none
    data := update l.shape.data p none
    live := update l.shape.live p false } := by
  simp only [shape, store, Shape.mk.injEq, and_true]
  refine ⟨?_, ?_, ?_, ?_⟩ <;> funext r <;> by_cases hr : r = p <;> simp [update, hr]

/-! ## What a list holds -/

/-- The list holds the elements at the nodes, front to back. -/
structure Holds (s : Shape T) (es : List (LRUHandle × T)) : Prop where
  linked : Linked head s.next s.prev (es.map Prod.fst)
  live : ∀ p ∈ head :: es.map Prod.fst, s.live p = true
  data : ∀ e ∈ es, s.data e.1 = some e.2
  fresh : ∀ p ∈ head :: es.map Prod.fst, p < s.fresh
  count : s.count = es.length

theorem holds_new : Holds (new : LRUList T).shape [] where
  linked := .empty (by simp [shape, new])
  live := by simp [shape, new]
  data := by simp
  fresh := by simp [shape, new, head]
  count := rfl

variable {s : Shape T} {k : T} {es xs ys : List (LRUHandle × T)}

theorem Holds.live_head (h : Holds s es) : s.live head = true :=
  h.live head (by simp)

theorem Holds.live_of_mem (h : Holds s es) {e : LRUHandle × T} (he : e ∈ es) :
    s.live e.1 = true :=
  h.live e.1 (List.mem_cons_of_mem _ (List.mem_map_of_mem he))

/-- The node an insertion allocates is not yet in use. -/
theorem Holds.ne_fresh (h : Holds s es) {p : LRUHandle} (hp : p ∈ head :: es.map Prod.fst) :
    p ≠ s.fresh :=
  (h.fresh p hp).ne

/-! ## Insertion -/

/-- The heap with a new node behind the head. -/
def Shape.push (s : Shape T) (k : T) : Shape T where
  next := update (update s.next s.fresh (s.next head)) head (some s.fresh)
  prev := update (update s.prev s.fresh (some head)) ((s.next head).getD head) (some s.fresh)
  data := update s.data s.fresh (some k)
  live := update s.live s.fresh true
  fresh := s.fresh + 1
  count := s.count + 1

theorem Holds.push (h : Holds s es) (k : T) : Holds (s.push k) ((s.fresh, k) :: es) where
  linked := by
    have hnew := h.linked.pushFront fun hmem => h.ne_fresh hmem rfl
    rwa [← h.linked.segment.next_first] at hnew
  live p hp := by
    by_cases hpn : p = s.fresh
    · simp [Shape.push, hpn]
    · have hold : p ∈ head :: es.map Prod.fst := by
        simpa [hpn] using hp
      simpa [Shape.push, hpn] using h.live p hold
  data e he := by
    rcases List.mem_cons.mp he with rfl | he
    · simp [Shape.push]
    · have hne := h.ne_fresh (List.mem_cons_of_mem _ (List.mem_map_of_mem he))
      simpa [Shape.push, hne] using h.data e he
  fresh p hp := by
    by_cases hpn : p = s.fresh
    · simp [Shape.push, hpn]
    · have hold : p ∈ head :: es.map Prod.fst := by
        simpa [hpn] using hp
      exact Nat.lt_succ_of_lt (h.fresh p hold)
  count := by simp [Shape.push, h.count]

/-- An element is inserted at the front. -/
theorem insert_spec (h : Holds l.shape es) (k : T) :
    ∃ l', l.insert k = .ok (l.fresh, l') ∧ Holds l'.shape ((l.fresh, k) :: es) := by
  obtain ⟨headNode, hread, hnext, -, -⟩ :=
    read_shape (l := { l with count := l.count + 1 }) h.live_head
  have hne : head ≠ l.fresh := h.ne_fresh List.mem_cons_self
  -- Both branches allocate the same node, and link it to the node that was first or to the head.
  obtain ⟨l₁, hl₁⟩ : ∃ l₁ : LRUList T, l₁ =
    { ({ l with count := l.count + 1 } : LRUList T).store l.fresh
        (some { next := none, prev := some head, data := some k }) with fresh := l.fresh + 1 } :=
    ⟨_, rfl⟩
  have hshape₁ : l₁.shape =
      { next := update l.shape.next l.fresh none
        prev := update l.shape.prev l.fresh (some head)
        data := update l.shape.data l.fresh (some k)
        live := update l.shape.live l.fresh true
        fresh := l.fresh + 1
        count := l.count + 1 } := by
    rw [hl₁]
    exact alloc_shape { l with count := l.count + 1 } _
  have hlive₁ : ∀ p ∈ l.fresh :: head :: es.map Prod.fst, l₁.shape.live p = true := by
    intro p hp
    rw [hshape₁]
    by_cases hpn : p = l.fresh
    · simp [hpn]
    · have hold : p ∈ head :: es.map Prod.fst := by
        simpa [hpn] using hp
      simpa [hpn] using h.live p hold
  have hfirst := h.linked.segment.next_first
  have hpush := h.push k
  cases hcase : l.shape.next head with
  | none =>
      obtain ⟨l₂, hset₂, hshape₂⟩ := setPrev_shape (hlive₁ head (by simp)) (some l.fresh)
      obtain ⟨l₃, hset₃, hshape₃⟩ := setNext_shape (l := l₂) (p := head)
        (by rw [hshape₂]; exact hlive₁ head (by simp)) (some l.fresh)
      refine ⟨l₃, ?_, ?_⟩
      · have hnone : headNode.next = none := hnext.trans hcase
        simp only [insert, hread, ok_bind, hnone, ← hl₁, hset₂, hset₃, pure_eq_ok]
      · have heq : l₃.shape = l.shape.push k := by
          rw [hshape₃, hshape₂, hshape₁]
          simp [Shape.push, hcase]
        rw [heq]
        exact hpush
  | some first =>
      have hmem : first ∈ es.map Prod.fst := by
        rw [hcase] at hfirst
        exact List.mem_of_mem_head? hfirst.symm
      obtain ⟨l₂, hset₂, hshape₂⟩ := setPrev_shape
        (hlive₁ first (List.mem_cons_of_mem _ (List.mem_cons_of_mem _ hmem))) (some l.fresh)
      obtain ⟨l₃, hset₃, hshape₃⟩ := setNext_shape (l := l₂) (p := l.fresh)
        (by rw [hshape₂]; exact hlive₁ l.fresh (by simp)) (some first)
      obtain ⟨l₄, hset₄, hshape₄⟩ := setNext_shape (l := l₃) (p := head)
        (by rw [hshape₃, hshape₂]; exact hlive₁ head (by simp)) (some l.fresh)
      refine ⟨l₄, ?_, ?_⟩
      · have hsome : headNode.next = some first := hnext.trans hcase
        simp only [insert, hread, ok_bind, hsome, ← hl₁, hset₂, hset₃, hset₄, pure_eq_ok]
      · have heq : l₄.shape = l.shape.push k := by
          rw [hshape₄, hshape₃, hshape₂, hshape₁]
          simp [Shape.push, hcase]
        rw [heq]
        exact hpush

/-! ## Removal of the last element -/

theorem freeFrom_last {fuel : Nat} (hlive : l.shape.live p = true) (hnext : l.shape.next p = none)
    (hfuel : 0 < fuel) : l.freeFrom fuel (some p) = l.store p none := by
  obtain ⟨n, rfl⟩ : ∃ n, fuel = n + 1 := ⟨fuel - 1, by omega⟩
  obtain ⟨node, hnode⟩ := Option.isSome_iff_exists.mp hlive
  have hnone : node.next = none := by
    simpa [shape, hnode] using hnext
  simp only [freeFrom, hnode, hnone]

/-- The last element is taken out and its node is freed. -/
theorem removeLast_spec (h : Holds l.shape (es ++ [(p, k)])) :
    ∃ l', l.removeLast = .ok (some k, l') ∧ Holds l'.shape es := by
  have hps : (es ++ [(p, k)]).map Prod.fst = es.map Prod.fst ++ p :: [] := by simp
  have hlinked := h.linked
  rw [hps] at hlinked
  have hout := hlinked.not_mem
  rw [List.append_nil] at hout
  have htail : l.shape.prev head = some p := hlinked.prev_head p (by simp)
  have hnone : l.shape.next p = none := hlinked.segment.next_eq
  have hnext := hlinked.segment.next_front
  have hprev := hlinked.segment.prev_eq
  have hunlink := hlinked.unlink
  obtain ⟨before, hbefore⟩ : ∃ before, before = (head :: es.map Prod.fst).getLast (by simp) :=
    ⟨_, rfl⟩
  rw [← hbefore] at hnext hprev hunlink
  rw [hnone, List.head?_nil, Option.getD_none, List.append_nil] at hunlink
  have hmem : before ∈ head :: es.map Prod.fst := hbefore ▸ List.getLast_mem _
  have hlive : ∀ q ∈ head :: es.map Prod.fst, l.shape.live q = true := fun q hq =>
    h.live q (by rw [hps, ← List.cons_append]; exact List.mem_append_left _ hq)
  have hlivep : l.shape.live p = true := h.live_of_mem (e := (p, k)) (by simp)
  have hnep : p ≠ before := fun heq => hout (heq ▸ hmem)
  obtain ⟨headNode, hreadHead, -, hheadPrev, -⟩ := read_shape (hlive head (by simp))
  obtain ⟨tailNode, hreadTail, -, htailPrev, -⟩ := read_shape hlivep
  obtain ⟨beforeNode, hreadBefore, hbeforeNext, -, -⟩ := read_shape (hlive before hmem)
  obtain ⟨l₁, hset₁, hshape₁⟩ := setNext_shape (hlive before hmem) none
  obtain ⟨lastNode, hreadLast, -, hlastPrev, hlastData⟩ := read_shape (l := l₁) (p := p)
    (by rw [hshape₁]; exact hlivep)
  obtain ⟨l₂, hset₂, hshape₂⟩ := setPrev_shape (l := l₁) (p := head)
    (by rw [hshape₁]; exact hlive head (by simp)) lastNode.prev
  have hlastPrev' : lastNode.prev = some before := by
    rw [hlastPrev, hshape₁]
    exact hprev
  have hlastData' : lastNode.data = some k := by
    rw [hlastData, hshape₁]
    exact h.data (p, k) (by simp)
  rw [hlastPrev', hshape₁] at hshape₂
  have hcount : l₂.count = es.length + 1 := by
    have hold := h.count
    rw [List.length_append, List.length_singleton] at hold
    exact (congrArg Shape.count hshape₂).trans hold
  have hfresh : l₂.fresh = l.fresh := congrArg Shape.fresh hshape₂
  have hfree : l₂.freeFrom l₂.fresh (some p) = l₂.store p none := by
    refine freeFrom_last ?_ ?_ ?_
    · rw [hshape₂]
      exact hlivep
    · rw [hshape₂]
      simpa [hnep] using hnone
    · have := h.fresh head (by simp)
      rw [hfresh]
      exact Nat.lt_of_le_of_lt (Nat.zero_le _) this
  refine ⟨{ l₂.store p none with count := es.length }, ?_, ?_⟩
  · simp only [removeLast, hreadHead, ok_bind, hheadPrev.trans htail, hreadTail,
      htailPrev.trans hprev, unwrap_some, hreadBefore, hset₁, hbeforeNext.trans hnext, hreadLast,
      hset₂, hcount, wordSub_of_le (Nat.le_add_left 1 es.length), Nat.add_sub_cancel, hfree,
      hlastData', pure_eq_ok]
  · have hstore : ({ l₂.store p none with count := es.length } : LRUList T).shape =
        { l₂.shape with
          next := update l₂.shape.next p none
          prev := update l₂.shape.prev p none
          data := update l₂.shape.data p none
          live := update l₂.shape.live p false
          count := es.length } := by
      have hfreed := store_none_shape (l := l₂) (p := p)
      simp only [shape, Shape.mk.injEq] at hfreed ⊢
      tauto
    have hne : ∀ q ∈ head :: es.map Prod.fst, q ≠ p := fun q hq heq => hout (heq ▸ hq)
    rw [hstore, hshape₂]
    exact {
      linked := hunlink.congr (fun q hq => update_of_ne (hne q hq) _ _)
        fun q hq => update_of_ne (hne q hq) _ _
      live := fun q hq => (update_of_ne (hne q hq) _ _).trans (hlive q hq)
      data := fun e he => by
        have hmem' : e.1 ∈ head :: es.map Prod.fst :=
          List.mem_cons_of_mem _ (List.mem_map_of_mem he)
        exact (update_of_ne (hne e.1 hmem') _ _).trans (h.data e (by simp [he]))
      fresh := fun q hq => h.fresh q
        (by rw [hps, ← List.cons_append]; exact List.mem_append_left _ hq)
      count := rfl }

/-! ## Moving a node to the front -/

theorem setPrevBehind_shape (behind : Option LRUHandle) (q : LRUHandle)
    (h : l.shape.live (behind.getD head) = true) :
    ∃ l', l.setPrevBehind behind q = .ok l' ∧ l'.shape = { l.shape with
      prev := update l.shape.prev (behind.getD head) (some q) } := by
  cases behind with
  | none => exact setPrev_shape h (some q)
  | some behind => exact setPrev_shape h (some q)

/-- A node whose next one points back to the head, or that does so itself if it is the last, is linked
to both. -/
theorem linkFirst_shape (hp : l.shape.live p = true)
    (hfirst : l.shape.live ((l.shape.next p).getD head) = true)
    (hnone : l.shape.next p = none → l.shape.prev p = some head)
    (hsome : ∀ first, l.shape.next p = some first → l.shape.prev first = some head) :
    ∃ l', l.linkFirst p = .ok l' ∧ l'.shape = { l.shape with
      prev := update (update l.shape.prev p (some head)) ((l.shape.next p).getD head) (some p) } := by
  obtain ⟨node, hread, hnext, -, -⟩ := read_shape hp
  cases hcase : l.shape.next p with
  | none =>
      rw [hcase, Option.getD_none] at hfirst
      obtain ⟨l₁, hset₁, hshape₁⟩ := setPrev_shape hfirst (some p)
      refine ⟨l₁, ?_, ?_⟩
      · simp only [linkFirst, hread, ok_bind, hnext.trans hcase, hset₁]
      · rw [hshape₁, Option.getD_none, ← hnone hcase, update_eq_self]
  | some first =>
      rw [hcase, Option.getD_some] at hfirst
      obtain ⟨firstNode, hreadFirst, -, hfirstPrev, -⟩ := read_shape hfirst
      obtain ⟨l₁, hset₁, hshape₁⟩ := setPrev_shape hp firstNode.prev
      obtain ⟨l₂, hset₂, hshape₂⟩ := setPrev_shape (l := l₁) (p := first)
        (by rw [hshape₁]; exact hfirst) (some p)
      refine ⟨l₂, ?_, ?_⟩
      · simp only [linkFirst, hread, ok_bind, hnext.trans hcase, hreadFirst, hset₁, hset₂]
      · rw [hshape₂, hshape₁, hfirstPrev.trans (hsome first hcase), Option.getD_some]

/-- Where the order of the nodes changes and nothing else does, the pointers decide what is held. -/
theorem Holds.reorder (h : Holds s es) {es' : List (LRUHandle × T)} (hperm : es'.Perm es)
    {next prev : Pointers} (hlinked : Linked head next prev (es'.map Prod.fst)) :
    Holds { s with next := next, prev := prev } es' where
  linked := hlinked
  live q hq := h.live q (((hperm.map Prod.fst).cons head).mem_iff.mp hq)
  data e he := h.data e (hperm.mem_iff.mp he)
  fresh q hq := h.fresh q (((hperm.map Prod.fst).cons head).mem_iff.mp hq)
  count := h.count.trans hperm.length_eq.symm

/-- The head of a list that holds an element points to nodes in both directions. -/
theorem Holds.head_isSome (h : Holds s es) (hne : es ≠ []) :
    (s.next head).isSome = true ∧ (s.prev head).isSome = true := by
  have hne' : es.map Prod.fst ≠ [] := by
    rwa [Ne, List.map_eq_nil_iff]
  constructor
  · rw [h.linked.segment.next_first, List.head?_eq_some_head hne']
    rfl
  · rw [h.linked.prev_head _ (List.getLast?_eq_some_getLast hne')]
    rfl

/-- A node anywhere in the list is moved to the front. -/
theorem reinsertFront_spec (h : Holds l.shape (xs ++ (p, k) :: ys)) :
    ∃ l', l.reinsertFront p = .ok l' ∧ Holds l'.shape ((p, k) :: (xs ++ ys)) := by
  have hps : (xs ++ (p, k) :: ys).map Prod.fst = xs.map Prod.fst ++ p :: ys.map Prod.fst := by simp
  have hlinked := h.linked
  rw [hps] at hlinked
  have hout := hlinked.not_mem
  have hnext := hlinked.segment.next_eq
  have hprev := hlinked.segment.prev_eq
  have hfront := hlinked.segment.next_front
  have hunlink := hlinked.unlink
  obtain ⟨prevp, hprevp⟩ : ∃ prevp, prevp = (head :: xs.map Prod.fst).getLast (by simp) := ⟨_, rfl⟩
  rw [← hprevp] at hprev hfront hunlink
  have hmem : prevp ∈ head :: xs.map Prod.fst := hprevp ▸ List.getLast_mem _
  have hlive : ∀ q ∈ head :: xs.map Prod.fst ++ p :: ys.map Prod.fst, l.shape.live q = true :=
    fun q hq => h.live q (by rwa [hps])
  have hlivep : l.shape.live p = true := hlive p (by simp)
  have hlivePrev : l.shape.live prevp = true := hlive prevp (List.mem_append_left _ hmem)
  have hheadp : head ≠ p := fun heq => hout (by simp [heq])
  obtain ⟨other, hother⟩ : ∃ other, other = (ys.map Prod.fst).head?.getD head := ⟨_, rfl⟩
  have hmemOther : other ∈ head :: ys.map Prod.fst := by
    rw [hother]
    cases ys with
    | nil => simp
    | cons e ys => simp
  rw [← hother] at hunlink
  have hotherp : other ≠ p := by
    rintro rfl
    simp only [List.mem_cons, List.mem_append] at hmemOther hout
    tauto
  obtain ⟨node, hreadNode, hnodeNext, hnodePrev, -⟩ := read_shape hlivep
  -- The node behind, or the head if there is none, points back past the node.
  obtain ⟨l₁, hset₁, hshape₁⟩ := setPrevBehind_shape node.next prevp (l := l) (by
    rw [hnodeNext, hnext, ← hother]
    exact hlive other (by simp only [List.mem_cons, List.mem_append] at hmemOther ⊢; tauto))
  rw [hnodeNext, hnext, ← hother] at hshape₁
  -- The node in front takes over the rest, and the node goes in behind the head.
  obtain ⟨l₂, hswap₂, hshape₂⟩ := swapNext_shape (l := l₁) (p := prevp) (q := p)
    (by rw [hshape₁]; exact hlivePrev) (by rw [hshape₁]; exact hlivep)
  obtain ⟨l₃, hswap₃, hshape₃⟩ := swapNext_shape (l := l₂) (p := p) (q := head)
    (by rw [hshape₂, hshape₁]; exact hlivep) (by rw [hshape₂, hshape₁]; exact hlive head (by simp))
  obtain ⟨rest, hrest⟩ : ∃ rest, rest = update l.shape.next prevp (l.shape.next p) := ⟨_, rfl⟩
  rw [← hrest] at hunlink
  have hpush := hunlink.pushFront hout
  have hshape₃' : l₃.shape = { l.shape with
      next := update (update rest p (rest head)) head (some p)
      prev := update l.shape.prev other (some prevp) } := by
    rw [hshape₃, hshape₂, hshape₁]
    simp [← hrest, hheadp, hfront]
  have hfirst : l₃.shape.next p = (xs.map Prod.fst ++ ys.map Prod.fst).head? := by
    rw [hshape₃', ← hunlink.segment.next_first]
    simp [hheadp.symm]
  -- The node that was first, or the head if there is none, points back to the node.
  obtain ⟨l₄, hlink, hshape₄⟩ : ∃ l₄, l₃.linkFirst p = .ok l₄ ∧ l₄.shape = { l₃.shape with
      prev := update (update l₃.shape.prev p (some head)) ((l₃.shape.next p).getD head)
        (some p) } := by
    apply linkFirst_shape
    · rw [hshape₃']
      exact hlivep
    · rw [hfirst, hshape₃']
      cases hcase : (xs.map Prod.fst ++ ys.map Prod.fst).head? with
      | none => exact hlive head (by simp)
      | some first =>
          have hmemFirst := List.mem_append.mp (List.mem_of_mem_head? hcase)
          exact hlive first (by simp only [List.mem_cons, List.mem_append]; tauto)
    · intro hnone
      -- The node is the only one, so it points back to the head already.
      rw [hfirst, List.head?_eq_none_iff, List.append_eq_nil_iff] at hnone
      rw [hshape₃']
      simp only [update_of_ne hotherp.symm, hprev, hprevp, hnone.1, List.getLast_singleton]
    · intro first hsome
      rw [hshape₃']
      exact hunlink.segment.prev_first (hfirst.symm.trans hsome)
  have hholds : Holds l₄.shape ((p, k) :: (xs ++ ys)) := by
    rw [hshape₄, hfirst, hshape₃']
    apply h.reorder List.perm_middle.symm
    simpa using hpush
  obtain ⟨headNode, hreadHead, hheadNext, hheadPrev, -⟩ := read_shape hholds.live_head
  obtain ⟨hnextSome, hprevSome⟩ := hholds.head_isSome (List.cons_ne_nil _ _)
  rw [← hheadNext] at hnextSome
  rw [← hheadPrev] at hprevSome
  refine ⟨l₄, ?_, hholds⟩
  simp only [reinsertFront, hreadNode, ok_bind, hnodePrev.trans hprev, unwrap_some, hset₁, hswap₂,
    hswap₃, hlink, hreadHead, ensure_of_true hnextSome, ensure_of_true hprevSome, pure_eq_ok]

end LRUList

end SSTable
