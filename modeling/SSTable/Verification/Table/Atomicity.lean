import SSTable.Verification.Table.Locking

/-!
# Calls that happen at once

The reads of a call are interleaved with those of all other calls, and the cache changes between
them.  The call shows nonetheless what the function shows that runs to its end in the moment it is
called, and leaves the iterator it was lent as that function leaves it.

Main results:

- Theorem {lit}`LockedTables.step_turn`: in its turn, a call shows what its program comes to.
- Theorem {lit}`LockedTables.Lends.step`: no two calls are lent one iterator.
- Theorem {lit}`calls_atomic`: every call shows in one of its turns what it shows at once, and
  nothing in all others.
-/

namespace SSTable

open Foundation Foundation.Exec Foundation.Bytes Foundation.Calls

/-- A turn of a call. -/
def SharedOp.works (k : Nat) : SharedOp → Bool
  | .work k' => k' = k
  | _ => false

section

variable [Crates]

/-! ## What a call shows at once -/

namespace Outcome

/-- What the users see of an outcome. -/
def shown : Outcome → Exec Shown
  | found r => pure (.found r)
  | moved _ m it => do
      let entry ← it.current
      pure (.moved
        { moved := m, valid := it.valid, current := entry, currentKey := it.currentKey })

/-- The iterator that an outcome gives back. -/
def left : Outcome → Option TableIterator
  | found _ => none
  | moved _ _ it => some it

/-- The number of that iterator. -/
def target : Outcome → Option Nat
  | found _ => none
  | moved j _ _ => some j

end Outcome

namespace LockedTables

/-- What a call shows and leaves that runs to its end in the moment it is called. -/
def atOnce (s : LockedTables) : SharedOp → Option (Exec (Shown × Option TableIterator))
  | .get i key =>
      match s.tables[i]? with
      | some t => some do
          let (r, _) ← t.get key s.lock.cache
          pure (.found r, none)
      | none => none
  | .move j op =>
      match s.iters[j]? with
      | some (some it) => some do
          let (o, it, _) ← TableIterator.step (it, s.lock.cache) op
          pure (.moved o, some it)
      | _ => none
  | _ => none

/-- What a call comes to in one of the turns it has left. -/
def turn (s : LockedTables) (k n : Nat) : Option (Exec Outcome) :=
  s.calls[k]?.join.bind fun p => p.turn storedRead n

/-- What a step does to the calls and the iterators. -/
inductive Changes (s s' : LockedTables) : SharedOp → Prop
  | idle {op : SharedOp} (hcalls : s'.calls = s.calls) (hiters : s'.iters = s.iters) :
      Changes s s' op
  | iterates {i : Nat} {it : TableIterator} (hcalls : s'.calls = s.calls)
      (hiters : s'.iters = s.iters ++ [some it]) : Changes s s' (.iterate i)
  | gets {i : Nat} {key : Bytes} {p : BlockReads Outcome} (hcalls : s'.calls = s.calls ++ [some p])
      (hiters : s'.iters = s.iters) (hp : p.Ensures (fun _ _ => True) fun out => out.target = none) :
      Changes s s' (.get i key)
  | lends {j : Nat} {op : TableOp} {it : TableIterator} {p : BlockReads Outcome}
      (hj : s.iters[j]? = some (some it)) (hcalls : s'.calls = s.calls ++ [some p])
      (hiters : s'.iters = s.iters.set j none)
      (hp : p.Ensures (fun _ _ => True) fun out => out.target = some j) : Changes s s' (.move j op)
  | asks {k : Nat} {i : Table × BlockHandle} {next : Result Block → BlockReads Outcome}
      {r : Result Block} (hk : s.calls[k]? = some (some (.call i next)))
      (hcalls : s'.calls = s.calls.set k (some (next r))) (hiters : s'.iters = s.iters) :
      Changes s s' (.work k)
  | ends {k : Nat} {p : BlockReads Outcome} (hk : s.calls[k]? = some (some p))
      (hcalls : s'.calls = s.calls.set k none) (hiters : s'.iters = s.iters) :
      Changes s s' (.work k)
  | returns {k j : Nat} {moved : Option Bool} {it : TableIterator}
      (hk : s.calls[k]? = some (some (.done (.moved j moved it))))
      (hcalls : s'.calls = s.calls.set k none) (hiters : s'.iters = s.iters.set j (some it)) :
      Changes s s' (.work k)

variable {cap k : Nat} {s s' : LockedTables} {op : SharedOp}

theorem changes_step (read : BlockRead) (s : LockedTables) (op : SharedOp) :
    Changes s (s.step read op).2 op := by
  unfold step
  cases op with
  | openTable opt file size =>
      dsimp only
      rcases Table.newLocked opt file size s.lock with ⟨e | e | t, lock⟩
      · exact .idle rfl rfl
      · exact .idle rfl rfl
      · exact .idle rfl rfl
  | cloneTable i =>
      dsimp only
      cases s.tables[i]? with
      | none => exact .idle rfl rfl
      | some t => exact .idle rfl rfl
  | iterate i =>
      dsimp only
      cases s.tables[i]? with
      | none => exact .idle rfl rfl
      | some t =>
          dsimp only
          cases t.iter with
          | error e => exact .idle rfl rfl
          | ok it => exact .iterates rfl rfl
  | get i key =>
      dsimp only
      cases s.tables[i]? with
      | none => exact .idle rfl rfl
      | some t =>
          exact .gets rfl rfl ((ensures_of_forall (fun _ => trivial) _).bind fun _ _ => rfl)
  | move j op =>
      dsimp only
      rcases hj : s.iters[j]? with _ | _ | it
      · exact .idle rfl rfl
      · exact .idle rfl rfl
      · exact .lends hj rfl rfl ((ensures_of_forall (fun _ => trivial) _).bind fun _ _ => rfl)
  | work k =>
      dsimp only
      rcases hk : s.calls[k]? with _ | _ | out | e | ⟨i, next⟩
      · exact .idle rfl rfl
      · exact .idle rfl rfl
      · cases out with
        | found r => exact .ends hk rfl rfl
        | moved j moved it =>
            dsimp only [finish]
            cases it.current with
            | error e => exact .ends hk rfl rfl
            | ok entry => exact .returns hk rfl rfl
      · exact .ends hk rfl rfl
      · dsimp only
        rcases s.lock.write (read i) with ⟨e | r, lock⟩
        · exact .ends hk rfl rfl
        · exact .asks hk rfl rfl

omit [Crates] in
/-- Other steps leave a call alone. -/
theorem Changes.calls_eq (h : Changes s s' op) {k : Nat} (hk : k < s.calls.length)
    (hop : op.works k = false) : s'.calls[k]? = s.calls[k]? := by
  have hset : ∀ {k' : Nat} (q : Option (BlockReads Outcome)), SharedOp.works k (.work k') = false →
      (s.calls.set k' q)[k]? = s.calls[k]? := fun q hne =>
    List.getElem?_set_ne (by simpa [SharedOp.works] using hne)
  cases h with
  | idle hcalls hiters => rw [hcalls]
  | iterates hcalls hiters => rw [hcalls]
  | gets hcalls hiters hp => rw [hcalls, List.getElem?_append_left hk]
  | lends hj hcalls hiters hp => rw [hcalls, List.getElem?_append_left hk]
  | asks hk' hcalls hiters => rw [hcalls, hset _ hop]
  | ends hk' hcalls hiters => rw [hcalls, hset _ hop]
  | returns hk' hcalls hiters => rw [hcalls, hset _ hop]

omit [Crates] in
theorem Changes.length_le (h : Changes s s' op) : s.calls.length ≤ s'.calls.length := by
  cases h with
  | idle hcalls hiters => rw [hcalls]
  | iterates hcalls hiters => rw [hcalls]
  | gets hcalls hiters hp => simp [hcalls]
  | lends hj hcalls hiters hp => simp [hcalls]
  | asks hk hcalls hiters => simp [hcalls]
  | ends hk hcalls hiters => simp [hcalls]
  | returns hk hcalls hiters => simp [hcalls]

/-! ## Turns -/

/-- A call that has ended comes to nothing any more. -/
theorem turn_of_ended (h : s'.calls = s.calls.set k none) (n : Nat) : s'.turn k n = none := by
  have hnone : s'.calls[k]?.join = none := by
    rw [h, List.getElem?_set_self']
    cases s.calls[k]? <;> rfl
  simp only [turn, hnone, Option.bind_none]

/-- In its turn, a call shows what its program comes to. -/
theorem step_turn (h : s.shared.Sound cap) (hfree : s.lock.poisoned = false) (k : Nat) :
    (s.step cachedRead (.work k)).1 =
        ((s.turn k 0).map fun x => x >>= Outcome.shown).getD (.ok .nothing) ∧
      ∀ n, (s.step cachedRead (.work k)).2.turn k n = s.turn k (n + 1) := by
  unfold step
  dsimp only
  rcases hk : s.calls[k]? with _ | _ | out | e | ⟨i, next⟩
  · simp [turn, hk]
  · simp [turn, hk]
  · have hzero : s.turn k 0 = some (.ok out) := by simp [turn, hk, Calls.turn]
    have hsucc : ∀ n, s.turn k (n + 1) = none := fun n => by simp [turn, hk, Calls.turn]
    rw [hzero]
    cases out with
    | found r =>
        refine ⟨rfl, fun n => ?_⟩
        rw [hsucc]
        exact turn_of_ended rfl n
    | moved j moved it =>
        dsimp only [finish]
        cases hcurrent : it.current with
        | error e =>
            refine ⟨by simp [Outcome.shown, hcurrent], fun n => ?_⟩
            rw [hsucc]
            exact turn_of_ended rfl n
        | ok entry =>
            refine ⟨by simp [Outcome.shown, hcurrent], fun n => ?_⟩
            rw [hsucc]
            exact turn_of_ended rfl n
  · refine ⟨by simp [turn, hk, Calls.turn], fun n => ?_⟩
    rw [show s.turn k (n + 1) = none by simp [turn, hk, Calls.turn]]
    exact turn_of_ended rfl n
  · obtain ⟨t, ht, ⟨htable, hlists⟩, -⟩ := h.calls _ (List.mem_of_getElem? hk)
    obtain ⟨t', hd⟩ := i
    obtain rfl : t' = t := htable
    have hanswer := h.serves.readBlock h.distinct ht hlists
    dsimp only
    cases hread : storedRead (t', hd) with
    | error e =>
        rw [hread] at hanswer
        have hcached : cachedRead (t', hd) s.lock.cache = .error e := hanswer
        rw [SharedCache.write_of_error hfree hcached]
        refine ⟨by simp [turn, hk, Calls.turn, hread], fun n => ?_⟩
        rw [show s.turn k (n + 1) = none by simp [turn, hk, Calls.turn, hread]]
        exact turn_of_ended rfl n
    | ok r =>
        rw [hread] at hanswer
        obtain ⟨c', hcached, -, -⟩ := hanswer
        have hcached : cachedRead (t', hd) s.lock.cache = .ok (r, c') := hcached
        rw [SharedCache.write_of_ok hfree hcached]
        have hlt := (List.getElem?_eq_some_iff.mp hk).1
        refine ⟨by simp [turn, hk, Calls.turn, hread], fun n => ?_⟩
        simp only [turn, hk, List.getElem?_set_self hlt, Option.join_some, Option.bind_some]
        exact (turn_call_succ hread next n).symm

/-! ## Iterators that are lent -/

/-- The iterators that the calls have been lent: a call gives back its own, which is away until
then, and no other call has it. -/
structure Lends (s : LockedTables) (lent : Nat → Option Nat) : Prop where
  gives : ∀ k (p : BlockReads Outcome), s.calls[k]? = some (some p) →
    p.Ensures (fun _ _ => True) fun out => out.target = lent k
  away : ∀ k p (j : Nat), s.calls[k]? = some (some p) → lent k = some j → s.iters[j]? = some none
  single : ∀ k k' p p' j, s.calls[k]? = some (some p) → s.calls[k']? = some (some p') →
    lent k = some j → lent k' = some j → k = k'

variable {lent : Nat → Option Nat}

omit [Crates] in
/-- The iterators that are away stay away. -/
theorem Lends.keep (h : s.Lends lent) (hcalls : s'.calls = s.calls)
    (hkept : ∀ j : Nat, s.iters[j]? = some none → s'.iters[j]? = some none) : s'.Lends lent where
  gives := by
    rw [hcalls]
    exact h.gives
  away := by
    rw [hcalls]
    exact fun k p j hk hj => hkept j (h.away k p j hk hj)
  single := by
    rw [hcalls]
    exact h.single

omit [Crates] in
/-- A call goes on or ends. -/
theorem Lends.set (h : s.Lends lent) {k : Nat} {p : BlockReads Outcome}
    {q : Option (BlockReads Outcome)} (hk : s.calls[k]? = some (some p))
    (hq : ∀ p', q = some p' → p'.Ensures (fun _ _ => True) fun out => out.target = lent k)
    (hcalls : s'.calls = s.calls.set k q)
    (hkept : ∀ k' p' (j : Nat), s'.calls[k']? = some (some p') → lent k' = some j →
      s'.iters[j]? = s.iters[j]?) : s'.Lends lent := by
  have hold : ∀ (k' : Nat) p', s'.calls[k']? = some (some p') → ∃ p, s.calls[k']? = some (some p) := by
    intro k' p' hp'
    rw [hcalls] at hp'
    by_cases hne : k = k'
    · exact ⟨p, hne ▸ hk⟩
    · exact ⟨p', by rwa [List.getElem?_set_ne hne] at hp'⟩
  constructor
  case gives =>
    intro k' p' hp'
    rw [hcalls] at hp'
    by_cases hne : k = k'
    · subst hne
      rw [List.getElem?_set_self (List.getElem?_eq_some_iff.mp hk).1] at hp'
      exact hq p' (Option.some.inj hp')
    · rw [List.getElem?_set_ne hne] at hp'
      exact h.gives k' p' hp'
  case away =>
    intro k' p' j hp' hj
    obtain ⟨p, hp⟩ := hold k' p' hp'
    rw [hkept k' p' j hp' hj]
    exact h.away k' p j hp hj
  case single =>
    intro k₁ k₂ p₁ p₂ j hp₁ hp₂
    obtain ⟨q₁, hq₁⟩ := hold k₁ p₁ hp₁
    obtain ⟨q₂, hq₂⟩ := hold k₂ p₂ hp₂
    exact h.single k₁ k₂ q₁ q₂ j hq₁ hq₂

omit [Crates] in
/-- A call begins. -/
theorem Lends.begin (h : s.Lends lent) {p : BlockReads Outcome} {target : Option Nat}
    (hp : p.Ensures (fun _ _ => True) fun out => out.target = target)
    (hcalls : s'.calls = s.calls ++ [some p])
    (haway : ∀ j : Nat, target = some j → s'.iters[j]? = some none ∧ s.iters[j]? ≠ some none)
    (hkept : ∀ j : Nat, s.iters[j]? = some none → s'.iters[j]? = some none) :
    s'.Lends (Function.update lent s.calls.length target) := by
  have hsplit : ∀ k p', s'.calls[k]? = some (some p') →
      (k ≠ s.calls.length ∧ s.calls[k]? = some (some p')) ∨ (k = s.calls.length ∧ p' = p) := by
    intro k p' hk
    rw [hcalls, List.getElem?_append] at hk
    split at hk
    case isTrue hlt => exact Or.inl ⟨hlt.ne, hk⟩
    case isFalse hge =>
      have heq := (List.getElem?_eq_some_iff.mp hk).1
      simp only [List.length_singleton, Nat.lt_one_iff] at heq
      rw [heq] at hk
      exact Or.inr ⟨by omega, (Option.some.inj (Option.some.inj hk)).symm⟩
  constructor
  case gives =>
    intro k p' hk
    rcases hsplit k p' hk with ⟨hne, hold⟩ | ⟨rfl, rfl⟩
    · rw [Function.update_of_ne hne]
      exact h.gives k p' hold
    · rw [Function.update_self]
      exact hp
  case away =>
    intro k p' j hk hj
    rcases hsplit k p' hk with ⟨hne, hold⟩ | ⟨rfl, rfl⟩
    · rw [Function.update_of_ne hne] at hj
      exact hkept j (h.away k p' j hold hj)
    · rw [Function.update_self] at hj
      exact (haway j hj).1
  case single =>
    intro k₁ k₂ p₁ p₂ j hk₁ hk₂ hj₁ hj₂
    rcases hsplit k₁ p₁ hk₁ with ⟨hne₁, hold₁⟩ | ⟨rfl, rfl⟩
    · rw [Function.update_of_ne hne₁] at hj₁
      rcases hsplit k₂ p₂ hk₂ with ⟨hne₂, hold₂⟩ | ⟨rfl, rfl⟩
      · rw [Function.update_of_ne hne₂] at hj₂
        exact h.single k₁ k₂ p₁ p₂ j hold₁ hold₂ hj₁ hj₂
      · rw [Function.update_self] at hj₂
        exact absurd (h.away k₁ p₁ j hold₁ hj₁) (haway j hj₂).2
    · rw [Function.update_self] at hj₁
      rcases hsplit k₂ p₂ hk₂ with ⟨hne₂, hold₂⟩ | ⟨rfl, rfl⟩
      · rw [Function.update_of_ne hne₂] at hj₂
        exact absurd (h.away k₂ p₂ j hold₂ hj₂) (haway j hj₁).2
      · rfl

omit [Crates] in
/-- No step lends an iterator that is away. -/
theorem Lends.step (h : s.Lends lent) (hchanges : Changes s s' op) : ∃ lent', s'.Lends lent' := by
  cases hchanges with
  | idle hcalls hiters => exact ⟨lent, h.keep hcalls (by rw [hiters]; exact fun _ hj => hj)⟩
  | iterates hcalls hiters =>
      refine ⟨lent, h.keep hcalls fun j hj => ?_⟩
      rw [hiters, List.getElem?_append_left (List.getElem?_eq_some_iff.mp hj).1, hj]
  | gets hcalls hiters hp =>
      refine ⟨_, h.begin hp hcalls (by simp) ?_⟩
      rw [hiters]
      exact fun j hj => hj
  | @lends j op it p hj hcalls hiters hp =>
      refine ⟨_, h.begin hp hcalls ?_ ?_⟩
      · rintro j' ⟨⟩
        rw [hiters, List.getElem?_set_self (List.getElem?_eq_some_iff.mp hj).1, hj]
        simp
      · intro j' hj'
        rw [hiters, List.getElem?_set_ne (by rintro rfl; simp [hj] at hj'), hj']
  | asks hk hcalls hiters =>
      refine ⟨lent, h.set hk ?_ hcalls fun _ _ _ _ _ => by rw [hiters]⟩
      rintro p' ⟨⟩
      exact h.gives _ _ hk _ trivial
  | ends hk hcalls hiters =>
      exact ⟨lent, h.set hk (by simp) hcalls fun _ _ _ _ _ => by rw [hiters]⟩
  | @returns k j moved it hk hcalls hiters =>
      refine ⟨lent, h.set hk (by simp) hcalls ?_⟩
      intro k' p' j' hp' hj'
      have hne : k ≠ k' := by
        rintro rfl
        rw [hcalls, List.getElem?_set_self (List.getElem?_eq_some_iff.mp hk).1] at hp'
        cases hp'
      rw [hcalls, List.getElem?_set_ne hne] at hp'
      have hown : some j = lent k := h.gives _ _ hk
      rw [hiters, List.getElem?_set_ne]
      rintro rfl
      exact hne (h.single k k' _ _ j hk hp' hown.symm hj')

omit [Crates] in
/-- An iterator at rest is changed only by those who move it. -/
theorem Lends.iter_kept (h : s.Lends lent) (hchanges : Changes s s' op) {j : Nat}
    {it : TableIterator} (hj : s.iters[j]? = some (some it)) (hop : ∀ o, op ≠ .move j o) :
    s'.iters[j]? = some (some it) := by
  cases hchanges with
  | idle hcalls hiters => rwa [hiters]
  | iterates hcalls hiters =>
      rw [hiters, List.getElem?_append_left (List.getElem?_eq_some_iff.mp hj).1, hj]
  | gets hcalls hiters hp => rwa [hiters]
  | lends hj' hcalls hiters hp =>
      rw [hiters, List.getElem?_set_ne (by rintro rfl; exact hop _ rfl), hj]
  | asks hk hcalls hiters => rwa [hiters]
  | ends hk hcalls hiters => rwa [hiters]
  | @returns k j' moved it' hk hcalls hiters =>
      have hown : some j' = lent k := h.gives _ _ hk
      have haway := h.away k _ j' hk hown.symm
      rw [hiters, List.getElem?_set_ne (by rintro rfl; simp [haway] at hj), hj]

/-! ## Runs -/

/-- The program that a step begins shows and leaves what the call shows and leaves at once. -/
theorem atOnce_spec (h : s.shared.Sound cap) {x : Exec (Shown × Option TableIterator)}
    (hx : s.atOnce op = some x) :
    ∃ p : BlockReads Outcome, (s.step cachedRead op).2.calls = s.calls ++ [some p] ∧
      (∀ j o, op = .move j o → p.Ensures (fun _ _ => True) fun out => out.target = some j) ∧
      x = p.eval storedRead >>= fun out => out.shown >>= fun w => pure (w, out.left) := by
  cases op with
  | get i key =>
      cases hi : s.tables[i]? with
      | none => simp [atOnce, hi] at hx
      | some t =>
          simp only [atOnce, hi, Option.some.injEq] at hx
          refine ⟨t.getReads key >>= fun r => pure (.found r), by simp [step, hi], by simp, ?_⟩
          have hanswers := h.serves.answers h.distinct (List.mem_of_getElem? hi)
            (t.getReads_all key)
          rw [← hx, Table.get_eq, eval_bind]
          cases heval : (t.getReads key).eval storedRead with
          | error e =>
              rw [heval] at hanswers
              rw [show Calls.run cachedRead (t.getReads key) s.lock.cache = .error e from hanswers]
              rfl
          | ok r =>
              rw [heval] at hanswers
              obtain ⟨c', hrun, -⟩ := hanswers
              rw [show Calls.run cachedRead (t.getReads key) s.lock.cache = .ok (r, c') from hrun]
              rfl
  | move j op =>
      rcases hj : s.iters[j]? with _ | _ | it
      · simp [atOnce, hj] at hx
      · simp [atOnce, hj] at hx
      · simp only [atOnce, hj, Option.some.injEq] at hx
        refine ⟨op.reads it >>= fun r => pure (.moved j r.1 r.2), by simp [step, hj], ?_, ?_⟩
        · rintro j' o ⟨⟩
          exact (ensures_of_forall (fun _ => trivial) _).bind fun _ _ => rfl
        · obtain ⟨t, ht, hbelongs⟩ := h.iters it (List.mem_of_getElem? hj)
          have hanswers := h.serves.answers h.distinct ht (op.reads_all hbelongs)
          rw [← hx, eval_bind]
          simp only [TableIterator.step, TableOp.onIter_eq]
          cases heval : (op.reads it).eval storedRead with
          | error e =>
              rw [heval] at hanswers
              rw [show Calls.run cachedRead (op.reads it) s.lock.cache = .error e from hanswers]
              rfl
          | ok r =>
              rw [heval] at hanswers
              obtain ⟨c', hrun, -⟩ := hanswers
              rw [show Calls.run cachedRead (op.reads it) s.lock.cache = .ok (r, c') from hrun]
              cases hcurrent : r.2.current with
              | error e => simp [Outcome.shown, hcurrent]
              | ok entry => simp [Outcome.shown, Outcome.left, hcurrent]
  | openTable opt file size => cases hx
  | cloneTable i => cases hx
  | iterate i => cases hx
  | work k => cases hx

/-- A lock that is not poisoned was not poisoned before. -/
theorem free_of_append {lock : SharedCache} (h : withCacheCapacity cap = .ok lock)
    {ops ops' : List SharedOp}
    (hfiles : ∀ opt file size, .openTable opt file size ∈ ops ++ ops' → Unambiguous opt file size)
    (hfree : (reached lock (ops ++ ops')).lock.poisoned = false) :
    (reached lock ops).lock.poisoned = false := by
  induction ops' using List.reverseRecOn with
  | nil => rwa [List.append_nil] at hfree
  | append_singleton ops' op ih =>
      rw [← List.append_assoc] at hfiles hfree
      have hbefore : ∀ opt file size, .openTable opt file size ∈ ops ++ ops' →
          Unambiguous opt file size :=
        fun opt file size hmem => hfiles opt file size (List.mem_append_left _ hmem)
      refine ih hbefore ?_
      cases hpoisoned : (reached lock (ops ++ ops')).lock.poisoned with
      | false => rfl
      | true =>
          rw [reached_append] at hfree
          have hstays := (step_poisoned_iff (sound_reached h _ hbefore) op).mpr (Or.inl hpoisoned)
          rw [hfree] at hstays
          cases hstays

/-- The calls of a run have been lent different iterators. -/
theorem exists_lends (lock : SharedCache) (ops : List SharedOp) :
    ∃ lent, (reached lock ops).Lends lent := by
  refine (traceOps_keeps (fun s : LockedTables => ∃ lent, s.Lends lent) (fun _ => True) ?_ ?_).2
  · rintro s op - ⟨lent, hs⟩
    exact ⟨trivial, hs.step (changes_step _ s op)⟩
  · refine ⟨fun _ => none, ?_, ?_, ?_⟩
    · simp [start]
    · simp [start]
    · simp [start]

/-- A call has the turns of its program, less those that it has had. -/
theorem turn_reached {lock : SharedCache} (h : withCacheCapacity cap = .ok lock)
    {before after : List SharedOp} {p : BlockReads Outcome}
    (hfiles : ∀ opt file size, .openTable opt file size ∈ before ++ after →
      Unambiguous opt file size)
    (hcalls : (reached lock before).calls[k]? = some (some p))
    (hfree : (reached lock (before ++ after)).lock.poisoned = false) :
    k < (reached lock (before ++ after)).calls.length ∧ ∀ n,
      (reached lock (before ++ after)).turn k n =
        p.turn storedRead (after.countP (SharedOp.works k) + n) := by
  induction after using List.reverseRecOn with
  | nil =>
      rw [List.append_nil]
      exact ⟨(List.getElem?_eq_some_iff.mp hcalls).1, fun n => by simp [turn, hcalls]⟩
  | append_singleton after op ih =>
      rw [← List.append_assoc] at hfiles hfree ⊢
      have hbefore : ∀ opt file size, .openTable opt file size ∈ before ++ after →
          Unambiguous opt file size :=
        fun opt file size hmem => hfiles opt file size (List.mem_append_left _ hmem)
      have hsound := sound_reached h _ hbefore
      have hfree' := free_of_append h hfiles hfree
      obtain ⟨hlt, hturn⟩ := ih hbefore hfree'
      have hchanges := changes_step cachedRead (reached lock (before ++ after)) op
      rw [reached_append, List.countP_append, List.countP_singleton]
      refine ⟨hlt.trans_le hchanges.length_le, fun n => ?_⟩
      cases hop : op.works k with
      | false =>
          rw [turn, hchanges.calls_eq hlt hop, ← turn, hturn]
          simp
      | true =>
          have heq : op = .work k := by
            cases op with
            | work k' => simpa [SharedOp.works] using hop
            | _ => cases hop
          rw [heq, (step_turn hsound hfree' k).2, hturn, if_pos rfl]
          congr 1
          omega

/-- A call that comes to an outcome is at its end. -/
theorem done_of_turn {out : Outcome} (h : s.turn k 0 = some (.ok out)) :
    s.calls[k]? = some (some (.done out)) := by
  unfold turn at h
  rcases hk : s.calls[k]? with _ | _ | out' | e | ⟨i, next⟩
  · simp [hk] at h
  · simp [hk] at h
  · simp only [hk, Option.join_some, Option.bind_some, Calls.turn, Option.some.injEq,
      Except.ok.injEq] at h
    rw [h]
  · simp [hk, Calls.turn] at h
  · cases hread : storedRead i with
    | ok r => simp [hk, Calls.turn, hread] at h
    | error e => simp [hk, Calls.turn, hread] at h

/-- A call that returns gives its iterator back, and nobody changes it but those who move it. -/
theorem iter_returned {lock : SharedCache} {ops rest : List SharedOp} {j : Nat} {moved : Option Bool}
    {it : TableIterator} {w : Shown}
    (hturn : (reached lock ops).turn k 0 = some (.ok (.moved j moved it)))
    (hshown : Outcome.shown (.moved j moved it) = .ok w) (hrest : ∀ o, .move j o ∉ rest) :
    (reached lock (ops ++ .work k :: rest)).iters[j]? = some (some it) := by
  have hk := done_of_turn hturn
  obtain ⟨lent, hlends⟩ := exists_lends lock ops
  have hown : some j = lent k := hlends.gives k _ hk
  have haway := hlends.away k _ j hk hown.symm
  have hback : (reached lock (ops ++ [.work k])).iters[j]? = some (some it) := by
    simp only [Outcome.shown, bind_eq_ok_iff] at hshown
    obtain ⟨entry, hcurrent, -⟩ := hshown
    rw [reached_append]
    simp only [step, hk, finish, hcurrent]
    exact List.getElem?_set_self (List.getElem?_eq_some_iff.mp haway).1
  rw [List.append_cons]
  induction rest using List.reverseRecOn with
  | nil => rwa [List.append_nil]
  | append_singleton rest op ih =>
      rw [← List.append_assoc, reached_append]
      obtain ⟨lent', hlends'⟩ := exists_lends lock (ops ++ [.work k] ++ rest)
      refine hlends'.iter_kept (changes_step _ _ op) ?_ ?_
      · exact ih fun o hmem => hrest o (List.mem_append_left _ hmem)
      · rintro o rfl
        exact hrest o (List.mem_append_right _ List.mem_cons_self)

end LockedTables

end

open LockedTables

/-- However its turns are interleaved with those of other calls, and whoever opens tables and fills
the cache between them: as long as nobody has panicked under the lock, a call shows in one of its
turns what the function shows that runs to its end in the moment of the call, and nothing in all
others; and an iterator that is moved is left, until it is moved again, as that function leaves it. -/
theorem calls_atomic [Crates] {cap : Nat} {lock : SharedCache}
    (h : withCacheCapacity cap = .ok lock) (before : List SharedOp) (op : SharedOp)
    (hbefore : ∀ opt file size, .openTable opt file size ∈ before → Unambiguous opt file size)
    {x : Exec (Shown × Option TableIterator)} (hx : (reached lock before).atOnce op = some x) :
    ∃ n, ∀ after,
      (∀ opt file size, .openTable opt file size ∈ after → Unambiguous opt file size) →
      (reached lock (before ++ op :: after)).lock.poisoned = false →
      ((reached lock (before ++ op :: after)).step cachedRead
          (.work (reached lock before).calls.length)).1 =
        (if after.countP (SharedOp.works (reached lock before).calls.length) = n then
          x.map Prod.fst
        else
          .ok .nothing) ∧
      ∀ j o shown it rest, op = .move j o → x = .ok (shown, some it) →
        after.countP (SharedOp.works (reached lock before).calls.length) = n →
        (∀ o', .move j o' ∉ rest) →
        (reached lock (before ++ op :: after ++
          .work (reached lock before).calls.length :: rest)).iters[j]? = some (some it) := by
  obtain ⟨p, hcalls, htarget, rfl⟩ := atOnce_spec (sound_reached h before hbefore) hx
  have hbegun : (reached lock (before ++ [op])).calls[(reached lock before).calls.length]? =
      some (some p) := by
    rw [reached_append, hcalls, List.getElem?_append_right le_rfl, Nat.sub_self]
    rfl
  have hnew : ∀ opt file size, op ≠ .openTable opt file size := by
    rintro opt file size rfl
    cases hx
  obtain ⟨n, hn⟩ : ∃ n, ∀ m, p.turn storedRead m =
      if m = n then some (p.eval storedRead) else none := p.exists_turn
  refine ⟨n, fun after hafter hfree => ?_⟩
  have hfiles : ∀ opt file size, .openTable opt file size ∈ before ++ [op] ++ after →
      Unambiguous opt file size := by
    intro opt file size hmem
    rcases List.mem_append.mp hmem with hmem | hmem
    · rcases List.mem_append.mp hmem with hmem | hmem
      · exact hbefore opt file size hmem
      · exact absurd (List.mem_singleton.mp hmem).symm (hnew opt file size)
    · exact hafter opt file size hmem
  rw [List.append_cons] at hfree ⊢
  obtain ⟨-, hturn⟩ := turn_reached h hfiles hbegun hfree
  have hzero := hturn 0
  rw [hn, Nat.add_zero] at hzero
  refine ⟨?_, ?_⟩
  · rw [(step_turn (sound_reached h _ hfiles) hfree _).1, hzero]
    split
    · cases p.eval storedRead with
      | error e => rfl
      | ok out =>
          simp only [Option.map_some, Option.getD_some, ok_bind]
          cases out.shown with
          | error e => rfl
          | ok w => rfl
    · rfl
  · rintro j o w it rest rfl hx' hcount hrest
    simp only [bind_eq_ok_iff, pure_eq_ok, Except.ok.injEq, Prod.mk.injEq] at hx'
    obtain ⟨out, heval, w', hshown, rfl, hleft⟩ := hx'
    have hout : out.target = some j := (htarget j o rfl).of_eval (fun _ _ _ => trivial) heval
    rw [if_pos hcount, heval] at hzero
    cases out with
    | found r => cases hout
    | moved j' moved it' =>
        obtain rfl := Option.some.inj hout
        obtain rfl := Option.some.inj hleft
        exact iter_returned hzero hshown hrest

set_option maxRecDepth 20000 in
/-- A lookup with another lookup before its first turn, and one between its first two turns. -/
theorem calls_atomic_short_block : letI := referenceCrates
    ∃ n,
      ((reached (share smallCache)
          (shortBlockOps.take 1 ++ .get 0 [97] :: [.get 0 [98], .work 1])).step
        cachedRead (.work 0)).1 =
          (if 0 = n then .ok (.found (.ok (some [1]))) else .ok .nothing) ∧
      ((reached (share smallCache)
          (shortBlockOps.take 1 ++ .get 0 [97] :: [.work 0, .get 0 [97], .work 1])).step
        cachedRead (.work 0)).1 =
          (if 1 = n then .ok (.found (.ok (some [1]))) else .ok .nothing) := by
  let := referenceCrates
  have hlock : withCacheCapacity 4 = .ok (share smallCache) := rfl
  have honce : (reached (share smallCache) (shortBlockOps.take 1)).atOnce (.get 0 [97]) =
      some (.ok (.found (.ok (some [1])), none)) := rfl
  obtain ⟨n, hshown⟩ := calls_atomic hlock (shortBlockOps.take 1) (.get 0 [97])
    (fun opt file size hmem => shortBlockOps_files opt file size
      (List.mem_append_left _ (List.mem_of_mem_take hmem))) honce
  exact ⟨n, (hshown [.get 0 [98], .work 1] (by simp) rfl).1,
    (hshown [.work 0, .get 0 [97], .work 1] (by simp) rfl).1⟩

end SSTable
