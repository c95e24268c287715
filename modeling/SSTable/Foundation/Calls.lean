import SSTable.Foundation.Simulation

/-!
# Programs that call a service

A program computes by itself from one call of a service to the next.  The service keeps a state
that other programs change between two calls, so a call is the only thing a program does that
another one can notice.

Main results:

- Theorem {lit}`run_bind`: a composition runs its first part and then, from the state that is left,
  the second one.
- Theorem {lit}`All.bind`: what is called by a composition is called by one of its parts.
- Theorem {lit}`run_loop`: a loop over programs is a loop over their runs.
- Theorem {lit}`All.run_answers`: a service that answers every call in one way cannot be told from
  its answers.
- Theorem {lit}`Tracks.of_run`: what is known of the calls and their order, however they are
  answered.
- Theorem {lit}`exists_turn`: a program that takes turns with others comes to what it returns in one
  of its turns, and to nothing in all others.
-/

namespace Foundation

open Exec

/-- A program: it returns, faults, or calls the service and goes on with the answer. -/
inductive Calls (ι ρ α : Type) where
  | done (a : α)
  | stop (e : Fault)
  | call (i : ι) (k : ρ → Calls ι ρ α)

namespace Calls

variable {ι ρ α β γ σ τ : Type}

/-- One program after the other. -/
def bind : Calls ι ρ α → (α → Calls ι ρ β) → Calls ι ρ β
  | done a, f => f a
  | stop e, _ => stop e
  | call i k, f => call i fun r => (k r).bind f

instance : Monad (Calls ι ρ) where
  pure := done
  bind := bind

/-- A program that calls nothing. -/
def ofExec : Exec α → Calls ι ρ α
  | .ok a => done a
  | .error e => stop e

/-- A single call. -/
def ask (i : ι) : Calls ι ρ ρ := call i done

/-- Run a program on a service that nobody else calls. -/
def run (service : ι → σ → Exec (ρ × σ)) : Calls ι ρ α → σ → Exec (α × σ)
  | done a, s => pure (a, s)
  | stop e, _ => .error e
  | call i k, s => do
      let (r, s) ← service i s
      (k r).run service s

/-- What a program returns if every call is answered in the same way whenever it is made. -/
def eval (answer : ι → Exec ρ) : Calls ι ρ α → Exec α
  | done a => .ok a
  | stop e => .error e
  | call i k => do
      let r ← answer i
      (k r).eval answer

/-- The calls that a run makes, each with the state that the service is in then. -/
def made (service : ι → σ → Exec (ρ × σ)) : Calls ι ρ α → σ → List (ι × σ)
  | done _, _ => []
  | stop _, _ => []
  | call i k, s => (i, s) ::
      match service i s with
      | .ok (r, s) => (k r).made service s
      | .error _ => []

/-- Whatever the service answers, every call satisfies a condition, and so does what is returned. -/
def All (P : ι → Prop) (Q : α → Prop) : Calls ι ρ α → Prop
  | done a => Q a
  | stop _ => True
  | call i k => P i ∧ ∀ r, (k r).All P Q

/-- As long as the answers to the calls satisfy a condition, what is returned satisfies another. -/
def Ensures (A : ι → ρ → Prop) (Q : α → Prop) : Calls ι ρ α → Prop
  | done a => Q a
  | stop _ => True
  | call i k => ∀ r, A i r → (k r).Ensures A Q

/-- However the calls are answered, what is returned fits the calls that were made before. -/
def Tracks : Calls ι ρ α → (List ι → α → Prop) → Prop
  | done a, R => R [] a
  | stop _, _ => True
  | call i k, R => ∀ r, (k r).Tracks fun is a => R (i :: is) a

/-- Repeat a program until it is done. -/
def loop (f : τ → Calls ι ρ (LoopStep τ α)) : Nat → τ → Calls ι ρ α
  | 0, _ => stop .divergence
  | n + 1, t => do
      match ← f t with
      | .next t => loop f n t
      | .done a => pure a

/-! ## Runs -/

variable {service : ι → σ → Exec (ρ × σ)} {s : σ}

@[simp] theorem run_pure (a : α) : run service (pure a) s = .ok (a, s) := rfl

theorem ofExec_ok_bind (a : α) (f : α → Calls ι ρ β) : ofExec (.ok a) >>= f = f a := rfl

theorem ofExec_error_bind (e : Fault) (f : α → Calls ι ρ β) :
    ofExec (.error e) >>= f = ofExec (.error e) := rfl

@[simp] theorem run_ofExec (x : Exec α) :
    run service (ofExec x) s = x >>= fun a => pure (a, s) := by
  cases x with
  | ok a => rfl
  | error e => rfl

@[simp] theorem made_ofExec (x : Exec α) : (ofExec x).made service s = [] := by
  cases x with
  | ok a => rfl
  | error e => rfl

theorem made_ask_bind (i : ι) (f : ρ → Calls ι ρ β) : (ask i >>= f).made service s =
    (i, s) :: match service i s with
      | .ok (r, s) => (f r).made service s
      | .error _ => [] := by
  change (call i fun r => f r).made service s = _
  rw [made]

@[simp] theorem eval_ofExec (answer : ι → Exec ρ) (x : Exec α) : (ofExec x).eval answer = x := by
  cases x with
  | ok a => rfl
  | error e => rfl

@[simp] theorem run_ask (i : ι) : run service (ask i) s = service i s := by
  cases h : service i s with
  | ok r => simp [ask, run, h]
  | error e => simp [ask, run, h]

/-- A composition runs its parts one after the other. -/
@[simp] theorem run_bind (p : Calls ι ρ α) (f : α → Calls ι ρ β) :
    run service (p >>= f) s = run service p s >>= fun r => run service (f r.1) r.2 := by
  change run service (p.bind f) s = _
  induction p generalizing s with
  | done a => rfl
  | stop e => rfl
  | call i k ih =>
      cases h : service i s with
      | ok r => simp [bind, run, h, ih]
      | error e => simp [bind, run, h]

/-- Services that answer the calls of a run in the same way cannot be told apart by it. -/
theorem run_congr {service' : ι → σ → Exec (ρ × σ)} {p : Calls ι ρ α}
    (hmade : ∀ x ∈ p.made service s, service x.1 x.2 = service' x.1 x.2) :
    p.run service s = p.run service' s := by
  induction p generalizing s with
  | done a => rfl
  | stop e => rfl
  | call i k ih =>
      have hfirst : service i s = service' i s := hmade (i, s) (by simp [made])
      rw [run, run, ← hfirst]
      cases hcall : service i s with
      | error e => rfl
      | ok r =>
          refine ih r.1 fun x hx => hmade x ?_
          rw [made, hcall]
          exact List.mem_cons_of_mem _ hx

/-- What a pass of a loop decides, put together with the state that is left. -/
def packStep (place : τ → β) (pack : α → σ → γ) : LoopStep τ α × σ → LoopStep (β × σ) γ
  | (.next t, s) => .next (place t, s)
  | (.done a, s) => .done (pack a s)

/-- A loop over programs is a loop over their runs. -/
theorem run_loop {f : τ → Calls ι ρ (LoopStep τ α)} {g : β × σ → Exec (LoopStep (β × σ) γ)}
    (place : τ → β) (pack : α → σ → γ)
    (hbody : ∀ t s, g (place t, s) =
      run service (f t) s >>= fun r => pure (packStep place pack r))
    (n : Nat) (t : τ) :
    Exec.loop g n (place t, s) = run service (loop f n t) s >>= fun r => pure (pack r.1 r.2) := by
  induction n generalizing t s with
  | zero => rfl
  | succ n ih =>
      rw [loop, run_bind, Exec.loop, hbody]
      cases run service (f t) s with
      | error e => rfl
      | ok r =>
          obtain ⟨step, s⟩ := r
          cases step with
          | next t => exact ih t
          | done a => rfl

/-! ## Everything that is called -/

variable {P : ι → Prop} {Q Q' : α → Prop}

@[simp] theorem all_pure {a : α} : All P Q (pure a : Calls ι ρ α) ↔ Q a := Iff.rfl

/-- What is called by a composition is called by one of its parts. -/
theorem All.bind {p : Calls ι ρ α} {f : α → Calls ι ρ β} {Q' : β → Prop} (hp : p.All P Q)
    (hf : ∀ a, Q a → (f a).All P Q') : (p >>= f).All P Q' := by
  change (p.bind f).All P Q'
  induction p with
  | done a => exact hf a hp
  | stop e => trivial
  | call i k ih => exact ⟨hp.1, fun r => ih r (hp.2 r)⟩

theorem all_exec_bind {x : Exec α} {f : α → Calls ι ρ β} {Q : β → Prop}
    (h : ∀ a, x = .ok a → (f a).All P Q) : (ofExec x >>= f).All P Q := by
  cases x with
  | ok a => exact h a rfl
  | error e => trivial

theorem all_ask_bind {i : ι} {f : ρ → Calls ι ρ β} {Q : β → Prop} (hi : P i)
    (h : ∀ r, (f r).All P Q) : (ask i >>= f).All P Q :=
  ⟨hi, h⟩

theorem All.mono {p : Calls ι ρ α} (hp : p.All P Q) (hQ : ∀ a, Q a → Q' a) : p.All P Q' := by
  induction p with
  | done a => exact hQ a hp
  | stop e => trivial
  | call i k ih => exact ⟨hp.1, fun r => ih r (hp.2 r)⟩

/-- An invariant of a loop. -/
theorem All.loop {f : τ → Calls ι ρ (LoopStep τ α)} (I : τ → Prop)
    (hf : ∀ t, I t → (f t).All P fun
      | .next t => I t
      | .done a => Q a) (n : Nat) {t : τ} (ht : I t) : (loop f n t).All P Q := by
  induction n generalizing t with
  | zero => trivial
  | succ n ih =>
      refine (hf t ht).bind ?_
      rintro (t' | a) hstep
      · exact ih hstep
      · exact hstep

/-- The calls that are made are among those that may be made. -/
theorem All.of_mem_made {p : Calls ι ρ α} (hp : p.All P Q) {x : ι × σ} (hx : x ∈ p.made service s) :
    P x.1 := by
  induction p generalizing s with
  | done a => simp [made] at hx
  | stop e => simp [made] at hx
  | call i k ih =>
      rw [made] at hx
      rcases List.mem_cons.mp hx with rfl | hx
      · exact hp.1
      · cases hcall : service i s with
        | error e => simp [hcall] at hx
        | ok r =>
            rw [hcall] at hx
            exact ih r.1 (hp.2 r.1) hx

/-- What is returned satisfies what is known of it. -/
theorem All.of_eval {answer : ι → Exec ρ} {p : Calls ι ρ α} (hp : p.All P Q) {a : α}
    (ha : p.eval answer = .ok a) : Q a := by
  induction p with
  | done b => exact Except.ok.inj ha ▸ hp
  | stop e => cases ha
  | call i k ih =>
      rw [eval, bind_eq_ok_iff] at ha
      obtain ⟨r, -, hrest⟩ := ha
      exact ih r (hp.2 r) hrest

/-- So does what a run returns. -/
theorem All.of_run {p : Calls ι ρ α} (hp : p.All P Q) {a : α} {s' : σ}
    (hrun : p.run service s = .ok (a, s')) : Q a := by
  induction p generalizing s with
  | done b =>
      simp only [run, pure_eq_ok, Except.ok.injEq, Prod.mk.injEq] at hrun
      exact hrun.1 ▸ hp
  | stop e => cases hrun
  | call i k ih =>
      rw [run, bind_eq_ok_iff] at hrun
      obtain ⟨⟨r, s₁⟩, -, hrest⟩ := hrun
      exact ih r (hp.2 r) hrest

/-! ## The calls in their order -/

section

variable {R R' : List ι → α → Prop}

@[simp] theorem tracks_pure {a : α} : Tracks (pure a : Calls ι ρ α) R ↔ R [] a := Iff.rfl

theorem Tracks.mono {p : Calls ι ρ α} (hp : p.Tracks R) (hR : ∀ is a, R is a → R' is a) :
    p.Tracks R' := by
  induction p generalizing R R' with
  | done a => exact hR [] a hp
  | stop e => trivial
  | call i k ih => exact fun r => ih r (hp r) fun is a => hR (i :: is) a

/-- The calls of a composition are those of its parts, one after the other. -/
theorem Tracks.bind {p : Calls ι ρ α} {f : α → Calls ι ρ β} {S : List ι → β → Prop}
    (hp : p.Tracks R) (hf : ∀ is a, R is a → (f a).Tracks fun js b => S (is ++ js) b) :
    (p >>= f).Tracks S := by
  change (p.bind f).Tracks S
  induction p generalizing R S with
  | done a => exact hf [] a hp
  | stop e => trivial
  | call i k ih => exact fun r => ih r (hp r) fun is a => hf (i :: is) a

theorem tracks_exec_bind {x : Exec α} {f : α → Calls ι ρ β} {S : List ι → β → Prop}
    (h : ∀ a, x = .ok a → (f a).Tracks S) : (ofExec x >>= f).Tracks S := by
  cases x with
  | ok a => exact h a rfl
  | error e => trivial

theorem tracks_ask_bind {i : ι} {f : ρ → Calls ι ρ β} {S : List ι → β → Prop}
    (h : ∀ r, (f r).Tracks fun is b => S (i :: is) b) : (ask i >>= f).Tracks S := h

/-- An invariant of a loop and the calls that it has made. -/
theorem Tracks.loop {f : τ → Calls ι ρ (LoopStep τ α)} (I : List ι → τ → Prop)
    (R : List ι → α → Prop)
    (hf : ∀ is t, I is t → (f t).Tracks fun
      | js, .next t => I (is ++ js) t
      | js, .done a => R (is ++ js) a) (n : Nat) {is : List ι} {t : τ} (ht : I is t) :
    (loop f n t).Tracks fun js a => R (is ++ js) a := by
  induction n generalizing is t with
  | zero => trivial
  | succ n ih =>
      refine (hf is t ht).bind ?_
      rintro js (t' | a) hstep
      · simpa only [List.append_assoc] using ih hstep
      · simpa only [tracks_pure, List.append_nil] using hstep

/-- A run that returns has made the calls that fit what it returns. -/
theorem Tracks.of_run {p : Calls ι ρ α} (hp : p.Tracks R) {a : α} {s' : σ}
    (hrun : p.run service s = .ok (a, s')) : R ((p.made service s).map Prod.fst) a := by
  induction p generalizing R s with
  | done b =>
      simp only [run, pure_eq_ok, Except.ok.injEq, Prod.mk.injEq] at hrun
      exact hrun.1 ▸ hp
  | stop e => cases hrun
  | call i k ih =>
      rw [run, bind_eq_ok_iff] at hrun
      obtain ⟨⟨r, s₁⟩, hcall, hrest⟩ := hrun
      rw [made, hcall]
      exact ih r (hp r) hrest

end

/-! ## What is returned under a condition on the answers -/

section

variable {A : ι → ρ → Prop}

@[simp] theorem ensures_pure {a : α} : Ensures A Q (pure a : Calls ι ρ α) ↔ Q a := Iff.rfl

theorem Ensures.bind {p : Calls ι ρ α} {f : α → Calls ι ρ β} {Q' : β → Prop} (hp : p.Ensures A Q)
    (hf : ∀ a, Q a → (f a).Ensures A Q') : (p >>= f).Ensures A Q' := by
  change (p.bind f).Ensures A Q'
  induction p with
  | done a => exact hf a hp
  | stop e => trivial
  | call i k ih => exact fun r hr => ih r (hp r hr)

theorem ensures_exec_bind {x : Exec α} {f : α → Calls ι ρ β} {Q : β → Prop}
    (h : ∀ a, x = .ok a → (f a).Ensures A Q) : (ofExec x >>= f).Ensures A Q := by
  cases x with
  | ok a => exact h a rfl
  | error e => trivial

theorem ensures_ask_bind {i : ι} {f : ρ → Calls ι ρ β} {Q : β → Prop}
    (h : ∀ r, A i r → (f r).Ensures A Q) : (ask i >>= f).Ensures A Q := h

theorem Ensures.mono {p : Calls ι ρ α} (hp : p.Ensures A Q) (hQ : ∀ a, Q a → Q' a) :
    p.Ensures A Q' := by
  induction p with
  | done a => exact hQ a hp
  | stop e => trivial
  | call i k ih => exact fun r hr => ih r (hp r hr)

theorem ensures_of_forall (hQ : ∀ a, Q a) (p : Calls ι ρ α) : p.Ensures A Q := by
  induction p with
  | done a => exact hQ a
  | stop e => trivial
  | call i k ih => exact fun r _ => ih r

/-- An invariant of a loop. -/
theorem Ensures.loop {f : τ → Calls ι ρ (LoopStep τ α)} (I : τ → Prop)
    (hf : ∀ t, I t → (f t).Ensures A fun
      | .next t => I t
      | .done a => Q a) (n : Nat) {t : τ} (ht : I t) : (loop f n t).Ensures A Q := by
  induction n generalizing t with
  | zero => trivial
  | succ n ih =>
      refine (hf t ht).bind ?_
      rintro (t' | a) hstep
      · exact ih hstep
      · exact hstep

theorem Ensures.of_eval {answer : ι → Exec ρ} (hanswer : ∀ i r, answer i = .ok r → A i r)
    {p : Calls ι ρ α} (hp : p.Ensures A Q) {a : α} (ha : p.eval answer = .ok a) : Q a := by
  induction p with
  | done b => exact Except.ok.inj ha ▸ hp
  | stop e => cases ha
  | call i k ih =>
      rw [eval, bind_eq_ok_iff] at ha
      obtain ⟨r, hr, hrest⟩ := ha
      exact ih r (hp r (hanswer i r hr)) hrest

end

/-! ## Programs that take turns -/

/-- What a program comes to in its turn with the given number.  A turn answers a call, and the last
one returns or faults. -/
def turn (answer : ι → Exec ρ) : Calls ι ρ α → Nat → Option (Exec α)
  | done a, 0 => some (.ok a)
  | done _, _ + 1 => none
  | stop e, 0 => some (.error e)
  | stop _, _ + 1 => none
  | call i k, n =>
      match answer i, n with
      | .ok _, 0 => none
      | .ok r, n + 1 => (k r).turn answer n
      | .error e, 0 => some (.error e)
      | .error _, _ + 1 => none

section

variable {answer : ι → Exec ρ}

@[simp] theorem eval_pure (a : α) : (pure a : Calls ι ρ α).eval answer = .ok a := rfl

theorem eval_bind (p : Calls ι ρ α) (f : α → Calls ι ρ β) :
    (p >>= f).eval answer = p.eval answer >>= fun a => (f a).eval answer := by
  change (p.bind f).eval answer = _
  induction p with
  | done a => rfl
  | stop e => rfl
  | call i k ih =>
      cases h : answer i with
      | ok r => simp [bind, eval, h, ih]
      | error e => simp [bind, eval, h]

theorem turn_call_succ {i : ι} {r : ρ} (h : answer i = .ok r) (k : ρ → Calls ι ρ α) (n : Nat) :
    (call i k).turn answer (n + 1) = (k r).turn answer n := by
  simp [turn, h]

/-- A program comes to what it returns in exactly one of its turns. -/
theorem exists_turn (p : Calls ι ρ α) :
    ∃ n, ∀ m, p.turn answer m = if m = n then some (p.eval answer) else none := by
  have hfirst : ∀ (q : Calls ι ρ α) (x : Exec α), q.turn answer 0 = some x →
      (∀ m, q.turn answer (m + 1) = none) →
      ∃ n, ∀ m, q.turn answer m = if m = n then some x else none := by
    intro q x hzero hsucc
    refine ⟨0, fun m => ?_⟩
    cases m with
    | zero => simpa using hzero
    | succ m => simpa using hsucc m
  induction p with
  | done a => exact hfirst _ _ rfl fun _ => rfl
  | stop e => exact hfirst _ _ rfl fun _ => rfl
  | call i k ih =>
      cases h : answer i with
      | error e =>
          have heval : (call i k).eval answer = .error e := by simp [eval, h]
          rw [heval]
          exact hfirst _ _ (by simp [turn, h]) fun _ => by simp [turn, h]
      | ok r =>
          obtain ⟨n, hn⟩ := ih r
          have heval : (call i k).eval answer = (k r).eval answer := by simp [eval, h]
          refine ⟨n + 1, fun m => ?_⟩
          cases m with
          | zero => simp [turn, h]
          | succ m => simp only [turn_call_succ h, hn m, heval, Nat.add_right_cancel_iff]

end

/-! ## Services that answer in one way -/

/-- A call gives the answer, or faults with it, and keeps an invariant of the service. -/
def Answers (I : σ → Prop) (x : Exec (α × σ)) : Exec α → Prop
  | .ok a => ∃ s, x = .ok (a, s) ∧ I s
  | .error e => x = .error e

theorem Answers.map_fst {I : σ → Prop} {x : Exec (α × σ)} {a : Exec α} (h : Answers I x a) :
    x.map Prod.fst = a := by
  cases a with
  | ok a =>
      obtain ⟨s, rfl, -⟩ := h
      rfl
  | error e =>
      rw [show x = .error e from h]
      rfl

/-- If every call that a program may make gives its answer, the program returns what the answers
make it return. -/
theorem All.run_answers {answer : ι → Exec ρ} {I : σ → Prop}
    (hservice : ∀ i s, P i → I s → Answers I (service i s) (answer i)) {p : Calls ι ρ α}
    (hp : p.All P Q) (hs : I s) : Answers I (p.run service s) (p.eval answer) := by
  induction p generalizing s with
  | done a => exact ⟨s, rfl, hs⟩
  | stop e => rfl
  | call i k ih =>
      have hfirst := hservice i s hp.1 hs
      rw [eval, run]
      cases hanswer : answer i with
      | error e =>
          rw [hanswer] at hfirst
          rw [show service i s = .error e from hfirst]
          rfl
      | ok r =>
          rw [hanswer] at hfirst
          obtain ⟨s', hcall, hs'⟩ := hfirst
          rw [hcall]
          exact ih r (hp.2 r) hs'

end Calls

end Foundation
