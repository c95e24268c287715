import Mathlib.Tactic.Common

/-!
# Executions that may panic or fail to terminate

A function of a memory-safe language either returns a value or stops with a
panic.  This module fixes the small outcome monad the rest of the development
computes in, one loop combinator that covers {lit}`while`, {lit}`loop` and
{lit}`while let`, and the rules used to reason about both.

Main results:

- Theorem {lit}`bind_eq_ok_iff`: a successful sequential composition peels into
  two successful parts.
- Theorem {lit}`loop_total`: an invariant and a decreasing measure give a
  terminating loop whose result satisfies the postcondition.
- Theorem {lit}`loop_partial`: an invariant alone characterizes every result the
  loop returns.
- Theorem {lit}`loop_eq_ok_iff`: a decreasing measure makes the fuel immaterial.
-/

namespace Foundation

/-- The ways an execution can stop without returning a value.

{lit}`dangling` is a read through a pointer to freed memory.  {lit}`divergence` is the
outcome of a loop that used up its fuel, so a theorem that concludes with a returned
value also states termination. -/
inductive Fault where
  | assertion
  | unwrapNone
  | outOfBounds
  | arithmetic
  | capacity
  | dangling
  | divergence
deriving DecidableEq, Repr

/-- An execution returns a value or stops with a fault. -/
abbrev Exec (α : Type) := Except Fault α

namespace Exec

variable {α β γ σ ρ : Type}

/-- Stop unless the condition holds. -/
def ensure (p : Prop) [Decidable p] : Exec Unit :=
  if p then .ok () else .error .assertion

/-- Take the value out of an option or stop. -/
def unwrap : Option α → Exec α
  | some a => .ok a
  | none => .error .unwrapNone

/-! ## Sequential composition -/

@[simp] theorem pure_eq_ok (a : α) : (pure a : Exec α) = .ok a := rfl

@[simp] theorem ok_bind (a : α) (f : α → Exec β) :
    ((Except.ok a : Exec α) >>= f) = f a := rfl

@[simp] theorem error_bind (e : Fault) (f : α → Exec β) :
    ((Except.error e : Exec α) >>= f) = .error e := rfl

/-- A composition succeeds exactly when both of its parts do. -/
theorem bind_eq_ok_iff {x : Exec α} {f : α → Exec β} {b : β} :
    (x >>= f) = .ok b ↔ ∃ a, x = .ok a ∧ f a = .ok b := by
  cases x with
  | ok a => simp
  | error e => simp

theorem ensure_of_true {p : Prop} [Decidable p] (h : p) : ensure p = .ok () := by
  simp [ensure, h]

theorem ensure_of_false {p : Prop} [Decidable p] (h : ¬ p) :
    ensure p = .error .assertion := by
  simp [ensure, h]

@[simp] theorem ensure_eq_ok_iff {p : Prop} [Decidable p] {u : Unit} :
    ensure p = .ok u ↔ p := by
  by_cases h : p <;> simp [ensure, h]

@[simp] theorem unwrap_some (a : α) : unwrap (some a) = .ok a := rfl

@[simp] theorem unwrap_none : unwrap (none : Option α) = .error .unwrapNone := rfl

@[simp] theorem unwrap_eq_ok_iff {o : Option α} {a : α} : unwrap o = .ok a ↔ o = some a := by
  cases o <;> simp

/-! ## Loops -/

/-- What one pass through a loop body decides. -/
inductive LoopStep (σ ρ : Type) where
  | next (state : σ)
  | done (result : ρ)

/-- Run a loop body until it is done, for at most the given number of passes. -/
def loop (body : σ → Exec (LoopStep σ ρ)) : Nat → σ → Exec ρ
  | 0, _ => .error .divergence
  | fuel + 1, s => do
      match ← body s with
      | .next s' => loop body fuel s'
      | .done r => pure r

/-- A {lit}`while` loop with a condition that may itself fault. -/
def whileLoop (cond : σ → Exec Bool) (body : σ → Exec σ) (fuel : Nat) (s : σ) : Exec σ :=
  loop (fun s => do
    if ← cond s then
      let s' ← body s
      pure (.next s')
    else
      pure (.done s)) fuel s

theorem loop_zero (body : σ → Exec (LoopStep σ ρ)) (s : σ) :
    loop body 0 s = .error .divergence := rfl

theorem loop_succ (body : σ → Exec (LoopStep σ ρ)) (fuel : Nat) (s : σ) :
    loop body (fuel + 1) s = (do
      match ← body s with
      | .next s' => loop body fuel s'
      | .done r => pure r) := rfl

/-- One pass unrolled: a body that continues hands over to the remaining fuel. -/
theorem loop_succ_next {f : σ → Exec (LoopStep σ ρ)} {s s' : σ} (fuel : Nat)
    (h : f s = .ok (.next s')) : loop f (fuel + 1) s = loop f fuel s' := by
  simp [loop_succ, h]

/-- One pass unrolled: a body that is done ends the loop. -/
theorem loop_succ_done {f : σ → Exec (LoopStep σ ρ)} {s : σ} {r : ρ} (fuel : Nat)
    (h : f s = .ok (.done r)) : loop f (fuel + 1) s = .ok r := by
  simp [loop_succ, h]

/-- Total correctness: every pass from a state of the invariant either keeps the
invariant and decreases the measure, or ends with the postcondition. -/
theorem loop_total {f : σ → Exec (LoopStep σ ρ)} (I : σ → Prop) (Q : ρ → Prop)
    (m : σ → Nat)
    (hbody : ∀ s, I s →
      (∃ s', f s = .ok (.next s') ∧ I s' ∧ m s' < m s) ∨
      (∃ r, f s = .ok (.done r) ∧ Q r))
    {fuel : Nat} {s : σ} (hI : I s) (hfuel : m s < fuel) :
    ∃ r, loop f fuel s = .ok r ∧ Q r := by
  induction fuel generalizing s with
  | zero => omega
  | succ fuel ih =>
      rcases hbody s hI with ⟨s', hs', hI', hm⟩ | ⟨r, hr, hQ⟩
      · rw [loop_succ_next fuel hs']
        exact ih hI' (by omega)
      · exact ⟨r, loop_succ_done fuel hr, hQ⟩

/-- Partial correctness: whatever a loop returns satisfies the postcondition its
body establishes from the invariant. -/
theorem loop_partial {f : σ → Exec (LoopStep σ ρ)} (I : σ → Prop) (Q : ρ → Prop)
    (hnext : ∀ s s', I s → f s = .ok (.next s') → I s')
    (hdone : ∀ s r, I s → f s = .ok (.done r) → Q r)
    {fuel : Nat} {s : σ} {r : ρ} (hI : I s) (hrun : loop f fuel s = .ok r) : Q r := by
  induction fuel generalizing s with
  | zero => simp [loop_zero] at hrun
  | succ fuel ih =>
      simp only [loop_succ, bind_eq_ok_iff] at hrun
      obtain ⟨step, hstep, hrest⟩ := hrun
      cases step with
      | next s' => exact ih (hnext s s' hI hstep) hrest
      | done r' =>
          simp only [pure_eq_ok, Except.ok.injEq] at hrest
          exact hrest ▸ hdone s r' hI hstep

/-- Total correctness of a {lit}`while` loop: its condition never faults, and where it ends the
loop the postcondition holds. -/
theorem whileLoop_total {c : σ → Exec Bool} {f : σ → Exec σ} (I Q : σ → Prop)
    (m : σ → Nat)
    (hstep : ∀ s, I s → (c s = .ok false ∧ Q s) ∨
      (c s = .ok true ∧ ∃ s', f s = .ok s' ∧ I s' ∧ m s' < m s))
    {fuel : Nat} {s : σ} (hI : I s) (hfuel : m s < fuel) :
    ∃ s', whileLoop c f fuel s = .ok s' ∧ Q s' := by
  refine loop_total I Q m ?_ hI hfuel
  intro t ht
  rcases hstep t ht with ⟨hfalse, hQ⟩ | ⟨htrue, t', hbody, ht', hm⟩
  · exact Or.inr ⟨t, by simp [hfalse], hQ⟩
  · exact Or.inl ⟨t', by simp [htrue, hbody], ht', hm⟩

/-- Partial correctness of a {lit}`while` loop: the invariant holds where the condition fails. -/
theorem whileLoop_invariant {c : σ → Exec Bool} {f : σ → Exec σ} (I : σ → Prop)
    (hstep : ∀ s s', I s → c s = .ok true → f s = .ok s' → I s')
    {fuel : Nat} {s s' : σ} (hI : I s) (hrun : whileLoop c f fuel s = .ok s') :
    I s' ∧ c s' = .ok false := by
  refine loop_partial I (fun s => I s ∧ c s = .ok false) ?_ ?_ hI hrun
  · intro t t' ht hbody
    simp only [bind_eq_ok_iff] at hbody
    obtain ⟨c, hc, hrest⟩ := hbody
    cases c with
    | false => simp at hrest
    | true =>
        simp only [if_true, bind_eq_ok_iff, pure_eq_ok, Except.ok.injEq, LoopStep.next.injEq]
          at hrest
        obtain ⟨u, hu, rfl⟩ := hrest
        exact hstep t u ht hc hu
  · intro t r ht hbody
    simp only [bind_eq_ok_iff] at hbody
    obtain ⟨c, hc, hrest⟩ := hbody
    cases c with
    | false =>
        simp only [Bool.false_eq_true, if_false, pure_eq_ok, Except.ok.injEq,
          LoopStep.done.injEq] at hrest
        exact hrest ▸ ⟨ht, hc⟩
    | true => simp [bind_eq_ok_iff] at hrest

/-! ## Loops without fuel -/

/-- What a loop computes, in as many passes as it takes. -/
inductive LoopRuns (body : σ → Exec (LoopStep σ ρ)) : σ → ρ → Prop
  | done {s : σ} {r : ρ} : body s = .ok (.done r) → LoopRuns body s r
  | next {s s' : σ} {r : ρ} : body s = .ok (.next s') → LoopRuns body s' r → LoopRuns body s r

/-- What a {lit}`while` loop computes, in as many passes as it takes. -/
inductive WhileRuns (cond : σ → Exec Bool) (body : σ → Exec σ) : σ → σ → Prop
  | stop {s : σ} : cond s = .ok false → WhileRuns cond body s s
  | pass {s s' t : σ} : cond s = .ok true → body s = .ok s' → WhileRuns cond body s' t →
      WhileRuns cond body s t

/-- A loop whose measure decreases does not run out of fuel. -/
theorem loop_eq_ok_iff {body : σ → Exec (LoopStep σ ρ)} (I : σ → Prop) (m : σ → Nat)
    (hbody : ∀ s s', I s → body s = .ok (.next s') → I s' ∧ m s' < m s)
    {fuel : Nat} {s : σ} (hI : I s) (hfuel : m s < fuel) {r : ρ} :
    loop body fuel s = .ok r ↔ LoopRuns body s r := by
  constructor
  · intro hrun
    clear hfuel hI
    induction fuel generalizing s with
    | zero => cases hrun
    | succ fuel ih =>
        simp only [loop_succ, bind_eq_ok_iff] at hrun
        obtain ⟨step, hstep, hrest⟩ := hrun
        cases step with
        | next s' => exact .next hstep (ih hrest)
        | done r' =>
            simp only [pure_eq_ok, Except.ok.injEq] at hrest
            exact .done (hrest ▸ hstep)
  · intro hrun
    induction hrun generalizing fuel with
    | done hdone =>
        cases fuel with
        | zero => omega
        | succ fuel => exact loop_succ_done fuel hdone
    | next hnext _ ih =>
        obtain ⟨hI', hm⟩ := hbody _ _ hI hnext
        cases fuel with
        | zero => omega
        | succ fuel =>
            rw [loop_succ_next fuel hnext]
            exact ih hI' (by omega)

/-- A {lit}`while` loop whose measure decreases does not run out of fuel. -/
theorem whileLoop_eq_ok_iff {c : σ → Exec Bool} {f : σ → Exec σ} (I : σ → Prop) (m : σ → Nat)
    (hbody : ∀ s s', I s → c s = .ok true → f s = .ok s' → I s' ∧ m s' < m s)
    {fuel : Nat} {s t : σ} (hI : I s) (hfuel : m s < fuel) :
    whileLoop c f fuel s = .ok t ↔ WhileRuns c f s t := by
  have hnext : ∀ s s', (do
      if ← c s then
        let s' ← f s
        pure (LoopStep.next s')
      else
        pure (LoopStep.done s) : Exec (LoopStep σ σ)) = .ok (.next s') ↔
        c s = .ok true ∧ f s = .ok s' := by
    intro s s'
    cases hc : c s with
    | error e => simp
    | ok more => cases more <;> simp [bind_eq_ok_iff]
  have hdone : ∀ s r, (do
      if ← c s then
        let s' ← f s
        pure (LoopStep.next s')
      else
        pure (LoopStep.done s) : Exec (LoopStep σ σ)) = .ok (.done r) ↔ c s = .ok false ∧ s = r := by
    intro s r
    cases hc : c s with
    | error e => simp
    | ok more => cases more <;> simp [bind_eq_ok_iff]
  rw [whileLoop, loop_eq_ok_iff I m (fun s s' hI h => hbody s s' hI ((hnext s s').mp h).1
    ((hnext s s').mp h).2) hI hfuel]
  constructor
  · intro hrun
    induction hrun with
    | done h =>
        obtain ⟨hc, rfl⟩ := (hdone _ _).mp h
        exact .stop hc
    | next h _ ih =>
        obtain ⟨hc, hf⟩ := (hnext _ _).mp h
        obtain ⟨hI', hm⟩ := hbody _ _ hI hc hf
        exact .pass hc hf (ih hI' (Nat.lt_trans hm hfuel))
  · intro hrun
    clear hI hfuel
    induction hrun with
    | stop hc => exact .done ((hdone _ _).mpr ⟨hc, rfl⟩)
    | pass hc hf _ ih => exact .next ((hnext _ _).mpr ⟨hc, hf⟩) ih

end Exec

end Foundation
