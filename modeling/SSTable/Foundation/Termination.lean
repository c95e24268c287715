import SSTable.Foundation.ByteString
import SSTable.Foundation.Calls

/-!
# Executions that come to an end

A loop of the model has a bound on its passes, and stops with a divergence where the bound is
reached.  An execution settles if that does not happen: it returns, or it stops with a fault that
the program itself runs into.

Main results:

- Theorem {lit}`Exec.Settles.loop`: a loop settles if every pass of it settles and decreases a
  measure that is below the bound.
- Theorem {lit}`Calls.Settles.loop`: so does a loop over programs that call a service, whatever the
  calls are answered.
- Theorem {lit}`Calls.Settles.run`: a program that settles does so on every service that answers.
-/

namespace Foundation

namespace Exec

open Bytes

variable {α β σ ρ : Type} {Q Q' : α → Prop} {x : Exec α}

/-- An execution that does not diverge, with a condition on what it returns. -/
def Settles (Q : α → Prop) : Exec α → Prop
  | .ok a => Q a
  | .error e => e ≠ .divergence

@[simp] theorem settles_ok {a : α} : Settles Q (.ok a) ↔ Q a := Iff.rfl

@[simp] theorem settles_error {e : Fault} : Settles Q (.error e) ↔ e ≠ .divergence := Iff.rfl

theorem Settles.ne (h : Settles Q x) : x ≠ .error .divergence := by
  rintro rfl
  exact h rfl

/-- Nothing more is known of an execution than that it does not diverge. -/
theorem settles_of_ne (h : x ≠ .error .divergence) : Settles (fun a => x = .ok a) x := by
  cases x with
  | ok a => rfl
  | error e =>
      rintro rfl
      exact h rfl

theorem Settles.mono (h : Settles Q x) (hQ : ∀ a, Q a → Q' a) : Settles Q' x := by
  cases x with
  | ok a => exact hQ a h
  | error e => exact h

theorem Settles.bind {f : α → Exec β} {P : β → Prop} (h : Settles Q x)
    (hf : ∀ a, Q a → Settles P (f a)) : Settles P (x >>= f) := by
  cases x with
  | ok a => exact hf a h
  | error e => exact h

/-- A condition that is checked holds afterwards. -/
theorem settles_ensure {p : Prop} [Decidable p] : Settles (fun _ => p) (ensure p) := by
  by_cases h : p
  · rw [ensure_of_true h]
    exact h
  · rw [ensure_of_false h]
    simp

theorem settles_unwrap {o : Option α} : Settles (fun a => o = some a) (unwrap o) := by
  cases o with
  | some a => rfl
  | none => simp

/-- A loop settles if its passes settle and decrease a measure that is below the bound. -/
theorem Settles.loop {f : σ → Exec (LoopStep σ ρ)} (I : σ → Prop) {Q : ρ → Prop} (m : σ → Nat)
    (hbody : ∀ s, I s → Settles (fun
      | .next s' => I s' ∧ m s' < m s
      | .done r => Q r) (f s))
    {fuel : Nat} {s : σ} (hI : I s) (hfuel : m s < fuel) : Settles Q (Exec.loop f fuel s) := by
  induction fuel generalizing s with
  | zero => exact absurd hfuel (Nat.not_lt_zero _)
  | succ fuel ih =>
      refine (hbody s hI).bind ?_
      rintro (s' | r) hstep
      · exact ih hstep.1 (by omega)
      · exact hstep

/-- So does a {lit}`while` loop. -/
theorem Settles.whileLoop {c : σ → Exec Bool} {f : σ → Exec σ} (I : σ → Prop) {Q : σ → Prop}
    (m : σ → Nat)
    (hcond : ∀ s, I s → Settles (fun more => more = false → Q s) (c s))
    (hbody : ∀ s, I s → c s = .ok true → Settles (fun s' => I s' ∧ m s' < m s) (f s))
    {fuel : Nat} {s : σ} (hI : I s) (hfuel : m s < fuel) :
    Settles Q (Exec.whileLoop c f fuel s) := by
  refine Settles.loop I m (fun s hs => ?_) hI hfuel
  have hsettles := hcond s hs
  cases hc : c s with
  | error e =>
      rw [hc] at hsettles
      exact hsettles
  | ok more =>
      rw [hc] at hsettles
      cases more with
      | true => exact (hbody s hs hc).bind fun s' hs' => hs'
      | false => exact hsettles rfl

end Exec

namespace Bytes

open Exec

/-! ## Words and slices -/

theorem settles_wordAdd (a b : Nat) : Settles (fun c => c = a + b) (wordAdd a b) := by
  unfold wordAdd
  split <;> simp

theorem settles_wordMul (a b : Nat) : Settles (fun c => c = a * b) (wordMul a b) := by
  unfold wordMul
  split <;> simp

theorem settles_wordSub (a b : Nat) : Settles (fun c => c = a - b) (wordSub a b) := by
  unfold wordSub
  split <;> simp

theorem settles_slice (b : Bytes) (i j : Nat) :
    Settles (fun c => c = (b.drop i).take (j - i) ∧ j ≤ b.length) (slice b i j) := by
  unfold slice
  split
  · rename_i h
    exact ⟨rfl, h.2⟩
  · simp

theorem settles_sliceFrom (b : Bytes) (i : Nat) :
    Settles (fun c => c = b.drop i ∧ i ≤ b.length) (sliceFrom b i) := by
  unfold sliceFrom
  split
  · rename_i h
    exact ⟨rfl, h⟩
  · simp

end Bytes

namespace Calls

open Exec

variable {ι ρ α β σ τ : Type} {A : ι → ρ → Prop} {Q Q' : α → Prop}

/-- A program that does not diverge as long as the answers to its calls satisfy a condition, with
a condition on what it returns. -/
def Settles (A : ι → ρ → Prop) (Q : α → Prop) : Calls ι ρ α → Prop
  | done a => Q a
  | stop e => e ≠ .divergence
  | call i k => ∀ r, A i r → (k r).Settles A Q

@[simp] theorem settles_pure {a : α} : Settles A Q (pure a : Calls ι ρ α) ↔ Q a := Iff.rfl

theorem Settles.bind {p : Calls ι ρ α} {f : α → Calls ι ρ β} {P : β → Prop} (hp : p.Settles A Q)
    (hf : ∀ a, Q a → (f a).Settles A P) : (p >>= f).Settles A P := by
  change (p.bind f).Settles A P
  induction p with
  | done a => exact hf a hp
  | stop e => exact hp
  | call i k ih => exact fun r hr => ih r (hp r hr)

theorem Settles.ask_bind {i : ι} {f : ρ → Calls ι ρ β} {P : β → Prop}
    (h : ∀ r, A i r → (f r).Settles A P) : (ask i >>= f).Settles A P := h

theorem Settles.mono {p : Calls ι ρ α} (hp : p.Settles A Q) (hQ : ∀ a, Q a → Q' a) :
    p.Settles A Q' := by
  induction p with
  | done a => exact hQ a hp
  | stop e => exact hp
  | call i k ih => exact fun r hr => ih r (hp r hr)

/-- A loop settles if its passes settle and decrease a measure that is below the bound. -/
theorem Settles.loop {f : τ → Calls ι ρ (LoopStep τ α)} (I : τ → Prop) (m : τ → Nat)
    (hbody : ∀ t, I t → (f t).Settles A fun
      | .next t' => I t' ∧ m t' < m t
      | .done a => Q a)
    {fuel : Nat} {t : τ} (hI : I t) (hfuel : m t < fuel) :
    (Calls.loop f fuel t).Settles A Q := by
  induction fuel generalizing t with
  | zero => exact absurd hfuel (Nat.not_lt_zero _)
  | succ fuel ih =>
      refine (hbody t hI).bind ?_
      rintro (t' | a) hstep
      · exact ih hstep.1 (by omega)
      · exact hstep

/-- A program that settles does so on every service that gives such answers. -/
theorem Settles.run {service : ι → σ → Exec (ρ × σ)}
    (hservice : ∀ i s, Exec.Settles (fun r => A i r.1) (service i s)) {p : Calls ι ρ α}
    (hp : p.Settles A Q) (s : σ) : Exec.Settles (fun r => Q r.1) (p.run service s) := by
  induction p generalizing s with
  | done a => exact hp
  | stop e => exact hp
  | call i k ih =>
      rw [Calls.run]
      exact (hservice i s).bind fun r hr => ih r.1 (hp r.1 hr) r.2

end Calls

namespace Exec

/-- What a program computes by itself, followed by the rest of the program. -/
theorem Settles.ofExec_bind {ι ρ α β : Type} {A : ι → ρ → Prop} {Q : α → Prop} {P : β → Prop}
    {x : Exec α} {f : α → Calls ι ρ β} (h : Settles Q x) (hf : ∀ a, Q a → (f a).Settles A P) :
    (Calls.ofExec x >>= f).Settles A P := by
  cases x with
  | ok a => exact hf a h
  | error e => exact h

end Exec

end Foundation
