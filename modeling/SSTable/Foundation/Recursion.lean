import SSTable.Foundation.Calls

/-!
# Procedures that call each other

The calls of a program may be calls of procedures that are such programs themselves.  What a
program returns then is given by a relation, and an interpreter that nests calls to a bounded depth
finds it, for as long as there is something to find.

Main results:

- Theorem {lit}`returns_iff`: a program returns a value exactly if it does so at some depth.
- Theorem {lit}`atDepth_of_forall_calls`: calls that each begin with another one of them exceed
  every depth.
-/

namespace Foundation.Calls

open Exec

variable {ι ρ α : Type}

/-- A program returns a value if its calls return theirs. -/
inductive Returns (procs : ι → Calls ι ρ ρ) : {α : Type} → Calls ι ρ α → α → Prop where
  | done {α : Type} (a : α) : Returns procs (.done a) a
  | call {α : Type} {i : ι} {k : ρ → Calls ι ρ α} {r : ρ} {a : α} :
      Returns procs (procs i) r → Returns procs (k r) a → Returns procs (.call i k) a

/-- What a procedure returns if calls can be nested no deeper than given. -/
def atDepth (procs : ι → Calls ι ρ ρ) : Nat → ι → Exec ρ
  | 0, _ => .error .divergence
  | depth + 1, i => (procs i).eval (atDepth procs depth)

section

variable {procs : ι → Calls ι ρ ρ} {i : ι} {k : ρ → Calls ι ρ α} {a b : α} {e : Fault}

@[simp] theorem returns_done_iff : Returns procs (.done a) b ↔ b = a := by
  constructor
  · intro h
    cases h
    rfl
  · intro h
    rw [h]
    exact .done a

@[simp] theorem not_returns_stop : ¬ Returns procs (.stop e : Calls ι ρ α) a := by
  intro h
  cases h

/-- A call returns what is made of the value that the procedure returns. -/
@[simp] theorem returns_call_iff :
    Returns procs (.call i k) a ↔ ∃ r, Returns procs (procs i) r ∧ Returns procs (k r) a := by
  constructor
  · intro h
    cases h with
    | call hcall hrest => exact ⟨_, hcall, hrest⟩
  · rintro ⟨r, hcall, hrest⟩
    exact .call hcall hrest

end

/-! ## Evaluating programs -/

/-- Where more calls are answered, more programs return. -/
theorem eval_mono {f g : ι → Exec ρ} (hfg : ∀ i r, f i = .ok r → g i = .ok r) {p : Calls ι ρ α}
    {a : α} (h : p.eval f = .ok a) : p.eval g = .ok a := by
  induction p with
  | done b => exact h
  | stop e => cases h
  | call i k ih =>
      rw [eval, bind_eq_ok_iff] at h ⊢
      obtain ⟨r, hcall, hrest⟩ := h
      exact ⟨r, hfg i r hcall, ih r hrest⟩

/-- Answers that are returned lead to a value that is returned. -/
theorem returns_of_eval {procs : ι → Calls ι ρ ρ} {answer : ι → Exec ρ}
    (hanswer : ∀ i r, answer i = .ok r → Returns procs (procs i) r) {p : Calls ι ρ α} {a : α}
    (h : p.eval answer = .ok a) : Returns procs p a := by
  induction p with
  | done b =>
      obtain rfl := Except.ok.inj h
      exact .done b
  | stop e => cases h
  | call i k ih =>
      rw [eval, bind_eq_ok_iff] at h
      obtain ⟨r, hcall, hrest⟩ := h
      exact .call (hanswer i r hcall) (ih r hrest)

/-! ## Depths of calls -/

variable {procs : ι → Calls ι ρ ρ}

theorem atDepth_succ (depth : Nat) (i : ι) :
    atDepth procs (depth + 1) i = (procs i).eval (atDepth procs depth) := rfl

/-- What is returned at one depth is returned at the next one. -/
theorem atDepth_of_succ {depth : Nat} {i : ι} {r : ρ} (h : atDepth procs depth i = .ok r) :
    atDepth procs (depth + 1) i = .ok r := by
  induction depth generalizing i r with
  | zero => cases h
  | succ depth ih => exact eval_mono (fun _ _ => ih) h

theorem atDepth_mono {m n : Nat} (hmn : m ≤ n) {i : ι} {r : ρ} (h : atDepth procs m i = .ok r) :
    atDepth procs n i = .ok r := by
  induction hmn with
  | refl => exact h
  | step _ ih => exact atDepth_of_succ ih

theorem returns_of_atDepth {depth : Nat} {i : ι} {r : ρ} (h : atDepth procs depth i = .ok r) :
    Returns procs (procs i) r := by
  induction depth generalizing i r with
  | zero => cases h
  | succ depth ih => exact returns_of_eval (fun _ _ => ih) h

/-- A program returns a value exactly if it does so at some depth. -/
theorem returns_iff {p : Calls ι ρ α} {a : α} :
    Returns procs p a ↔ ∃ depth, p.eval (atDepth procs depth) = .ok a := by
  constructor
  · intro h
    induction h with
    | done a => exact ⟨0, rfl⟩
    | @call _ i k r a _ _ ihcall ihrest =>
        obtain ⟨m, hm⟩ := ihcall
        obtain ⟨n, hn⟩ := ihrest
        refine ⟨max (m + 1) n, bind_eq_ok_iff.mpr ⟨r, ?_, ?_⟩⟩
        -- The call nests one level deeper than the procedure it calls.
        · exact atDepth_mono (Nat.le_max_left _ _) hm
        · exact eval_mono (fun _ _ => atDepth_mono (Nat.le_max_right _ _)) hn
  · rintro ⟨depth, h⟩
    exact returns_of_eval (fun _ _ => returns_of_atDepth) h

/-! ## Calls without end -/

/-- Calls that each begin with another one of them exceed every depth. -/
theorem atDepth_of_forall_calls {C : ι → Prop}
    (hcalls : ∀ i, C i → ∃ j k, procs i = .call j k ∧ C j) (depth : Nat) {i : ι} (hi : C i) :
    atDepth procs depth i = .error .divergence := by
  induction depth generalizing i with
  | zero => rfl
  | succ depth ih =>
      obtain ⟨j, k, hcall, hj⟩ := hcalls i hi
      rw [atDepth_succ, hcall, eval, ih hj, error_bind]

/-- A program that begins with such a call exceeds every depth as well. -/
theorem eval_of_forall_calls {C : ι → Prop}
    (hcalls : ∀ i, C i → ∃ j k, procs i = .call j k ∧ C j) (depth : Nat) {i : ι} (hi : C i)
    (k : ρ → Calls ι ρ α) :
    (Calls.call i k).eval (atDepth procs depth) = .error .divergence := by
  rw [eval, atDepth_of_forall_calls hcalls depth hi, error_bind]

/-- A program that exceeds every depth returns nothing. -/
theorem not_returns_of_eval {p : Calls ι ρ α}
    (h : ∀ depth, p.eval (atDepth procs depth) = .error .divergence) (a : α) :
    ¬ Returns procs p a := by
  intro hreturns
  obtain ⟨depth, hdepth⟩ := returns_iff.mp hreturns
  rw [h depth] at hdepth
  cases hdepth

end Foundation.Calls
