import Mathlib.Data.List.Forall2
import SSTable.Foundation.Execution

/-!
# Simulation of observed runs

A machine takes one operation after another and shows something after each of them.  A
faulting machine is compared with one that cannot fault: if every allowed step of the first
shows what the second shows and keeps the two related, so does every run of allowed steps.

Main results:

- Theorem {lit}`runOps_simulates`: a step-by-step simulation gives equal observations over
  whole runs, and related final states.
- Theorem {lit}`traceOps_foldl`: what single steps keep between a machine and a fold, runs keep.
- Theorem {lit}`observe_mirrors`: a simulation that also says where the machine faults gives equal
  observations, faults included.
- Theorem {lit}`traceOps_specRun`: a specification that leaves choices follows whole runs if it follows
  single steps.
-/

namespace Foundation

open Exec

variable {σ α ο ω : Type}

/-- Run a sequence of operations and collect what each of them shows. -/
def runOps (step : σ → ο → Exec (ω × σ)) : σ → List ο → Exec (List ω × σ)
  | s, [] => pure ([], s)
  | s, o :: os => do
      let (w, s) ← step s o
      let (ws, s) ← runOps step s os
      pure (w :: ws, s)

/-- The run of a machine that cannot fault. -/
def traceOps (step : α → ο → ω × α) : α → List ο → List ω × α
  | a, [] => ([], a)
  | a, o :: os =>
      let (w, a) := step a o
      let (ws, a) := traceOps step a os
      (w :: ws, a)

/-- Every operation is allowed in the state it is called in. -/
def Legal (step : σ → ο → Exec (ω × σ)) (allowed : σ → ο → Prop) : σ → List ο → Prop
  | _, [] => True
  | s, o :: os => allowed s o ∧ ∀ w s', step s o = .ok (w, s') → Legal step allowed s' os

/-- Where the states of a run keep an invariant that leads from one condition on an operation to
another, the operations of the run satisfy the other one. -/
theorem Legal.of_invariant {f : σ → ο → Exec (ω × σ)} {allowed allowed' : σ → ο → Prop}
    (I : σ → Prop) (hkeeps : ∀ s o w s', I s → f s o = .ok (w, s') → I s')
    (himp : ∀ s o, I s → allowed s o → allowed' s o) {s : σ} {os : List ο} (hI : I s)
    (hlegal : Legal f allowed s os) : Legal f allowed' s os := by
  induction os generalizing s with
  | nil => trivial
  | cons o os ih =>
      obtain ⟨hallowed, hrest⟩ := hlegal
      exact ⟨himp s o hI hallowed, fun w s' hstep =>
        ih (hkeeps s o w s' hI hstep) (hrest w s' hstep)⟩

/-- A simulation of single steps extends to runs. -/
theorem runOps_simulates {f : σ → ο → Exec (ω × σ)} {g : α → ο → ω × α}
    {allowed : σ → ο → Prop} (R : σ → α → Prop)
    (hstep : ∀ s a o, R s a → allowed s o →
      ∃ s', f s o = .ok ((g a o).1, s') ∧ R s' (g a o).2)
    {s : σ} {a : α} {os : List ο} (hR : R s a) (hlegal : Legal f allowed s os) :
    ∃ s', runOps f s os = .ok ((traceOps g a os).1, s') ∧ R s' (traceOps g a os).2 := by
  induction os generalizing s a with
  | nil => exact ⟨s, rfl, hR⟩
  | cons o os ih =>
      obtain ⟨hallowed, hrest⟩ := hlegal
      obtain ⟨s', hs', hR'⟩ := hstep s a o hR hallowed
      obtain ⟨s'', hrun, hR''⟩ := ih hR' (hrest _ _ hs')
      exact ⟨s'', by simp [runOps, traceOps, hs', hrun], hR''⟩

/-- What single steps of a run keep, the run keeps. -/
theorem runOps_keeps {f : σ → ο → Exec (ω × σ)} (I : σ → Prop) {os : List ο}
    (hstep : ∀ s, ∀ o ∈ os, I s → ∀ w s', f s o = .ok (w, s') → I s') {s s' : σ} {ws : List ω}
    (hI : I s) (hrun : runOps f s os = .ok (ws, s')) : I s' := by
  induction os generalizing s ws with
  | nil =>
      obtain ⟨-, rfl⟩ := Prod.mk.inj (Except.ok.inj hrun)
      exact hI
  | cons o os ih =>
      simp only [runOps, bind_eq_ok_iff] at hrun
      obtain ⟨⟨w, s₁⟩, hfirst, ⟨ws', s₂⟩, hrest, heq⟩ := hrun
      obtain ⟨-, rfl⟩ := Prod.mk.inj (Except.ok.inj heq)
      exact ih (fun s o ho => hstep s o (List.mem_cons_of_mem _ ho))
        (hstep s o List.mem_cons_self hI w s₁ hfirst) hrest

/-! ## Machines that cannot fault -/

/-- Machines whose single steps show the same and stay related show the same over runs. -/
theorem traceOps_mirrors {f : σ → ο → ω × σ} {g : α → ο → ω × α} {R : σ → α → Prop} {os : List ο}
    (hstep : ∀ s a, ∀ o ∈ os, R s a → (f s o).1 = (g a o).1 ∧ R (f s o).2 (g a o).2) {s : σ} {a : α}
    (hR : R s a) :
    (traceOps f s os).1 = (traceOps g a os).1 ∧ R (traceOps f s os).2 (traceOps g a os).2 := by
  induction os generalizing s a with
  | nil => exact ⟨rfl, hR⟩
  | cons o os ih =>
      obtain ⟨hshown, hR'⟩ := hstep s a o List.mem_cons_self hR
      obtain ⟨hrest, hend⟩ := ih (fun s a o ho => hstep s a o (List.mem_cons_of_mem _ ho)) hR'
      exact ⟨congrArg₂ List.cons hshown hrest, hend⟩

/-- What single steps keep, a run keeps, and everything it shows was shown by a step that kept it. -/
theorem traceOps_keeps {f : σ → ο → ω × σ} (I : σ → Prop) (W : ω → Prop) {os : List ο}
    (hstep : ∀ s, ∀ o ∈ os, I s → W (f s o).1 ∧ I (f s o).2) {s : σ} (hI : I s) :
    (∀ w ∈ (traceOps f s os).1, W w) ∧ I (traceOps f s os).2 := by
  induction os generalizing s with
  | nil => exact ⟨by simp [traceOps], hI⟩
  | cons o os ih =>
      obtain ⟨hW, hI'⟩ := hstep s o List.mem_cons_self hI
      obtain ⟨hrest, hend⟩ := ih (fun s o ho => hstep s o (List.mem_cons_of_mem _ ho)) hI'
      refine ⟨?_, hend⟩
      intro w hw
      rcases List.mem_cons.mp hw with rfl | hw
      · exact hW
      · exact hrest w hw

/-- What single steps keep between a machine and a fold over its operations, a run keeps. -/
theorem traceOps_foldl {f : σ → ο → ω × σ} {g : α → ο → α} {R : σ → α → Prop}
    (hstep : ∀ s a o, R s a → R (f s o).2 (g a o)) {s : σ} {a : α} (hR : R s a) (os : List ο) :
    R (traceOps f s os).2 (os.foldl g a) := by
  induction os generalizing s a with
  | nil => exact hR
  | cons o os ih => exact ih (hstep s a o hR)

/-- A run goes through the state that its first operations lead to. -/
theorem traceOps_append (f : σ → ο → ω × σ) (s : σ) (os os' : List ο) :
    traceOps f s (os ++ os') = ((traceOps f s os).1 ++ (traceOps f (traceOps f s os).2 os').1,
      (traceOps f (traceOps f s os).2 os').2) := by
  induction os generalizing s with
  | nil => rfl
  | cons o os ih => simp only [List.cons_append, traceOps, ih]

/-! ## Machines that fault on both sides -/

/-- What is seen of a run: what every operation shows, up to one that faults. -/
def observe (step : σ → ο → Exec (ω × σ)) : σ → List ο → List (Option ω)
  | _, [] => []
  | s, o :: os =>
      match step s o with
      | .ok (w, s) => some w :: observe step s os
      | .error _ => [none]

/-- An execution faults exactly where the other one does, and otherwise shows the same and ends in
a related state. -/
def Mirrors (R : σ → α → Prop) (x : Exec (ω × σ)) : Exec (ω × α) → Prop
  | .ok (w, a) => ∃ s, x = .ok (w, s) ∧ R s a
  | .error _ => ¬ ∃ r, x = .ok r

theorem observe_cons_ok {f : σ → ο → Exec (ω × σ)} {s s' : σ} {o : ο} {w : ω} (h : f s o = .ok (w, s'))
    (os : List ο) : observe f s (o :: os) = some w :: observe f s' os := by
  simp [observe, h]

theorem observe_cons_error {f : σ → ο → Exec (ω × σ)} {s : σ} {o : ο} (h : ¬ ∃ r, f s o = .ok r)
    (os : List ο) : observe f s (o :: os) = [none] := by
  cases hf : f s o with
  | ok r => exact absurd ⟨r, hf⟩ h
  | error e => simp [observe, hf]

/-- An execution that does not fault ends in a related state. -/
theorem Mirrors.of_ok {R : σ → α → Prop} {w : ω} {s : σ} {y : Exec (ω × α)}
    (h : Mirrors R (.ok (w, s)) y) : ∃ a, y = .ok (w, a) ∧ R s a := by
  cases y with
  | ok r =>
      obtain ⟨s', heq, hR⟩ := h
      obtain ⟨rfl, rfl⟩ := Prod.mk.inj (Except.ok.inj heq)
      exact ⟨r.2, rfl, hR⟩
  | error e => exact absurd ⟨_, rfl⟩ h

/-- If single steps of a run mirror each other, what is seen of the run is the same. -/
theorem observe_mirrors_of_mem {f : σ → ο → Exec (ω × σ)} {g : α → ο → Exec (ω × α)}
    {R : σ → α → Prop} {os : List ο}
    (hstep : ∀ s a, ∀ o ∈ os, R s a → Mirrors R (f s o) (g a o)) {s : σ} {a : α} (hR : R s a) :
    observe f s os = observe g a os := by
  induction os generalizing s a with
  | nil => rfl
  | cons o os ih =>
      have hfirst := hstep s a o List.mem_cons_self hR
      cases hg : g a o with
      | ok r =>
          rw [hg] at hfirst
          obtain ⟨s', hf, hR'⟩ := hfirst
          have hrest := ih (fun s a o ho => hstep s a o (List.mem_cons_of_mem _ ho)) hR'
          rw [observe_cons_ok hf, observe_cons_ok hg, hrest]
      | error e =>
          rw [hg] at hfirst
          rw [observe_cons_error hfirst, observe_cons_error (by simp [hg])]

/-- If single steps mirror each other, what is seen of runs is the same. -/
theorem observe_mirrors {f : σ → ο → Exec (ω × σ)} {g : α → ο → Exec (ω × α)}
    {R : σ → α → Prop} (hstep : ∀ s a o, R s a → Mirrors R (f s o) (g a o)) {s : σ} {a : α}
    (hR : R s a) (os : List ο) : observe f s os = observe g a os :=
  observe_mirrors_of_mem (fun s a o _ => hstep s a o) hR

/-- An execution faults exactly where the other one does, and otherwise shows something that stands
for what the other one shows, and ends in a related state. -/
def MirrorsUpTo (E : ω → ω → Prop) (R : σ → α → Prop) (x : Exec (ω × σ)) : Exec (ω × α) → Prop
  | .ok (w, a) => ∃ w' s, x = .ok (w', s) ∧ E w' w ∧ R s a
  | .error _ => ¬ ∃ r, x = .ok r

/-- If single steps that are allowed mirror each other, what is seen of a run of them stands for what
is seen of the other run. -/
theorem observe_mirrorsUpTo {f : σ → ο → Exec (ω × σ)} {g : α → ο → Exec (ω × α)}
    {E : ω → ω → Prop} {R : σ → α → Prop} {allowed : σ → ο → Prop} {os : List ο}
    (hstep : ∀ s a o, R s a → allowed s o → MirrorsUpTo E R (f s o) (g a o)) {s : σ} {a : α}
    (hR : R s a) (hlegal : Legal f allowed s os) :
    List.Forall₂ (Option.Rel E) (observe f s os) (observe g a os) := by
  induction os generalizing s a with
  | nil => exact .nil
  | cons o os ih =>
      obtain ⟨hallowed, hrest⟩ := hlegal
      have hfirst := hstep s a o hR hallowed
      cases hg : g a o with
      | ok r =>
          rw [hg] at hfirst
          obtain ⟨w, s', hf, hE, hR'⟩ := hfirst
          rw [observe_cons_ok hf, observe_cons_ok hg]
          exact .cons (.some hE) (ih hR' (hrest w s' hf))
      | error e =>
          rw [hg] at hfirst
          rw [observe_cons_error hfirst, observe_cons_error (by simp [hg])]
          exact .cons .none .nil

/-! ## Specifications that leave choices -/

/-- A run of a specification that may go on in one of several ways. -/
inductive SpecRun (next : α → ο → ω → α → Prop) : α → List ο → List ω → α → Prop
  | nil {a : α} : SpecRun next a [] [] a
  | cons {a a' a'' : α} {o : ο} {w : ω} {os : List ο} {ws : List ω} (hstep : next a o w a')
      (hrest : SpecRun next a' os ws a'') : SpecRun next a (o :: os) (w :: ws) a''

/-- If a specification can follow single steps of a machine, it can follow its runs.  The relation
between the states may depend on the operations that are still to come. -/
theorem traceOps_specRun {f : σ → ο → ω × σ} {next : α → ο → ω → α → Prop}
    (R : List ο → σ → α → Prop)
    (hstep : ∀ o os s a, R (o :: os) s a → ∃ a', next a o (f s o).1 a' ∧ R os (f s o).2 a')
    {os : List ο} {s : σ} {a : α} (hR : R os s a) :
    ∃ a', SpecRun next a os (traceOps f s os).1 a' ∧ R [] (traceOps f s os).2 a' := by
  induction os generalizing s a with
  | nil => exact ⟨a, .nil, hR⟩
  | cons o os ih =>
      obtain ⟨a', hnext, hR'⟩ := hstep o os s a hR
      obtain ⟨a'', hrun, hend⟩ := ih hR'
      exact ⟨a'', .cons hnext hrun, hend⟩

section

variable {R : σ → α → Prop} {xs : List σ} {ys : List α}

/-- What two related lists have at one place is related. -/
theorem exists_of_forall₂ (h : List.Forall₂ R xs ys) {i : Nat} {x : σ} (hx : xs[i]? = some x) :
    ∃ y, ys[i]? = some y ∧ R x y := by
  induction h generalizing i with
  | nil => cases hx
  | cons hxy hrest ih =>
      cases i with
      | zero => exact ⟨_, rfl, Option.some.inj hx ▸ hxy⟩
      | succ i => exact ih hx

/-- Related lists end at the same place. -/
theorem none_of_forall₂ (h : List.Forall₂ R xs ys) {i : Nat} (hx : xs[i]? = none) :
    ys[i]? = none := by
  rw [List.getElem?_eq_none_iff] at hx ⊢
  rwa [← h.length_eq]

theorem forall₂_concat (h : List.Forall₂ R xs ys) {x : σ} {y : α} (hxy : R x y) :
    List.Forall₂ R (xs ++ [x]) (ys ++ [y]) :=
  List.rel_append h (.cons hxy .nil)

theorem forall₂_set (h : List.Forall₂ R xs ys) {x : σ} {y : α} (hxy : R x y) (i : Nat) :
    List.Forall₂ R (xs.set i x) (ys.set i y) := by
  induction h generalizing i with
  | nil => exact .nil
  | cons hfirst hrest ih =>
      cases i with
      | zero => exact .cons hxy hrest
      | succ i => exact .cons hfirst (ih i)

theorem forall₂_set_left (h : List.Forall₂ R xs ys) {x : σ} {y : α} {i : Nat}
    (hy : ys[i]? = some y) (hxy : R x y) : List.Forall₂ R (xs.set i x) ys := by
  have hset := forall₂_set h hxy i
  obtain ⟨hi, rfl⟩ := List.getElem?_eq_some_iff.mp hy
  rwa [List.set_getElem_self] at hset

end

/-- The first thing that is seen of a run is what its first operation shows. -/
theorem observe_head (f : σ → ο → Exec (ω × σ)) (s : σ) (o : ο) (os : List ο) :
    (observe f s (o :: os)).head? = (observe f s [o]).head? := by
  cases hf : f s o with
  | ok r => simp [observe, hf]
  | error e => simp [observe, hf]

/-- Two states that some operations leave alone, some lead to the same state, and others tell
apart: what is seen of a run from them is the same exactly if its first operation that does not
leave them alone does not tell them apart. -/
theorem observe_eq_iff {f : σ → ο → Exec (ω × σ)} {s s' : σ} (idle : ο → Bool) (same : ο → Prop)
    (hidle : ∀ o, idle o = true → ∃ w, f s o = .ok (w, s) ∧ f s' o = .ok (w, s'))
    (hsame : ∀ o, idle o = false → same o → f s o = f s' o)
    (hother : ∀ o, idle o = false → ¬ same o →
      (observe f s [o]).head? ≠ (observe f s' [o]).head?) (os : List ο) :
    observe f s os = observe f s' os ↔ ∀ o, os.find? (fun o => !idle o) = some o → same o := by
  induction os with
  | nil => simp [observe]
  | cons o os ih =>
      cases hi : idle o with
      | true =>
          obtain ⟨w, hs, hs'⟩ := hidle o hi
          rw [observe_cons_ok hs, observe_cons_ok hs', List.find?_cons_of_neg (by simp [hi]), ← ih]
          simp
      | false =>
          rw [List.find?_cons_of_pos (by simp [hi])]
          constructor
          · intro heq o' ho'
            obtain rfl := Option.some.inj ho'
            by_contra hne
            apply hother o hi hne
            rw [← observe_head f s o os, ← observe_head f s' o os, heq]
          · intro h
            have hstep := hsame o hi (h o rfl)
            simp only [observe, hstep]

end Foundation
