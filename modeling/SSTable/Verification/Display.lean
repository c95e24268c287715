import SSTable.Model.Display

/-!
# Formatting a status does not end

The function that formats a status first converts the status to a string, which formats it.  No
depth of nested calls is enough for that, whatever the status.

Main results:

- Theorem {lit}`returns_toString_iff`: the conversion to a string returns what is formatted.
- Theorem {lit}`display_never_ends`: neither formatting a status nor converting it to a string
  returns.
-/

namespace SSTable.Status

open Foundation Foundation.Calls

/-- Formatting a status ends and writes its text behind what is there, and so does the conversion
to a string. -/
structure Displays (s : Status) : Prop where
  fmt_returns : ∀ f : Formatter, Returns display (s.fmt f) (.ok (), { buf := f.buf ++ s.err })
  toString_returns : Returns display s.toString s.err

/-- The conversion to a string returns what formatting with a new formatter writes. -/
theorem returns_toString_iff {s : Status} {text : String} :
    Returns display s.toString text ↔
      Returns display (s.fmt Formatter.new) (.ok (), { buf := text }) := by
  obtain ⟨k, hcall, hok, herror⟩ : ∃ k : FmtReply → Calls FmtCall FmtReply String,
      s.toString = .call { status := s, formatter := Formatter.new } k ∧
        (∀ f, k (.ok (), f) = .done f.buf) ∧ ∀ e f, k (.error e, f) = .stop .unwrapNone :=
    ⟨_, rfl, fun _ => rfl, fun _ _ => rfl⟩
  rw [hcall, returns_call_iff]
  constructor
  · rintro ⟨⟨result, f⟩, hfmt, hresult⟩
    cases result with
    | ok u =>
        rw [hok, returns_done_iff] at hresult
        subst hresult
        exact hfmt
    | error e =>
        rw [herror] at hresult
        exact absurd hresult not_returns_stop
  · intro hfmt
    refine ⟨_, hfmt, ?_⟩
    rw [hok, returns_done_iff]

/-- Formatting begins with formatting the same status again. -/
theorem fmt_calls (s : Status) (f : Formatter) :
    ∃ k, s.fmt f = .call { status := s, formatter := Formatter.new } k :=
  ⟨_, rfl⟩

/-- No depth of nested calls is enough to format a status. -/
theorem eval_fmt (s : Status) (f : Formatter) (depth : Nat) :
    (s.fmt f).eval (atDepth display depth) = .error .divergence := by
  obtain ⟨k, hk⟩ := fmt_calls s f
  rw [hk]
  apply eval_of_forall_calls (C := fun _ => True) _ depth trivial
  intro c _
  obtain ⟨k, hk⟩ := fmt_calls c.status c.formatter
  exact ⟨_, k, hk, trivial⟩

theorem not_returns_fmt (s : Status) (f : Formatter) (r : FmtReply) :
    ¬ Returns display (s.fmt f) r :=
  not_returns_of_eval (eval_fmt s f) r

theorem not_returns_toString (s : Status) (text : String) : ¬ Returns display s.toString text := by
  rw [returns_toString_iff]
  exact not_returns_fmt s Formatter.new _

/-- Neither formatting a status nor converting it to a string returns anything, whatever the status,
and formatting exceeds every depth of nested calls. -/
theorem display_never_ends (s : Status) :
    ¬ s.Displays ∧ (∀ f r, ¬ Returns display (s.fmt f) r) ∧
      (∀ text, ¬ Returns display s.toString text) ∧
      ∀ f depth, (s.fmt f).eval (atDepth display depth) = .error .divergence := by
  refine ⟨?_, not_returns_fmt s, not_returns_toString s, eval_fmt s⟩
  intro h
  exact not_returns_toString s s.err h.toString_returns

/-- The status that a block with a wrong checksum is refused with is one the library makes, and it
is not displayed. -/
theorem corruption_not_displayed :
    (Status.new .Corruption "checksum verification failed for block at 0").Made ∧
      ¬ (Status.new .Corruption "checksum verification failed for block at 0").Displays := by
  constructor
  · exact .new _ _
  · intro h
    exact not_returns_toString _ _ h.toString_returns

end SSTable.Status
