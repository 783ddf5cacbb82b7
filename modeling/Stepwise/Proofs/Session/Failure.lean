import Stepwise.Proofs.Confinement.Step
import Stepwise.Proofs.Session.Collection
import Stepwise.Proofs.Session.Liveness
/-!
# A line that fails

As long as forms only lead tuples, a line that fails leaves no trace in its session: the scopes
that were there before are as they were, and those the line made are collected. The session after
the line is then a twin of the session before it, and twins answer every later line alike.
-/

namespace Stepwise

variable {it : Interpreter} {source : String} {current : Option Expr} {s : Store}

/-! ## During a line -/

/-- The scopes that are there when a line begins. -/
def Interpreter.Old (it : Interpreter) (h : Handle) : Prop :=
  it.store.isLive h = true

/-- Until a line of led source is over, it spares the scopes that were there before. -/
theorem spares_of_visits (hc : it.store.Closed it.global) (hled : it.store.Led) (hl : Led source)
    (hv : it.Visits source current s) :
    Sheltered it.Old s ∧ (current = some .void ∨
      Spares it.Old it.store s ∧ ∀ e ∈ current, Confined s it.Old true e) := by
  have hstart : Sheltered it.Old it.store := ⟨hc.sound, hled, fun h hh => hh⟩
  induction hv with
  | start =>
    refine ⟨hstart, .inr ⟨.refl _ _, fun e he => ?_⟩⟩
    cases he
  | @read s x hx =>
    have hread : Tames it.Old it.store (fun t e => Confined t it.Old true e ∧ _)
        ((read source it.global).runOn it.store) :=
      tames_read hstart (fun hn => by cases hn) hl
    rw [hx] at hread
    refine ⟨hread.sheltered, .inr ⟨hread.spares, fun e he => ?_⟩⟩
    cases x with
    | error err => cases he
    | ok =>
      cases he
      exact (hread.result e rfl).1
  | @step s t e x _ hx ih =>
    obtain ⟨hs, hvoid | ⟨hspares, hconfined⟩⟩ := ih
    · cases hvoid
      cases hx
      exact ⟨hs, .inl rfl⟩
    · rcases tames_step e hs (hconfined e rfl) with h | ⟨-, hvoid, h⟩
      all_goals rw [hx] at h
      · refine ⟨h.sheltered, .inr ⟨hspares.trans h.spares, fun e' he' => ?_⟩⟩
        cases x with
        | error err => cases he'
        | ok =>
          cases he'
          exact h.result e' rfl
      · rw [hx] at hvoid
        cases hvoid
        exact ⟨h, .inl rfl⟩

theorem Store.Led.collect (hs : s.Led) (roots : List Handle) (values : List Expr) :
    (s.collect roots values).2.Led :=
  fun h scope name e hscope he => hs h scope name e (Store.scope?_collect_iff.1 hscope).1 he

/-! ## Whole lines -/

namespace Session

/-- Between the lines of a session in which forms only lead tuples. -/
def Orderly (session : Session) : Prop :=
  session.interpreter.Tidy ∧ session.interpreter.store.Led

theorem orderly_start (settings : Settings) : (start settings).Orderly := by
  refine ⟨tidy_start settings, fun h scope name e hs he => ?_⟩
  obtain ⟨-, rfl⟩ := Store.scope?_root_iff.1 hs
  cases he

theorem orderly_handleLine {session : Session} (h : session.Orderly) {line : String}
    (hl : Led line) (sink : Sink) : (session.handleLine line sink).2.2.Orderly := by
  refine ⟨tidy_handleLine h.1 line sink, ?_⟩
  rcases handleLine_cases session line sink with ⟨control, showSteps, hx⟩ | ⟨result, sink', it, ha, hx⟩
  · rw [hx]
    exact h.2
  · obtain ⟨current, s, hs, hv, -⟩ :=
      visits_answer session.showSteps (trim line) sink session.interpreter
    obtain ⟨hsheltered, -⟩ := spares_of_visits h.1.1 h.2 hl.trim hv
    rw [ha] at hs
    simp only at hs
    rw [hx, hs]
    exact hsheltered.led.collect _ _

theorem orderly_after (session : Session) (h : session.Orderly) (inputs : List (String × Sink))
    (hl : ∀ input ∈ inputs, Led input.1) : (session.after inputs).Orderly := by
  induction inputs generalizing session with
  | nil => exact h
  | cons input rest ih =>
    exact ih _ (orderly_handleLine h (hl input (by simp)) input.2) fun input' hi =>
      hl input' (by simp [hi])

/-- A line that fails leaves a twin of the session it found. -/
theorem twin_of_failure {session : Session} (h : session.Orderly) {line : String} (hl : Led line)
    {sink : Sink} {err : Error} (hfail : (session.handleLine line sink).1 = .error err) :
    Twin (session.handleLine line sink).2.2 session := by
  rcases handleLine_cases session line sink with ⟨control, showSteps, hx⟩ | ⟨result, sink', it, ha, hx⟩
  · rw [hx] at hfail
    cases hfail
  · obtain ⟨current, s, hs, hv, hi⟩ :=
      visits_answer session.showSteps (trim line) sink session.interpreter
    obtain ⟨hsheltered, hcases⟩ := spares_of_visits h.1.1 h.2 hl.trim hv
    rw [ha] at hs hi
    simp only at hs hi
    rw [hx] at hfail ⊢
    rcases hcases with hvoid | ⟨hspares, -⟩
    · -- a definition ends its line, which then cannot fail
      cases result with
      | ok => cases hfail
      | error err' => exact (hi err' rfl hvoid).elim
    · have hmirrors := h.1.1.mirrors.of_known hsheltered.sound h.1.1.sound hspares.unchanged
        fun _ _ => rfl
      rw [hs]
      exact .intro session.interpreter.settings session.showSteps (hmirrors.collect_left [])

/-- A line that fails changes nothing for the lines after it. -/
theorem outcomes_after_failure (settings : Settings) (before after : List (String × Sink))
    (line : String) (sink : Sink) (err : Error) (hbefore : ∀ input ∈ before, Led input.1)
    (hline : Led line)
    (hfail : (((start settings).after before).handleLine line sink).1 = .error err) :
    (((start settings).after before).handleLine line sink).2.2.outcomes after =
      ((start settings).after before).outcomes after := by
  have horderly := orderly_after (start settings) (orderly_start settings) before hbefore
  have htwin := twin_of_failure horderly hline hfail
  rw [← outcomesUnder_own, ← outcomesUnder_own]
  exact htwin.outcomesUnder_eq _ _ after

/-- The line defines a name for itself and calls a procedure before it fails. -/
theorem outcomes_after_failed_application :
    (((start ⟨20, true⟩).after [("(define (f) true)", .empty none)]).handleLine
        "((define x true) (f))" (.empty none)).2.2.outcomes [("x", .empty none), ("(f)", .empty none)] =
      ((start ⟨20, true⟩).after [("(define (f) true)", .empty none)]).outcomes
        [("x", .empty none), ("(f)", .empty none)] := by
  have htrue : Led "true" := .atom (by decide +kernel) (by decide +kernel)
  have hx : Led "x" := .atom (by decide +kernel) (by decide +kernel)
  have hf : Led "(f)" :=
    led_of_members ["f"] (by decide +kernel) (by decide +kernel) ⟨fun ho => (by cases ho), by simp⟩
  have hbefore : Led "(define (f) true)" :=
    led_of_members ["define", "(f)", "true"] (by decide +kernel) (by decide +kernel)
      ⟨fun ho => (by cases ho), by simp [hf, htrue]⟩
  have hinner : Led "(define x true)" :=
    led_of_members ["define", "x", "true"] (by decide +kernel) (by decide +kernel)
      ⟨fun ho => (by cases ho), by simp [hx, htrue]⟩
  have hline : Led "((define x true) (f))" :=
    led_of_members ["(define x true)", "(f)"] (by decide +kernel) (by decide +kernel)
      ⟨fun _ => hinner, by simp [hf]⟩
  exact outcomes_after_failure _ _ _ _ _ (.evaluation (.notProcedure "")) (by simp [hbefore]) hline
    (by decide +kernel)

end Session

end Stepwise
