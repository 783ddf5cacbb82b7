import Stepwise.Proofs.Session.Liveness
import Stepwise.Proofs.WellFormed.Step
/-!
# Well-formed source over whole sessions

A line of source may be any text. What can be read of it is well formed, and from a fresh start
every store and every expression that a line comes to is (`wellFormed_of_visits`).
-/

namespace Stepwise

variable {allowed : String → Prop} {s : Store} {source : String} {it : Interpreter}
  {current : Option Expr}

/-- All atoms of the line are allowed, as far as it can be read. -/
structure LineOf (allowed : String → Prop) (source : String) : Prop where
  atom : opensTuple (trim source) = false → allowed (trim source)
  tuple : opensTuple (trim source) = true → ∀ ms, Token.members (trim source) = .ok ms →
    ∀ m ∈ ms, Token.WellFormed allowed m

theorem lineOf_any (source : String) : LineOf (fun _ => True) source :=
  ⟨fun _ => trivial, fun _ _ hms m hm => .of_isToken (Token.isToken_of_mem_members hms m hm)⟩

/-! ## One line -/

theorem wellFormed_root : Store.empty.root.2.WellFormed allowed := by
  refine ⟨Store.closed_root.sound, fun h scope name e hs he => ?_⟩
  obtain ⟨-, rfl⟩ := Store.scope?_root_iff.1 hs
  cases he

theorem yields_read (hs : s.WellFormed allowed) (hl : LineOf allowed source) (g : Handle) :
    Yields (Store.WellFormed allowed) (fun _ => True) (Expr.WellFormed allowed)
      ((read source g).runOn s) := by
  rcases runOn_read_cases source g s with ⟨err, hx⟩ | ⟨ms, ho, hm, hx⟩ | ⟨ho, hx⟩
  all_goals rw [hx]
  · exact ⟨hs, .error trivial⟩
  · exact ⟨hs.child g, .ok (.pending (hl.tuple ho ms hm))⟩
  · have hatom := results_readAtom hs (hl.atom ho) g
    cases hr : s.readAtom (trim source) g with
    | error err => exact ⟨hs, .error trivial⟩
    | ok e =>
      rw [hr] at hatom
      exact ⟨hs, .ok hatom.of_ok.2⟩

theorem wellFormed_of_yields {ε : Type} {E : ε → Prop} {x : Except ε Expr} {t : Store}
    (h : Yields (Store.WellFormed allowed) E (Expr.WellFormed allowed) (x, t)) :
    t.WellFormed allowed ∧ ∀ e ∈ x.toOption, e.WellFormed allowed := by
  refine ⟨h.store, fun e he => ?_⟩
  rw [eq_ok_of_mem_toOption he] at h
  exact h.result.of_ok

/-- Whatever a line comes to is well formed. -/
theorem wellFormed_of_visits (hs : it.store.WellFormed allowed) (hl : LineOf allowed source)
    (hv : it.Visits source current s) :
    s.WellFormed allowed ∧ ∀ e ∈ current, e.WellFormed allowed := by
  induction hv with
  | start => exact ⟨hs, by simp⟩
  | read hx =>
    have hread := yields_read hs hl it.global
    rw [hx] at hread
    exact wellFormed_of_yields hread
  | step _ hx ih =>
    have hstep := preserves_step ih.1 (ih.2 _ rfl)
    rw [hx] at hstep
    exact wellFormed_of_yields hstep

/-! ## From the start -/

theorem wellFormed_evaluate (hs : it.store.WellFormed allowed) (hl : LineOf allowed source) :
    (it.evaluate source).2.store.WellFormed allowed := by
  obtain ⟨current, s, hstore, hv, -⟩ := visits_readAndReduce it source
  have hwell := (wellFormed_of_visits hs hl hv).1
  rw [Interpreter.evaluate]
  generalize it.readAndReduce source = x at hstore ⊢
  obtain ⟨x, it'⟩ := x
  simp only at hstore ⊢
  rw [hstore]
  exact hwell.collect _ _

theorem wellFormed_after (hs : it.store.WellFormed allowed) {sources : List String}
    (hl : ∀ source ∈ sources, LineOf allowed source) :
    (it.after sources).store.WellFormed allowed := by
  induction sources generalizing it with
  | nil => exact hs
  | cons source rest ih =>
    have hnext := wellFormed_evaluate hs (hl source (by simp))
    rw [Interpreter.after]
    exact ih hnext fun x hx => hl x (by simp [hx])

/-- Whatever the lines before were. -/
theorem wellFormed_after_start (settings : Settings) (before : List String) :
    ((Interpreter.start settings).after before).store.WellFormed fun _ => True :=
  wellFormed_after wellFormed_root fun source _ => lineOf_any source

namespace Session

theorem wellFormed_handleLine {session : Session}
    (hs : session.interpreter.store.WellFormed fun _ => True) (line : String) (sink : Sink) :
    (session.handleLine line sink).2.2.interpreter.store.WellFormed fun _ => True := by
  rcases handleLine_cases session line sink with
    ⟨control, showSteps, hx⟩ | ⟨result, sink', it, ha, hx⟩
  · rw [hx]
    exact hs
  · obtain ⟨current, s, hstore, hv, -⟩ :=
      visits_answer session.showSteps (trim line) sink session.interpreter
    have hwell := (wellFormed_of_visits hs (lineOf_any _) hv).1
    rw [ha] at hstore
    simp only at hstore
    rw [hx, hstore]
    exact hwell.collect _ _

theorem wellFormed_after (session : Session)
    (hs : session.interpreter.store.WellFormed fun _ => True) (inputs : List (String × Sink)) :
    (session.after inputs).interpreter.store.WellFormed fun _ => True := by
  induction inputs generalizing session with
  | nil => exact hs
  | cons input rest ih => exact ih _ (wellFormed_handleLine hs input.1 input.2)

theorem wellFormed_after_start (settings : Settings) (before : List (String × Sink)) :
    ((start settings).after before).interpreter.store.WellFormed fun _ => True :=
  wellFormed_after (start settings) wellFormed_root before

end Session

end Stepwise
