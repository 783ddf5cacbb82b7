import Stepwise.Proofs.Renaming.Step
import Stepwise.Proofs.Session.Schedule
import Stepwise.Proofs.Store.Release
/-!
# No stale handle and no leak

Whatever lines an interpreter or a session is given, no handle it can come across is stale, and
after each line the scopes there are can all be reached. The invariant is `Store.Closed`. A store
is closed exactly when it is its own mirror image with every scope known, so reading and stepping
preserve it because they agree with themselves.
-/

namespace Stepwise

variable {ε α : Type} {root : Handle} {s t : Store} {e : Expr}

/-! ## Steps keep the store closed -/

theorem Agree.closed {Q : Renaming → α → α → Prop} {x y : Except ε α × Store}
    (h : Agree root (.same fun h => s.isLive h = true) s Q x y) :
    x.2.Closed root ∧
      ∃ r : Renaming, (∀ h, r.known h → x.2.isLive h = true) ∧ Corresponds (Q r) x.1 y.1 := by
  obtain ⟨r, hext, hm, hl, hc⟩ := h
  refine ⟨hm.closed fun h hh => ?_, r, fun h hk => hm.isLive hk, hc⟩
  rcases hl h hh with hs | hk
  · exact (hext h hs).1
  · exact hk

/-- All handles of the current expression, if there is one, have their scopes. -/
def Store.Covers (s : Store) (current : Option Expr) : Prop :=
  ∀ e ∈ current, ∀ h ∈ e.captured, s.isLive h = true

theorem covers_of_corresponds {Q : Expr → Expr → Prop} {r : Renaming} {x y : Except ε Expr}
    (hk : ∀ h, r.known h → s.isLive h = true) (hc : Corresponds Q x y)
    (hq : ∀ e e', Q e e' → r.Knows e) : s.Covers x.toOption := by
  cases hc with
  | error err =>
    intro e he
    cases he
  | ok hab =>
    intro e he h hh
    cases he
    exact hk h (hq _ _ hab h hh)

theorem closed_read (hc : s.Closed root) (source : String) :
    ((read source root).runOn s).2.Closed root ∧
      ((read source root).runOn s).2.Covers ((read source root).runOn s).1.toOption := by
  obtain ⟨hclosed, r, hk, hcor⟩ := (agree_read hc.mirrors hc.live_root source).closed
  exact ⟨hclosed, covers_of_corresponds hk hcor fun _ _ hq => hq.1.2⟩

theorem closed_step (hc : s.Closed root) (he : s.Covers (some e)) :
    ((step e).runOn s).2.Closed root ∧
      ((step e).runOn s).2.Covers ((step e).runOn s).1.toOption := by
  obtain ⟨hclosed, r, hk, hcor⟩ := (agree_step e hc.mirrors (he e rfl)).closed
  exact ⟨hclosed, covers_of_corresponds hk hcor fun _ _ hq => hq.2⟩

/-! ## What a line goes through -/

/-- The boundaries between the steps of a line, whatever the limit on their number: the expression
the line has come to, which is none before it is read and after it has failed, and the store. -/
inductive Interpreter.Visits (it : Interpreter) (source : String) : Option Expr → Store → Prop
  | start : it.Visits source none it.store
  | read {s : Store} {x : Except ReadError Expr} :
    (Stepwise.read source it.global).runOn it.store = (x, s) → it.Visits source x.toOption s
  | step {s t : Store} {e : Expr} {x : Except Error Expr} :
    it.Visits source (some e) s → (Stepwise.step e).runOn s = (x, t) → it.Visits source x.toOption t

variable {it : Interpreter} {source : String} {current : Option Expr}

theorem closed_of_visits (hv : it.Visits source current s) (hc : it.store.Closed it.global) :
    s.Closed it.global ∧ s.Covers current := by
  induction hv with
  | start =>
    refine ⟨hc, ?_⟩
    intro e he
    cases he
  | read hx =>
    have hread := closed_read hc source
    rw [hx] at hread
    exact hread
  | step _ hx ih =>
    have hstep := closed_step ih.1 ih.2
    rw [hx] at hstep
    exact hstep

/-- A line that fails has not become `void` before. -/
def Interrupts (current : Option Expr) (result : Except Error α) : Prop :=
  ∀ err, result = .error err → current ≠ some .void

theorem interrupts_ok (current : Option Expr) (a : α) : Interrupts current (.ok a) := by
  intro err h
  cases h

theorem interrupts_none (result : Except Error α) : Interrupts none result := by
  intro err _ h
  cases h

theorem interrupts_of_not_value (hv : ¬ e.isValue = true) (result : Except Error α) :
    Interrupts (some e) result := by
  intro err _ h
  cases h
  exact hv rfl

theorem visits_reduceWithin (limit left : Nat) (hv : it.Visits source (some e) s) :
    ∃ current, it.Visits source current (reduceWithin limit left e s).2 ∧
      (∀ v, (reduceWithin limit left e s).1 = .ok v → current = some v) ∧
      Interrupts current (reduceWithin limit left e s).1 := by
  induction left generalizing e s with
  | zero =>
    unfold reduceWithin
    split
    · exact ⟨some e, hv, fun v hx => (by cases hx; rfl), interrupts_ok _ _⟩
    · rename_i hn
      exact ⟨some e, hv, fun v hx => (by cases hx), interrupts_of_not_value hn _⟩
  | succ left ih =>
    unfold reduceWithin
    split
    · exact ⟨some e, hv, fun v hx => (by cases hx; rfl), interrupts_ok _ _⟩
    · rcases hx : (step e).runOn s with ⟨err | e', s'⟩
      · exact ⟨none, .step hv hx, fun v hv => (by cases hv), interrupts_none _⟩
      · exact ih (.step hv hx)

theorem visits_readAndReduce (it : Interpreter) (source : String) :
    ∃ current s, (it.readAndReduce source).2 = ⟨s, it.global, it.settings⟩ ∧
      it.Visits source current s ∧
      ∀ v, (it.readAndReduce source).1 = .ok v → current = some v := by
  obtain ⟨store, global, settings⟩ := it
  rcases hx : (read source global).runOn store with ⟨err | e, s⟩
  · have hread := @Interpreter.Visits.read ⟨store, global, settings⟩ source s (.error err) hx
    simp only [Interpreter.readAndReduce, Interpreter.read_of_error settings hx]
    exact ⟨none, s, rfl, hread, fun v hv => by cases hv⟩
  · have hread := @Interpreter.Visits.read ⟨store, global, settings⟩ source s (.ok e) hx
    obtain ⟨current, hv, hok, -⟩ :=
      visits_reduceWithin settings.stepLimit settings.stepLimit hread
    simp only [Interpreter.readAndReduce, Interpreter.read_of_ok settings hx]
    exact ⟨current, _, rfl, hv, hok⟩

/-- The store has been visited, and so has the state of the trace. -/
def Trace.Visited (trace : Trace) (it : Interpreter) (source : String) (s : Store) : Prop :=
  ∃ current, it.Visits source current s ∧ ∀ e ∈ trace.current, current = some e

/-- The next state is visited; when there is an error instead, the line has not become `void`. -/
theorem visited_next {trace : Trace} (hv : trace.Visited it source s) :
    ∃ current, it.Visits source current (trace.next s).2.2 ∧
      (∀ e ∈ (trace.next s).2.1.current, current = some e) ∧
      (∀ e, (trace.next s).1 = some (.ok e) → current = some e) ∧
      ∀ err, (trace.next s).1 = some (.error err) → current ≠ some .void := by
  obtain ⟨limit, progress⟩ := trace
  obtain ⟨current, hv, hcurrent⟩ := hv
  cases progress with
  | fresh e =>
    refine ⟨current, hv, hcurrent, fun x hx => ?_, fun err hx => by cases hx⟩
    cases hx
    exact hcurrent e (by simp [Trace.current])
  | finished => exact ⟨current, hv, hcurrent, fun x hx => (by cases hx), fun err hx => by cases hx⟩
  | shown e left =>
    obtain rfl : current = some e := hcurrent e (by simp [Trace.current])
    simp only [Trace.next]
    split
    · exact ⟨some e, hv, by simp [Trace.current], fun x hx => (by cases hx),
        fun err hx => by cases hx⟩
    · rename_i hn
      cases left with
      | zero =>
        exact ⟨some e, hv, by simp [Trace.current], fun x hx => (by cases hx),
          fun err _ => interrupts_of_not_value hn (.error err : Except Error Unit) err rfl⟩
      | succ left =>
        rcases hx : (step e).runOn s with ⟨err | e', s'⟩
        · exact ⟨none, .step hv hx, by simp [Trace.current], fun x hx => (by cases hx),
            fun err _ h => by cases h⟩
        · refine ⟨some e', .step hv hx, by simp [Trace.current], fun x hx => ?_,
            fun err hx => by cases hx⟩
          cases hx
          rfl

theorem visits_showTrace (trace : Trace) (last : Option String) (sink : Sink)
    (hv : trace.Visited it source s) :
    ∃ current, it.Visits source current (Session.showTrace trace last sink s).2.2 ∧
      Interrupts current (Session.showTrace trace last sink s).1 := by
  induction hn : trace.remaining using Nat.strongRecOn generalizing trace last sink s with
  | ind n ih =>
    rw [Session.showTrace_eq]
    obtain ⟨current, hv', hcurrent, hstate, herror⟩ := visited_next hv
    rcases hx : trace.next s with ⟨_ | ⟨err | e⟩, trace', s'⟩
    all_goals rw [hx] at hv' hcurrent hstate herror
    · exact ⟨current, hv', interrupts_ok _ _⟩
    · exact ⟨current, hv', fun _ _ => herror err rfl⟩
    · have hrest := fun last sink =>
        ih _ (hn ▸ Trace.remaining_next_lt hx) trace' last sink ⟨current, hv', hcurrent⟩ rfl
      simp only [Session.showNext]
      split
      · exact hrest last sink
      · rename_i hsilent
        split
        · exact hrest last sink
        · rcases Session.emit sink e.text with ⟨err | _, sink'⟩
          · -- only a state that is shown can fail to be written, and `void` is not shown
            refine ⟨current, hv', fun _ _ hvoid => ?_⟩
            rw [hstate e rfl] at hvoid
            cases hvoid
            exact hsilent rfl
          · exact hrest (some e.text) sink'

theorem visits_answer (showSteps : Bool) (source : String) (sink : Sink) (it : Interpreter) :
    ∃ current s, (Session.answer showSteps source sink it).2.2 = ⟨s, it.global, it.settings⟩ ∧
      it.Visits source current s ∧
      Interrupts current (Session.answer showSteps source sink it).1 := by
  obtain ⟨store, global, settings⟩ := it
  rcases hx : (read source global).runOn store with ⟨err | e, s⟩
  · have hread := @Interpreter.Visits.read ⟨store, global, settings⟩ source s (.error err) hx
    simp only [Session.answer, Interpreter.read_of_error settings hx]
    exact ⟨none, s, rfl, hread, interrupts_none _⟩
  · have hv := @Interpreter.Visits.read ⟨store, global, settings⟩ source s (.ok e) hx
    simp only [Session.answer, Interpreter.read_of_ok settings hx]
    split
    · obtain ⟨current, hv', hi⟩ := visits_showTrace (.start settings.stepLimit e) none sink
        ⟨some e, hv, by simp [Trace.current, Trace.start]⟩
      exact ⟨current, _, rfl, hv', hi⟩
    · obtain ⟨current, hv', hok, hi⟩ :=
        visits_reduceWithin settings.stepLimit settings.stepLimit hv
      simp only [Session.showValue, Interpreter.reduce, reduce]
      rcases hr : reduceWithin settings.stepLimit settings.stepLimit e s with ⟨err | v, s'⟩
      all_goals rw [hr] at hv' hok hi
      · exact ⟨current, s', rfl, hv', fun _ _ => hi err rfl⟩
      · rw [hok v rfl] at hv'
        cases v with
        | void => exact ⟨some .void, s', rfl, hv', interrupts_ok _ _⟩
        | _ => exact ⟨_, s', rfl, hv', fun _ _ h => by cases h⟩

/-! ## Collection is exact -/

/-- What a collection leaves is closed, and all of it can be reached. -/
theorem closed_collect (hc : s.Closed root) (values : List Expr)
    (hv : ∀ h ∈ capturedAll values, s.isLive h = true) :
    (s.collect [root] values).2.Closed root ∧
      ∀ h, (s.collect [root] values).2.isLive h = true ↔
        (s.collect [root] values).2.Reaches (root :: capturedAll values) h := by
  have hkeep : ∀ h, (s.collect [root] values).2.isLive h = true ↔
      s.isLive h = true ∧ s.Reaches (root :: capturedAll values) h := by
    intro h
    simp only [Store.isLive_iff, Store.scope?_collect_iff, exists_and_right]
    rfl
  have hclosed := (hc.mirrors.collect_left values).closed fun h hh => (hkeep h).1 hh
  refine ⟨hclosed, fun h => ⟨fun hh => ((hkeep h).1 hh).2.collect, fun hh => ?_⟩⟩
  induction hh with
  | root hh =>
    rcases List.mem_cons.1 hh with rfl | hh'
    · exact hclosed.live_root
    · exact (hkeep _).2 ⟨hv _ hh', .root hh⟩
  | link _ hs hg _ => exact hclosed.isLive_captured hs hg

/-! ## Whole runs -/

/-- The interpreter after some lines of source. -/
def Interpreter.after (it : Interpreter) : List String → Interpreter
  | [] => it
  | source :: rest => (it.evaluate source).2.after rest

/-- Only the stores that are closed and in which the global scope reaches every scope occur between
the lines of a session. -/
def Interpreter.Tidy (it : Interpreter) : Prop :=
  it.store.Closed it.global ∧
    ∀ h, it.store.isLive h = true ↔ it.store.Reaches [it.global] h

theorem tidy_start (settings : Settings) : (Interpreter.start settings).Tidy := by
  refine ⟨Store.closed_root, fun h => ⟨fun hh => .root ?_, fun hh => ?_⟩⟩
  · obtain ⟨scope, hs⟩ := Store.isLive_iff.1 hh
    exact List.mem_singleton.2 (Store.scope?_root_iff.1 hs).1
  · induction hh with
    | root hh =>
      rw [List.mem_singleton.1 hh]
      exact Store.closed_root.live_root
    | link _ hs hg _ => exact Store.closed_root.isLive_captured hs hg

theorem closed_evaluate (hc : it.store.Closed it.global) (source : String) :
    (it.evaluate source).2.store.Closed (it.evaluate source).2.global ∧
      ∀ h, (it.evaluate source).2.store.isLive h = true ↔
        (it.evaluate source).2.store.Reaches ((it.evaluate source).2.global ::
          capturedAll (it.evaluate source).1.toOption.toList) h := by
  obtain ⟨current, s, hs, hv, hok⟩ := visits_readAndReduce it source
  obtain ⟨hclosed, hcovers⟩ := closed_of_visits hv hc
  rw [Interpreter.evaluate]
  generalize it.readAndReduce source = x at hs hok ⊢
  obtain ⟨x, it'⟩ := x
  simp only at hs hok ⊢
  subst hs
  refine closed_collect hclosed _ fun h hh => ?_
  cases x with
  | error err => cases hh
  | ok v =>
    rw [hok v rfl] at hcovers
    exact hcovers v rfl h (by simpa [Except.toOption] using hh)

theorem closed_after (hc : it.store.Closed it.global) (sources : List String) :
    (it.after sources).store.Closed (it.after sources).global := by
  induction sources generalizing it with
  | nil => exact hc
  | cons source rest ih =>
    have hnext := (closed_evaluate hc source).1
    rw [Interpreter.after]
    exact ih hnext

namespace Session

/-- A line is a command, which leaves the interpreter alone, or is answered. -/
theorem handleLine_cases (session : Session) (line : String) (sink : Sink) :
    (∃ control showSteps, session.handleLine line sink =
      (.ok control, sink, ⟨session.interpreter, showSteps⟩)) ∨
    ∃ result sink' it, answer session.showSteps (trim line) sink session.interpreter =
        (result, sink', it) ∧
      session.handleLine line sink =
        (result.map fun _ => .proceed, sink', ⟨(it.collect []).2, session.showSteps⟩) := by
  unfold handleLine
  simp only
  split
  · exact .inl ⟨_, _, rfl⟩
  · split
    · exact .inl ⟨_, _, rfl⟩
    · split
      · exact .inl ⟨_, _, rfl⟩
      · generalize answer session.showSteps (trim line) sink session.interpreter = x
        obtain ⟨result, sink', it⟩ := x
        exact .inr ⟨result, sink', it, rfl, rfl⟩

theorem tidy_handleLine {session : Session} (h : session.interpreter.Tidy) (line : String)
    (sink : Sink) : (session.handleLine line sink).2.2.interpreter.Tidy := by
  rcases handleLine_cases session line sink with ⟨control, showSteps, hx⟩ | ⟨result, sink', it, ha, hx⟩
  · rw [hx]
    exact h
  · obtain ⟨current, s, hs, hv, -⟩ :=
      visits_answer session.showSteps (trim line) sink session.interpreter
    have hclosed := (closed_of_visits hv h.1).1
    rw [ha] at hs
    simp only at hs
    rw [hx, hs]
    exact closed_collect hclosed [] (by simp)

theorem tidy_after (session : Session) (h : session.interpreter.Tidy)
    (inputs : List (String × Sink)) : (session.after inputs).interpreter.Tidy := by
  induction inputs generalizing session with
  | nil => exact h
  | cons input rest ih => exact ih _ (tidy_handleLine h input.1 input.2)

end Session

/-- The current expression, the scopes' bindings and their parents hold no stale handle, and the
parents of every scope lead to the global one. -/
structure Store.Safe (s : Store) (global : Handle) (current : Option Expr) : Prop where
  current : s.Covers current
  captured : ∀ h scope, s.scope? h = some scope → ∀ g ∈ scope.captured, s.isLive g = true
  rooted : ∀ h, s.isLive h = true → s.Rooted global h

theorem safe_of_visits (hc : it.store.Closed it.global) (hv : it.Visits source current s) :
    s.Safe it.global current := by
  obtain ⟨hclosed, hcovers⟩ := closed_of_visits hv hc
  exact ⟨hcovers, fun h scope hs g hg => hclosed.isLive_captured hs hg, hclosed.rooted⟩

/-- Shutdown counts all scopes there are, and none is left. -/
def Interpreter.ShutsDown (it : Interpreter) : Prop :=
  it.shutdown = it.store.liveCount ∧ ∀ h, (it.store.release it.global).2.isLive h = false

theorem shutsDown_of_closed (hc : it.store.Closed it.global) : it.ShutsDown := by
  obtain ⟨hcount, -, hnone⟩ := Store.release_of_rooted hc.sound hc.live_root hc.rooted
  exact ⟨hcount, hnone⟩

/-- From a fresh start, every line of a session and every line of source is safe at each step,
leaves exactly the scopes that can be reached, and could be the last one. -/
theorem lines_safe_and_leakless (settings : Settings) :
    (∀ (before : List (String × Sink)) (line : String) (sink : Sink),
      let session := (Session.start settings).after before
      let next := (session.handleLine line sink).2.2.interpreter
      (∀ current s, session.interpreter.Visits (trim line) current s →
        s.Safe session.interpreter.global current) ∧
      (∀ h, next.store.isLive h = true ↔ next.store.Reaches [next.global] h) ∧
      next.ShutsDown) ∧
    ∀ (before : List String) (source : String),
      let it := (Interpreter.start settings).after before
      let result := (it.evaluate source).1
      let next := (it.evaluate source).2
      (∀ current s, it.Visits source current s → s.Safe it.global current) ∧
      (∀ h, next.store.isLive h = true ↔
        next.store.Reaches (next.global :: capturedAll result.toOption.toList) h) ∧
      next.ShutsDown := by
  refine ⟨fun before line sink => ?_, fun before source => ?_⟩
  · have htidy := Session.tidy_after (.start settings) (tidy_start settings) before
    have hnext := Session.tidy_handleLine htidy line sink
    exact ⟨fun current s hv => safe_of_visits htidy.1 hv, hnext.2, shutsDown_of_closed hnext.1⟩
  · have hclosed := closed_after (tidy_start settings).1 before
    obtain ⟨hnext, hexact⟩ := closed_evaluate hclosed source
    exact ⟨fun current s hv => safe_of_visits hclosed hv, hexact, shutsDown_of_closed hnext⟩

end Stepwise
