import Mathlib.Data.List.Destutter
import Stepwise.Proofs.Eval.Runs
import Stepwise.Proofs.Eval.Watching
import Stepwise.Proofs.Session.Schedule
/-!
# Both modes of a session agree

Whether a session shows values or every step, a line has the same result and leaves the same
interpreter. The steps that are written are the states of the reduction without the silent ones and
without repetitions, and the last of them is the value, if there is one to be shown.
-/

namespace Stepwise

variable {e v : Expr} {s : Store} {sink : Sink} {last : Option String} {limit left : Nat}

/-! ## States -/

/-- The states that a trace still shows. -/
def Trace.states (t : Trace) (s : Store) : List Expr :=
  (t.pull (t.remaining + 1) s).1.filterMap fun item => item.bind Except.toOption

namespace Trace

theorem pull_finished (k limit : Nat) (s : Store) :
    pull k ⟨limit, .finished⟩ s = (List.replicate k none, s) := by
  rw [pull_of_pullWith _ _ _ 0, pullWith_finished]

/-- A state that is shown comes before those behind it. -/
theorem states_of_next {t u : Trace} {r : Store} (h : t.next s = (some (.ok e), u, r))
    (hrem : t.remaining = u.remaining + 1) : t.states s = e :: u.states r := by
  simp only [states, hrem, pull, h, List.filterMap_cons]
  rfl

/-- Behind an error or nothing there are no states. -/
theorem states_of_finished {t : Trace} {r : Store} {item : Option (Except Error Expr)}
    (h : t.next s = (item, ⟨limit, .finished⟩, r)) (hitem : item.bind Except.toOption = none) :
    t.states s = [] := by
  simp only [states, pull, h, pull_finished, List.filterMap_cons, hitem]
  rw [List.filterMap_replicate_of_none rfl]

/-- A reduction that ends in a value shows that value last. -/
theorem getLast?_states (h : (reduce limit e s).1 = .ok v) :
    ((start limit e).states s).getLast? = some v := by
  have hlast := (reduce_of_none_mem_pull (none_mem_pull e s (Nat.le_refl (limit + 3)))).1
  rw [h, List.getLast?_eq_some_iff] at hlast
  obtain ⟨init, hinit⟩ := hlast
  have hstates : (start limit e).states s =
      ((start limit e).pull (limit + 3) s).1.reduceOption.filterMap Except.toOption := by
    rw [List.reduceOption, List.filterMap_filterMap]
    rfl
  rw [hstates, hinit, List.filterMap_append]
  simp [Except.toOption]

end Trace

/-! ## Texts -/

/-- The texts that differ from the text before them. -/
def unrepeated (last : Option String) : List String → List String
  | [] => []
  | text :: rest =>
    if last = some text then unrepeated last rest else text :: unrepeated (some text) rest

theorem cons_unrepeated (text : String) (rest : List String) :
    text :: unrepeated (some text) rest = rest.destutter' (· ≠ ·) text := by
  induction rest generalizing text with
  | nil => rfl
  | cons next rest ih =>
    rw [unrepeated, List.destutter'_cons]
    by_cases h : text = next
    · simp only [h, if_true, ne_eq, not_true, if_false, ih]
    · simp only [Option.some.injEq, h, if_false, ne_eq, not_false_iff, if_true, ih]

theorem unrepeated_none (texts : List String) :
    unrepeated none texts = texts.destutter (· ≠ ·) := by
  cases texts with
  | nil => rfl
  | cons text rest =>
    rw [unrepeated, if_neg (by simp), cons_unrepeated]
    rfl

/-- Leaving repetitions out does not change the last text. -/
theorem getLast?_unrepeated (last : Option String) (texts : List String) :
    (unrepeated last texts).getLast?.or last = texts.getLast?.or last := by
  induction texts generalizing last with
  | nil => rfl
  | cons text rest ih =>
    rw [unrepeated]
    split
    · rename_i heq
      rw [ih, heq, List.getLast?_cons]
      cases rest.getLast? <;> rfl
    · -- from here on `text` is the one before, so it is the last one if nothing follows
      have hrest := ih (some text)
      rw [List.getLast?_cons, List.getLast?_cons]
      cases h : (unrepeated (some text) rest).getLast? <;> cases h' : rest.getLast? <;>
        simp_all

namespace Session

/-- The texts of some states as they are shown. -/
def shownTexts (states : List Expr) : List String :=
  (states.filter fun e => !isSilent e).map Expr.text

/-- The texts that the reduction of a line writes when every step is shown. -/
def stepTexts (it : Interpreter) (source : String) : List String :=
  match it.read source with
  | (.error _, _) => []
  | (.ok e, it) =>
    (shownTexts ((Trace.start it.settings.stepLimit e).states it.store)).destutter (· ≠ ·)

end Session

/-- The sink with some lines written to it, all of them in full. -/
def Sink.withLines (sink : Sink) (texts : List String) : Sink :=
  texts.foldl (fun sink text => { sink with written := sink.written ++ (text ++ "\n").toUTF8 }) sink

theorem Session.emit_of_unlimited (h : sink.capacity = none) (text : String) :
    emit sink text = (.ok (), sink.withLines [text]) := by
  simp only [emit, Sink.writeLine, Sink.write_of_unlimited h]
  rfl

/-! ## Every step against the value alone -/

namespace Session

variable {show_ : Trace → Option String → Sink → Store → Except Error Unit × Sink × Store}

/-- One state is written unless it is silent or repeats the one before. -/
theorem showNext_ok {t : Trace} {x : Except Error Unit} {states : List Expr} {r : Store}
    (hs : sink.capacity = none)
    (h : ∀ last sink', sink'.capacity = none →
      show_ t last sink' s = (x, sink'.withLines (unrepeated last (shownTexts states)), r)) :
    showNext show_ last sink (some (.ok e), t, s) =
      (x, sink.withLines (unrepeated last (shownTexts (e :: states))), r) := by
  cases hsilent : isSilent e with
  | true =>
    simp only [showNext, hsilent, if_true, h last sink hs, shownTexts, List.filter_cons,
      Bool.not_true, Bool.false_eq_true, if_false]
  | false =>
    have htexts : shownTexts (e :: states) = e.text :: shownTexts states := by
      simp [shownTexts, hsilent]
    simp only [showNext, hsilent, Bool.false_eq_true, if_false, htexts, unrepeated]
    split
    · exact h last sink hs
    · rw [emit_of_unlimited hs]
      exact h (some e.text) _ hs

/-- At the end of a trace nothing more is written. -/
theorem showTrace_of_finished (limit : Nat) {t : Trace} {r : Store}
    {item : Option (Except Error Expr)} {x : Except Error Unit} (h : t.next s = (item, ⟨limit, .finished⟩, r))
    (hitem : item = none ∧ x = .ok () ∨ ∃ err, item = some (.error err) ∧ x = .error err) :
    showTrace t last sink s = (x, sink.withLines (unrepeated last (shownTexts (t.states s))), r) := by
  rw [showTrace_eq, h]
  rcases hitem with ⟨rfl, rfl⟩ | ⟨err, rfl, rfl⟩
  all_goals
    rw [Trace.states_of_finished h rfl]
    rfl

/-- Showing what comes behind a state that was shown. -/
theorem showTrace_shown (limit left : Nat) (e : Expr) (s : Store) (last : Option String)
    (hs : sink.capacity = none) :
    showTrace ⟨limit, .shown e left⟩ last sink s =
      ((reduceWithin limit left e s).1.map fun _ => (),
        sink.withLines (unrepeated last (shownTexts (Trace.states ⟨limit, .shown e left⟩ s))),
        (reduceWithin limit left e s).2) := by
  induction left generalizing e s last sink with
  | zero =>
    unfold reduceWithin
    by_cases hv : e.isValue = true
    · rw [if_pos hv]
      exact showTrace_of_finished limit (by simp [Trace.next, hv]) (.inl ⟨rfl, rfl⟩)
    · rw [if_neg hv]
      exact showTrace_of_finished limit (by simp [Trace.next, hv]) (.inr ⟨_, rfl, rfl⟩)
  | succ left ih =>
    unfold reduceWithin
    by_cases hv : e.isValue = true
    · rw [if_pos hv]
      exact showTrace_of_finished limit (by simp [Trace.next, hv]) (.inl ⟨rfl, rfl⟩)
    · rw [if_neg hv]
      rcases hx : (step e).runOn s with ⟨err | e', s'⟩
      · exact showTrace_of_finished limit (by simp [Trace.next, hv, hx]) (.inr ⟨err, rfl, rfl⟩)
      · have hnext : Trace.next ⟨limit, .shown e (left + 1)⟩ s =
            (some (.ok e'), ⟨limit, .shown e' left⟩, s') := by
          simp [Trace.next, hv, hx]
        rw [showTrace_eq, hnext, Trace.states_of_next hnext rfl]
        exact showNext_ok hs fun last sink' hs' => ih e' s' last hs'

/-- Showing a whole reduction comes to what the reduction comes to. -/
theorem showTrace_start (limit : Nat) (e : Expr) (s : Store) (hs : sink.capacity = none) :
    showTrace (.start limit e) none sink s =
      ((reduce limit e s).1.map fun _ => (),
        sink.withLines ((shownTexts ((Trace.start limit e).states s)).destutter (· ≠ ·)),
        (reduce limit e s).2) := by
  have hnext : (Trace.start limit e).next s = (some (.ok e), ⟨limit, .shown e limit⟩, s) := rfl
  rw [showTrace_eq, hnext, Trace.states_of_next hnext rfl, ← unrepeated_none]
  exact showNext_ok hs fun last sink' hs' => showTrace_shown limit limit e s last hs'

theorem showReduction_of_unlimited (e : Expr) (it : Interpreter) (hs : sink.capacity = none) :
    showReduction e sink it =
      ((it.reduce e).1.map fun _ => (),
        sink.withLines
          ((shownTexts ((Trace.start it.settings.stepLimit e).states it.store)).destutter (· ≠ ·)),
        (it.reduce e).2) := by
  obtain ⟨store, global, settings⟩ := it
  simp only [showReduction, showTrace_start _ _ _ hs, Interpreter.reduce]

/-- What is written for a value. -/
def valueTexts : Except Error Expr → List String
  | .ok .void => []
  | .ok v => [v.text]
  | .error _ => []

theorem showValue_of_unlimited (e : Expr) (it : Interpreter) (hs : sink.capacity = none) :
    showValue e sink it =
      ((it.reduce e).1.map fun _ => (), sink.withLines (valueTexts (it.reduce e).1),
        (it.reduce e).2) := by
  rw [showValue]
  rcases it.reduce e with ⟨err | v, it'⟩
  · rfl
  · cases v with
    | void => rfl
    | _ =>
      simp only [emit_of_unlimited hs]
      rfl

/-- A line that is read, in either mode. -/
theorem answer_of_unlimited (showSteps : Bool) (source : String) (it : Interpreter)
    (hs : sink.capacity = none) :
    answer showSteps source sink it =
      ((it.readAndReduce source).1.map fun _ => (),
        sink.withLines
          (if showSteps then stepTexts it source else valueTexts (it.readAndReduce source).1),
        (it.readAndReduce source).2) := by
  rw [answer, Interpreter.readAndReduce, stepTexts]
  rcases it.read source with ⟨err | e, it'⟩
  · cases showSteps <;> rfl
  · cases showSteps with
    | true => exact showReduction_of_unlimited e it' hs
    | false => exact showValue_of_unlimited e it' hs

theorem isChain_stepTexts (it : Interpreter) (source : String) :
    (stepTexts it source).IsChain (· ≠ ·) := by
  rw [stepTexts]
  rcases it.read source with ⟨err | e, it'⟩
  · exact .nil
  · exact List.isChain_destutter _ _

/-- A value that can be shown is the last step written. -/
theorem getLast?_stepTexts {it : Interpreter} {source : String}
    (h : (it.readAndReduce source).1 = .ok v) (hv : v ≠ .void) :
    (stepTexts it source).getLast? = some v.text := by
  rw [Interpreter.readAndReduce] at h
  rw [stepTexts]
  rcases hread : it.read source with ⟨err | e, ⟨store, global, settings⟩⟩
  all_goals rw [hread] at h
  · cases h
  · have hvalue : v.isValue = true := isValue_of_reduceWithin h
    have hsilent : isSilent v = false := by
      cases v <;> simp_all [isSilent, Expr.isValue]
    obtain ⟨init, hinit⟩ := List.getLast?_eq_some_iff.1 (Trace.getLast?_states h)
    -- the value is the last state and not silent, and if its text is left out as a repetition
    -- then the same text was written before
    have hlast := getLast?_unrepeated none
      (shownTexts ((Trace.start settings.stepLimit e).states store))
    rw [unrepeated_none, Option.or_none, Option.or_none] at hlast
    rw [hlast, hinit]
    simp [shownTexts, hsilent]

theorem handleLine_of_unlimited (session : Session) {line : String} (hs : sink.capacity = none)
    (hblank : trim line ≠ "") (hleave : trim line ≠ leaveCommand)
    (htoggle : trim line ≠ toggleCommand) :
    session.handleLine line sink =
      ((session.interpreter.readAndReduce (trim line)).1.map fun _ => .proceed,
        sink.withLines
          (if session.showSteps then stepTexts session.interpreter (trim line)
            else valueTexts (session.interpreter.readAndReduce (trim line)).1),
        ⟨((session.interpreter.readAndReduce (trim line)).2.collect []).2, session.showSteps⟩) := by
  simp only [handleLine, if_neg hblank, if_neg hleave, if_neg htoggle, answer_of_unlimited _ _ _ hs]
  cases (session.interpreter.readAndReduce (trim line)).1 <;> rfl

theorem handleLine_of_blank (session : Session) {line : String} (hblank : trim line = "")
    (sink : Sink) : session.handleLine line sink = (.ok .proceed, sink, session) := by
  simp only [handleLine, if_pos hblank]

/-- With sinks that take everything, a line that is no command has the same result and leaves the
same interpreter in both modes. A value other than `void` is all that is written in the one, and
the last state that is written in the other, where no state is written that looks like the one
before it. -/
theorem handleLine_in_either_mode (it : Interpreter) (line : String) (plain stepped : Sink)
    (hplain : plain.capacity = none) (hstepped : stepped.capacity = none)
    (hleave : trim line ≠ leaveCommand) (htoggle : trim line ≠ toggleCommand) :
    let p := (⟨it, false⟩ : Session).handleLine line plain
    let q := (⟨it, true⟩ : Session).handleLine line stepped
    let result := (it.readAndReduce (trim line)).1
    let texts := stepTexts it (trim line)
    p.1 = q.1 ∧ p.2.2.interpreter = q.2.2.interpreter ∧
      (trim line ≠ "" → p.1 = result.map fun _ => .proceed) ∧
      q.2.1 = stepped.withLines texts ∧ texts.IsChain (· ≠ ·) ∧
      (∀ v, result = .ok v → v ≠ .void →
        p.2.1 = plain.withLines [v.text] ∧ texts.getLast? = some v.text) ∧
      (result = .ok .void → p.2.1 = plain) := by
  dsimp only
  have hchain := isChain_stepTexts it (trim line)
  have hlast : ∀ v, (it.readAndReduce (trim line)).1 = .ok v → v ≠ .void →
      (stepTexts it (trim line)).getLast? = some v.text := fun v h hv => getLast?_stepTexts h hv
  by_cases hblank : trim line = ""
  · -- a blank line is not read, and as an expression it is an error
    have hread : it.read (trim line) = (.error (.reading .empty), it) := by
      obtain ⟨store, global, settings⟩ := it
      rw [hblank]
      rfl
    have hresult : it.readAndReduce (trim line) = (.error (.reading .empty), it) := by
      rw [Interpreter.readAndReduce, hread]
    have htexts : stepTexts it (trim line) = [] := by
      rw [stepTexts, hread]
    rw [handleLine_of_blank _ hblank, handleLine_of_blank _ hblank, hresult, htexts]
    refine ⟨rfl, rfl, fun h => (h hblank).elim, rfl, .nil, fun v h => ?_, fun h => ?_⟩
    · cases h
    · cases h
  · rw [handleLine_of_unlimited _ hplain hblank hleave htoggle,
      handleLine_of_unlimited _ hstepped hblank hleave htoggle]
    simp only [if_true, Bool.false_eq_true, if_false]
    refine ⟨trivial, trivial, fun _ => trivial, trivial, hchain, fun v h hv => ⟨?_, hlast v h hv⟩,
      fun h => ?_⟩
    · rw [h]
      cases v with
      | void => exact (hv rfl).elim
      | _ => rfl
    · rw [h]
      rfl

/-- The value comes out of a form that is gone before the last step. -/
theorem or_in_either_mode :
    let it := Interpreter.start ⟨20, false⟩
    let line := " (or false (not true)) "
    trim line ≠ leaveCommand ∧ trim line ≠ toggleCommand ∧
      ((⟨it, false⟩ : Session).handleLine line (.empty none)).2.1 =
        (Sink.empty none).withLines ["false"] ∧
      ((⟨it, true⟩ : Session).handleLine line (.empty none)).2.1 =
        (Sink.empty none).withLines (stepTexts it (trim line)) ∧
      (stepTexts it (trim line)).getLast? = some "false" := by
  intro it line
  have hleave : trim line ≠ leaveCommand := by decide +kernel
  have htoggle : trim line ≠ toggleCommand := by decide +kernel
  obtain ⟨-, -, -, hstepped, -, hvalue, -⟩ :=
    handleLine_in_either_mode it line (.empty none) (.empty none) rfl rfl hleave htoggle
  have hresult : (it.readAndReduce (trim line)).1 = .ok (.boolean false) := by
    have hfalse : (it.readAndReduce (trim line)).1.toOption.any Expr.isFalse = true := by
      decide +kernel
    generalize (it.readAndReduce (trim line)).1 = r at hfalse ⊢
    match r, hfalse with
    | .ok (.boolean false), _ => rfl
  obtain ⟨hplain, hlast⟩ := hvalue (.boolean false) hresult (by simp)
  exact ⟨hleave, htoggle, hplain, hstepped, hlast⟩

end Session

end Stepwise
