import Stepwise.Session
/-!
# Sessions under another schedule of collection

A session collects scopes once after each line that it reads and reduces. A `Schedule` leaves that
collection out, or adds others: before any step of the reduction, and between one line and the
next. What holds scopes then is the global scope and, during a reduction, the state it is in.
-/

namespace Stepwise

/-- When scopes are collected, from the start of a line to the start of the next. -/
structure Schedule where
  /-- How often scopes are collected before the step with this number. -/
  beforeStep : Nat → Nat
  /-- Whether the session's own collection at the end of a line takes place. -/
  atEnd : Bool
  /-- How often scopes are collected between the line and the next. -/
  afterLine : Nat

/-- The schedule that sessions follow. -/
def Schedule.own : Schedule :=
  ⟨fun _ => 0, true, 0⟩

/-- The plan for the steps after the first. -/
def later (plan : Nat → Nat) : Nat → Nat :=
  fun n => plan (n + 1)

/-- Collects `n` times what neither `global` nor the kept expressions reach. -/
def Store.collectTimes (s : Store) (n : Nat) (global : Handle) (kept : List Expr) : Store :=
  match n with
  | 0 => s
  | n + 1 => (s.collect [global] kept).2.collectTimes n global kept

/-- The state that a reduction is in, as long as it goes on. -/
def Trace.current (trace : Trace) : List Expr :=
  match trace.progress with
  | .fresh e | .shown e _ => [e]
  | .finished => []

/-! ## Reducing -/

/-- `reduceWithin` with collections before the steps. -/
def reduceUnder (plan : Nat → Nat) (global : Handle) (limit left : Nat) (e : Expr) (s : Store) :
    Except Error Expr × Store :=
  let s := s.collectTimes (plan 0) global [e]
  if e.isValue then (.ok e, s)
  else
    match left with
    | 0 => (.error (.evaluation (.stepLimit limit)), s)
    | left + 1 =>
      match (step e).runOn s with
      | (.ok next, s) => reduceUnder (later plan) global limit left next s
      | (.error err, s) => (.error err, s)

namespace Session

/-- `showTrace` with collections before the steps. -/
def showTraceUnder (plan : Nat → Nat) (global : Handle) (trace : Trace) (last : Option String)
    (sink : Sink) (store : Store) : Except Error Unit × Sink × Store :=
  match h : trace.next (store.collectTimes (plan 0) global trace.current) with
  | (none, _, store) => (.ok (), sink, store)
  | (some (.error e), _, store) => (.error e, sink, store)
  | (some (.ok e), trace, store) =>
    have := Trace.remaining_next_lt h
    if isSilent e then showTraceUnder (later plan) global trace last sink store
    else
      let text := e.text
      if last = some text then showTraceUnder (later plan) global trace last sink store
      else
        match emit sink text with
        | (.ok (), sink) => showTraceUnder (later plan) global trace (some text) sink store
        | (.error err, sink) => (.error err, sink, store)
termination_by trace.remaining

/-- `showValue` with collections before the steps. -/
def showValueUnder (plan : Nat → Nat) (e : Expr) (sink : Sink) (it : Interpreter) :
    Except Error Unit × Sink × Interpreter :=
  let ⟨store, global, settings⟩ := it
  match reduceUnder plan global settings.stepLimit settings.stepLimit e store with
  | (.error err, store) => (.error err, sink, ⟨store, global, settings⟩)
  | (.ok .void, store) => (.ok (), sink, ⟨store, global, settings⟩)
  | (.ok v, store) =>
    let (result, sink) := emit sink v.text
    (result, sink, ⟨store, global, settings⟩)

/-- `showReduction` with collections before the steps. -/
def showReductionUnder (plan : Nat → Nat) (e : Expr) (sink : Sink) (it : Interpreter) :
    Except Error Unit × Sink × Interpreter :=
  let ⟨store, global, settings⟩ := it
  let (result, sink, store) :=
    showTraceUnder plan global (.start settings.stepLimit e) none sink store
  (result, sink, ⟨store, global, settings⟩)

/-- `answer` with collections before the steps. -/
def answerUnder (plan : Nat → Nat) (showSteps : Bool) (source : String) (sink : Sink)
    (it : Interpreter) : Except Error Unit × Sink × Interpreter :=
  match it.read source with
  | (.error err, it) => (.error err, sink, it)
  | (.ok e, it) =>
    if showSteps then showReductionUnder plan e sink it else showValueUnder plan e sink it

/-- The session after some collections between two lines. -/
def collectTimes (session : Session) (n : Nat) : Session :=
  let ⟨⟨store, global, settings⟩, showSteps⟩ := session
  ⟨⟨store.collectTimes n global [], global, settings⟩, showSteps⟩

/-- `handleLine` under a schedule. -/
def handleLineUnder (schedule : Schedule) (session : Session) (line : String) (sink : Sink) :
    Except Error Control × Sink × Session :=
  let source := trim line
  let (result, sink, session) :=
    if source = "" then (.ok .proceed, sink, session)
    else if source = leaveCommand then (.ok .leave, sink, session)
    else if source = toggleCommand then
      (.ok .proceed, sink, { session with showSteps := !session.showSteps })
    else
      let ⟨it, showSteps⟩ := session
      let (result, sink, it) := answerUnder schedule.beforeStep showSteps source sink it
      (result.map fun _ => .proceed, sink,
        ⟨if schedule.atEnd then (it.collect []).2 else it, showSteps⟩)
  (result, sink, session.collectTimes schedule.afterLine)

/-! ## Whole sessions -/

/-- What a line comes to: the result, and what has been written. -/
abbrev Outcome := Except Error Control × Sink

/-- What each line comes to when lines are handled one after the other, each with a sink of its
own. -/
def outcomes (session : Session) : List (String × Sink) → List Outcome
  | [] => []
  | (line, sink) :: rest =>
    let (result, sink, session) := session.handleLine line sink
    (result, sink) :: session.outcomes rest

/-- The session after some lines. -/
def after (session : Session) : List (String × Sink) → Session
  | [] => session
  | (line, sink) :: rest => (session.handleLine line sink).2.2.after rest

/-- `outcomes`, with the given schedule for each line. -/
def outcomesUnder (schedules : Nat → Schedule) (session : Session) :
    List (String × Sink) → List Outcome
  | [] => []
  | (line, sink) :: rest =>
    let (result, sink, session) := session.handleLineUnder (schedules 0) line sink
    (result, sink) :: session.outcomesUnder (fun n => schedules (n + 1)) rest

end Session

/-! ## Reading a line -/

namespace Interpreter

variable {source : String} {global : Handle} {s t : Store}

theorem read_of_ok {e : Expr} (settings : Settings)
    (h : (Stepwise.read source global).runOn s = (.ok e, t)) :
    (⟨s, global, settings⟩ : Interpreter).read source = (.ok e, ⟨t, global, settings⟩) := by
  simp only [read, h]
  rfl

theorem read_of_error {err : ReadError} (settings : Settings)
    (h : (Stepwise.read source global).runOn s = (.error err, t)) :
    (⟨s, global, settings⟩ : Interpreter).read source =
      (.error (.reading err), ⟨t, global, settings⟩) := by
  simp only [read, h]
  rfl

end Interpreter

/-! ## The session's own schedule -/

theorem reduceUnder_own (global : Handle) (limit left : Nat) (e : Expr) (s : Store) :
    reduceUnder Schedule.own.beforeStep global limit left e s = reduceWithin limit left e s := by
  induction left generalizing e s with
  | zero => rfl
  | succ left ih =>
    unfold reduceUnder reduceWithin
    simp only [show later Schedule.own.beforeStep = Schedule.own.beforeStep from rfl, ih]
    rfl

namespace Session

/-- How the states still to come are shown, once the next one has been asked for. -/
def showNext (show_ : Trace → Option String → Sink → Store → Except Error Unit × Sink × Store)
    (last : Option String) (sink : Sink) :
    Option (Except Error Expr) × Trace × Store → Except Error Unit × Sink × Store
  | (none, _, store) => (.ok (), sink, store)
  | (some (.error e), _, store) => (.error e, sink, store)
  | (some (.ok e), trace, store) =>
    if isSilent e then show_ trace last sink store
    else if last = some e.text then show_ trace last sink store
    else
      match emit sink e.text with
      | (.ok (), sink) => show_ trace (some e.text) sink store
      | (.error err, sink) => (.error err, sink, store)

theorem showTrace_eq (trace : Trace) (last : Option String) (sink : Sink) (store : Store) :
    showTrace trace last sink store = showNext showTrace last sink (trace.next store) := by
  rw [showTrace]
  split
  all_goals
    rename_i h
    exact (congrArg (showNext showTrace last sink) h).symm

theorem showTraceUnder_eq (plan : Nat → Nat) (global : Handle) (trace : Trace)
    (last : Option String) (sink : Sink) (store : Store) :
    showTraceUnder plan global trace last sink store =
      showNext (showTraceUnder (later plan) global) last sink
        (trace.next (store.collectTimes (plan 0) global trace.current)) := by
  rw [showTraceUnder]
  split
  all_goals
    rename_i h
    exact (congrArg (showNext (showTraceUnder (later plan) global) last sink) h).symm

theorem showTraceUnder_own (global : Handle) (trace : Trace) (last : Option String) (sink : Sink)
    (store : Store) :
    showTraceUnder Schedule.own.beforeStep global trace last sink store =
      showTrace trace last sink store := by
  induction hn : trace.remaining using Nat.strongRecOn generalizing trace last sink store with
  | ind n ih =>
    rw [showTraceUnder_eq, showTrace_eq]
    change showNext _ last sink (trace.next store) = _
    rcases hnext : trace.next store with ⟨_ | ⟨err | e⟩, trace', store'⟩
    · rfl
    · rfl
    · have hlt := Trace.remaining_next_lt hnext
      have hrest := fun last sink store => ih _ (hn ▸ hlt) trace' last sink store rfl
      simp only [showNext, show later Schedule.own.beforeStep = Schedule.own.beforeStep from rfl, hrest]

theorem answerUnder_own (showSteps : Bool) (source : String) (sink : Sink) (it : Interpreter) :
    answerUnder Schedule.own.beforeStep showSteps source sink it =
      answer showSteps source sink it := by
  unfold answerUnder answer
  rcases it.read source with ⟨err | e, store, global, settings⟩
  · rfl
  · simp only [showReductionUnder, showReduction, showTraceUnder_own, showValueUnder, showValue,
      reduceUnder_own, Interpreter.reduce, reduce]
    split
    · rfl
    · rcases reduceWithin settings.stepLimit settings.stepLimit e store with ⟨err | v, store'⟩
      · rfl
      · cases v <;> rfl

/-- Under its own schedule a session does what it does. -/
theorem handleLineUnder_own (session : Session) (line : String) (sink : Sink) :
    session.handleLineUnder .own line sink = session.handleLine line sink := by
  unfold handleLineUnder handleLine
  by_cases hblank : trim line = ""
  · simp only [if_pos hblank]
    rfl
  · by_cases hleave : trim line = leaveCommand
    · simp only [if_neg hblank, if_pos hleave]
      rfl
    · by_cases htoggle : trim line = toggleCommand
      · simp only [if_neg hblank, if_neg hleave, if_pos htoggle]
        rfl
      · simp only [if_neg hblank, if_neg hleave, if_neg htoggle, answerUnder_own]
        generalize answer session.showSteps (trim line) sink session.interpreter = x
        rfl

theorem outcomesUnder_own (session : Session) (inputs : List (String × Sink)) :
    session.outcomesUnder (fun _ => .own) inputs = session.outcomes inputs := by
  induction inputs generalizing session with
  | nil => rfl
  | cons input rest ih =>
    obtain ⟨line, sink⟩ := input
    simp only [outcomesUnder, outcomes, handleLineUnder_own, ih]

end Session

end Stepwise
