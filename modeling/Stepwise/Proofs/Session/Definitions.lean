import Stepwise.Proofs.Confinement.Source
import Stepwise.Proofs.Eval.Expansion
import Stepwise.Proofs.Eval.Runs
import Stepwise.Proofs.Renaming.Definitions
import Stepwise.Proofs.Session.Collection
import Stepwise.Proofs.Session.Liveness
import Stepwise.Proofs.WellFormed.Step
/-!
# The order of definitions

A line that defines a procedure comes to the same whatever the session holds, as long as `define`
means the special form: it makes a scope for itself and, unless the steps allowed or the sink are
used up before, binds its name. Two such lines with different names can therefore change places,
and no later line can tell.
-/

namespace Stepwise

variable {s t : Store} {root : Handle} {home : Option Handle} {line : String} {d : Definition}

/-! ## What the line is -/

/-- The line is `(define (name param ...) body)`, with a name and parameters that can be bound. -/
def Definition.WrittenAs (d : Definition) (line signature : String) : Prop :=
  Token.members (trim line) = .ok ["define", signature, d.body] ∧ opensTuple signature = true ∧
    Token.members signature = .ok (d.name :: d.params) ∧ isSymbol d.name = true ∧
    paramsFault [] d.params = none

/-- A definition is no command. -/
theorem Definition.WrittenAs.not_command {signature : String} (hw : d.WrittenAs line signature) :
    trim line ≠ "" ∧ trim line ≠ Session.leaveCommand ∧ trim line ≠ Session.toggleCommand := by
  have hm := hw.1
  refine ⟨fun h => ?_, fun h => ?_, fun h => ?_⟩
  · have hblank : Token.members "" = .error (.notTuple "") := by decide +kernel
    rw [h, hblank] at hm
    cases hm
  · have hleave : Token.members Session.leaveCommand = .ok ["exit"] := by decide +kernel
    rw [h, hleave] at hm
    simp at hm
  · have htoggle : Token.members Session.toggleCommand = .ok ["toggle-step"] := by decide +kernel
    rw [h, htoggle] at hm
    simp at hm

/-- At `root`, `define` means the special form. It acts at `home` when it is bound there, and else
wherever it is named. -/
def Store.Defines (s : Store) (root : Handle) (home : Option Handle) : Prop :=
  s.get? root "define" = home.map fun h => .procedure (.form .define h)

theorem exists_home {h : Handle} (hc : s.Closed root)
    (hd : s.readAtom "define" root = .ok (.procedure (.form .define h))) :
    ∃ home, s.Defines root home ∧ ∀ k ∈ home, s.isLive k = true := by
  unfold Store.readAtom at hd
  cases hg : s.get? root "define" with
  | none =>
    refine ⟨none, hg, fun k hk => ?_⟩
    cases hk
  | some e =>
    rw [hg] at hd
    cases hd
    refine ⟨some h, hg, fun k hk => ?_⟩
    cases hk
    exact (hc.mirrors.bound_of_get? hc.live_root hg).2 h (by simp [Expr.captured, Procedure.captured])

/-- A definition of another name leaves `define` alone. -/
theorem Store.Defines.withDefinition (hd : s.Defines root home) (hc : s.Closed root)
    (hne : d.name ≠ "define") (done : Bool) :
    (s.withDefinition root home d done).Defines root home := by
  rw [Store.Defines, Store.get?_withDefinition hc.sound (hc.rooted root hc.live_root) _ _ _ hne.symm]
  exact hd

/-! ## What its steps do -/

/-- Seen from the scope of the line, `define` means the special form. -/
theorem readAtom_define (hc : s.Closed root) (hd : s.Defines root home) :
    (s.child root).2.readAtom "define" (s.child root).1 =
      .ok (.procedure (.form .define (home.getD (s.child root).1))) := by
  rw [Store.readAtom, Store.get?_child_self hc.sound (hc.rooted root hc.live_root), hd]
  cases home with
  | none => rfl
  | some h => rfl

/-- The tuple that the line becomes. -/
def definingTuple (signature body : String) (scope h : Handle) : Expr :=
  .tuple [.procedure (.form .define scope), .deferred signature h, .deferred body h]

theorem runOn_step_pending (hc : s.Closed root) (hd : s.Defines root home) (signature body : String) :
    (step (.pending ["define", signature, body] (s.child root).1)).runOn (s.child root).2 =
      (.ok (definingTuple signature body (home.getD (s.child root).1) (s.child root).1),
        (s.child root).2) := by
  rw [step, runOn_expand_form (by decide +kernel) (readAtom_define hc hd)]
  rfl

theorem runOn_step_definingTuple {signature : String} (hw : d.WrittenAs line signature)
    (scope h : Handle) (s : Store) :
    (step (definingTuple signature d.body scope h)).runOn s =
      (.ok .void, s.defineAround scope d.name (d.procedure scope)) := by
  obtain ⟨-, ho, hm, hname, hparams⟩ := hw
  apply runOn_step_define
  have hnames : Form.names signature = .ok (d.name :: d.params) := by
    rw [Form.names, hm]
    rfl
  have hcheck : Form.define.checkParams d.params = .ok d.params := by
    rw [Form.checkParams, hparams]
  simp only [tupleMove, Form.move, Expr.tupleSource?, Expr.source?, Option.filter, ho, if_true,
    Form.defineProcedure, Form.body, hnames]
  simp [bind, Except.bind, hname, hcheck, Definition.procedure, pure, Except.pure]

/-! ## What the line comes to -/

namespace Session

/-- What a definition comes to: the tuple is its one state to be shown, and it takes two steps. -/
def definitionAnswer (showSteps : Bool) (limit : Nat) (text : String) (sink : Sink) :
    Except Error Unit × Sink :=
  match if showSteps && decide (0 < limit) then emit sink text else (.ok (), sink) with
  | (.error err, sink) => (.error err, sink)
  | (.ok (), sink) =>
    (if limit < 2 then .error (.evaluation (.stepLimit limit)) else .ok (), sink)

/-- The value alone: two steps lead to `void`. -/
theorem reduce_of_definition {signature : String} (hc : s.Closed root) (hd : s.Defines root home)
    (hw : d.WrittenAs line signature) (limit : Nat) :
    reduce limit (.pending ["define", signature, d.body] (s.child root).1) (s.child root).2 =
      (if limit < 2 then .error (.evaluation (.stepLimit limit)) else .ok .void,
        s.withDefinition root home d (decide (2 ≤ limit))) := by
  have hexpand := runOn_step_pending hc hd signature d.body
  have hdefine := runOn_step_definingTuple hw (home.getD (s.child root).1) (s.child root).1
    (s.child root).2
  rcases limit with - | - | limit
  · rfl
  · simp only [reduce, reduceWithin, Expr.isValue, Bool.false_eq_true, if_false, hexpand]
    rfl
  · rw [reduce, reduceWithin_of_runs _ (.step rfl hexpand (.step rfl hdefine (.value rfl))) (by omega),
      if_neg (by omega)]
    rfl

/-- Every step: the tuple is shown, unless no step can be taken. -/
theorem showTrace_of_definition {signature : String} (hc : s.Closed root) (hd : s.Defines root home)
    (hw : d.WrittenAs line signature) (limit : Nat) (sink : Sink) :
    ∃ result sink', definitionAnswer true limit (definingTuple signature d.body root root).text sink =
        (result, sink') ∧
      showTrace (.start limit (.pending ["define", signature, d.body] (s.child root).1)) none sink
        (s.child root).2 = (result, sink', s.withDefinition root home d result.isOk) := by
  have hexpand := runOn_step_pending hc hd signature d.body
  have hdefine := runOn_step_definingTuple hw (home.getD (s.child root).1) (s.child root).1
    (s.child root).2
  generalize hT : definingTuple signature d.body (home.getD (s.child root).1) (s.child root).1 = T
    at hexpand hdefine
  have htext : (definingTuple signature d.body root root).text = T.text := by
    rw [← hT]
    rfl
  have hT' : T.isValue = false ∧ isSilent T = false := by
    rw [← hT]
    exact ⟨rfl, rfl⟩
  have hstart : ∀ limit, showTrace
      (.start limit (.pending ["define", signature, d.body] (s.child root).1)) none sink
        (s.child root).2 =
      showTrace ⟨limit, .shown (.pending ["define", signature, d.body] (s.child root).1) limit⟩ none
        sink (s.child root).2 := by
    intro limit
    rw [showTrace_eq]
    rfl
  rw [hstart, showTrace_eq, htext]
  rcases limit with - | limit
  · exact ⟨_, _, rfl, rfl⟩
  · -- the tuple is shown before the definition is carried out
    have hnext : Trace.next ⟨limit + 1, .shown
        (.pending ["define", signature, d.body] (s.child root).1) (limit + 1)⟩ (s.child root).2 =
        (some (.ok T), ⟨limit + 1, .shown T limit⟩, (s.child root).2) := by
      simp only [Trace.next, Expr.isValue, Bool.false_eq_true, if_false, hexpand]
    simp only [hnext, showNext, hT'.2, Bool.false_eq_true, if_false, definitionAnswer, reduceCtorEq]
    rcases emit sink T.text with ⟨err | _, sink'⟩
    · exact ⟨.error err, sink', by simp, rfl⟩
    · rcases limit with - | limit
      · refine ⟨.error (.evaluation (.stepLimit 1)), sink', by simp, ?_⟩
        simp only [showTrace_eq ⟨0 + 1, .shown T 0⟩, Trace.next, hT'.1, Bool.false_eq_true, if_false,
          showNext]
        rfl
      · have hvoid : Trace.next ⟨limit + 1 + 1, .shown T (limit + 1)⟩ (s.child root).2 =
            (some (.ok .void), ⟨limit + 1 + 1, .shown .void limit⟩,
              s.withDefinition root home d true) := by
          simp only [Trace.next, hT'.1, Bool.false_eq_true, if_false, hdefine]
          rfl
        refine ⟨.ok (), sink', by simp, ?_⟩
        simp only [showTrace_eq ⟨limit + 1 + 1, .shown T (limit + 1)⟩, hvoid, showNext, isSilent,
          if_true]
        rw [showTrace_eq]
        rfl

/-- A definition comes to the same in every session in which `define` means the special form. -/
theorem answer_of_definition {signature : String} (hc : s.Closed root) (hd : s.Defines root home)
    (hw : d.WrittenAs line signature) (showSteps : Bool) (sink : Sink) (settings : Settings) :
    ∃ result sink', definitionAnswer showSteps settings.stepLimit
        (definingTuple signature d.body root root).text sink = (result, sink') ∧
      answer showSteps (trim line) sink ⟨s, root, settings⟩ =
        (result, sink', ⟨s.withDefinition root home d result.isOk, root, settings⟩) := by
  have hread : (read (trim line) root).runOn s =
      (.ok (.pending ["define", signature, d.body] (s.child root).1), (s.child root).2) := by
    apply runOn_read_tuple
    · exact opensTuple_of_members hw.1
    · rw [trim_trim]
      exact hw.1
  simp only [answer, Interpreter.read_of_ok _ hread]
  cases showSteps with
  | true =>
    obtain ⟨result, sink', hresult, htrace⟩ :=
      showTrace_of_definition hc hd hw settings.stepLimit sink
    refine ⟨result, sink', hresult, ?_⟩
    simp only [if_true, showReduction, htrace]
  | false =>
    refine ⟨if settings.stepLimit < 2 then .error (.evaluation (.stepLimit settings.stepLimit))
      else .ok (), sink, rfl, ?_⟩
    simp only [Bool.false_eq_true, if_false, showValue, Interpreter.reduce,
      reduce_of_definition hc hd hw]
    by_cases hlimit : settings.stepLimit < 2
    · simp only [if_pos hlimit, decide_eq_false (Nat.not_le.2 hlimit)]
      rfl
    · simp only [if_neg hlimit, decide_eq_true (Nat.not_lt.1 hlimit)]
      rfl

end Session

/-! ## Sessions -/

/-- The schedule under which nothing is ever collected. -/
def Schedule.never : Schedule :=
  ⟨fun _ => 0, false, 0⟩

namespace Session

theorem handleLineUnder_never {session : Session} (hblank : trim line ≠ "")
    (hleave : trim line ≠ leaveCommand) (htoggle : trim line ≠ toggleCommand) {sink sink' : Sink}
    {result : Except Error Unit} {it : Interpreter}
    (h : answer session.showSteps (trim line) sink session.interpreter = (result, sink', it)) :
    session.handleLineUnder .never line sink =
      (result.map fun _ => .proceed, sink', ⟨it, session.showSteps⟩) := by
  have hanswer : answerUnder Schedule.never.beforeStep session.showSteps (trim line) sink
      session.interpreter = (result, sink', it) := by
    rw [← h]
    exact answerUnder_own _ _ _ _
  simp only [handleLineUnder, if_neg hblank, if_neg hleave, if_neg htoggle, hanswer]
  rfl

/-- What a definition comes to, without a collection after it. -/
theorem handleLine_of_definition {signature : String} (hc : s.Closed root)
    (hd : s.Defines root home) (hw : d.WrittenAs line signature) (showSteps : Bool) (sink : Sink)
    (settings : Settings) :
    ∃ result sink', definitionAnswer showSteps settings.stepLimit
        (definingTuple signature d.body root root).text sink = (result, sink') ∧
      handleLineUnder .never ⟨⟨s, root, settings⟩, showSteps⟩ line sink =
        (result.map fun _ => .proceed, sink',
          ⟨⟨s.withDefinition root home d result.isOk, root, settings⟩, showSteps⟩) := by
  obtain ⟨hblank, hleave, htoggle⟩ := hw.not_command
  obtain ⟨result, sink', hresult, hanswer⟩ := answer_of_definition hc hd hw showSteps sink settings
  exact ⟨result, sink', hresult, handleLineUnder_never hblank hleave htoggle hanswer⟩

/-- The line defines a procedure of this name. -/
def DefinesProcedure (line name : String) : Prop :=
  ∃ (d : Definition) (signature : String), d.name = name ∧ d.WrittenAs line signature

/-- Lines that define procedures of different names can change places, as long as `define` means
the special form before and they do not redefine it: they come to the same, and so does every line
after them. -/
theorem outcomes_of_either_order (settings : Settings) (before after : List (String × Sink))
    (a b : String × Sink) (f g : String) (h : Handle)
    (hdefine : ((start settings).after before).interpreter.store.readAtom "define"
      ((start settings).after before).interpreter.global = .ok (.procedure (.form .define h)))
    (ha : DefinesProcedure a.1 f) (hb : DefinesProcedure b.1 g) (hne : f ≠ g) (hf : f ≠ "define")
    (hg : g ≠ "define") :
    ∃ outcomeA outcomeB rest,
      ((start settings).after before).outcomes (a :: b :: after) = outcomeA :: outcomeB :: rest ∧
      ((start settings).after before).outcomes (b :: a :: after) = outcomeB :: outcomeA :: rest := by
  obtain ⟨hc, -⟩ := tidy_after (start settings) (tidy_start settings) before
  generalize (start settings).after before = session at hdefine hc ⊢
  obtain ⟨⟨s, root, settings⟩, showSteps⟩ := session
  obtain ⟨lineA, sinkA⟩ := a
  obtain ⟨lineB, sinkB⟩ := b
  dsimp only at hdefine hc ha hb
  obtain ⟨d, signature, rfl, hw⟩ := ha
  obtain ⟨d', signature', rfl, hw'⟩ := hb
  obtain ⟨home, hd, hhome⟩ := exists_home hc hdefine
  -- without collections both orders can be followed line by line
  have hnever : ∀ inputs, outcomes ⟨⟨s, root, settings⟩, showSteps⟩ inputs =
      outcomesUnder (fun _ => .never) ⟨⟨s, root, settings⟩, showSteps⟩ inputs := by
    intro inputs
    rw [← outcomesUnder_own]
    exact Twin.outcomesUnder_eq (.intro settings showSteps hc.mirrors) _ _ inputs
  obtain ⟨resultA, writtenA, hanswerA, hfirstA⟩ :=
    handleLine_of_definition hc hd hw showSteps sinkA settings
  obtain ⟨resultB, writtenB, hanswerB, hfirstB⟩ :=
    handleLine_of_definition hc hd hw' showSteps sinkB settings
  obtain ⟨_, _, hanswerA', hsecondA⟩ := handleLine_of_definition
    (hc.withDefinition hhome d' resultB.isOk) (hd.withDefinition hc hg resultB.isOk) hw showSteps
    sinkA settings
  obtain ⟨_, _, hanswerB', hsecondB⟩ := handleLine_of_definition
    (hc.withDefinition hhome d resultA.isOk) (hd.withDefinition hc hf resultA.isOk) hw' showSteps
    sinkB settings
  -- what a definition comes to depends on its line and sink only, so it is the same in both places
  cases hanswerA.symm.trans hanswerA'
  cases hanswerB.symm.trans hanswerB'
  have hmirrors := mirrors_of_either_order hc hhome hne resultA.isOk resultB.isOk
  have htwin := Twin.intro settings showSteps hmirrors
  rw [(swapping_old hc hc.live_root).2] at htwin
  have hrest := htwin.outcomesUnder_eq (fun _ => .never) (fun _ => .never) after
  refine ⟨(resultA.map fun _ => .proceed, writtenA), (resultB.map fun _ => .proceed, writtenB),
    outcomesUnder (fun _ => .never) ⟨⟨(s.withDefinition root home d resultA.isOk).withDefinition root
      home d' resultB.isOk, root, settings⟩, showSteps⟩ after, ?_, ?_⟩
  · rw [hnever]
    simp only [outcomesUnder, hfirstA, hsecondB]
  · rw [hnever, hrest]
    simp only [outcomesUnder, hfirstB, hsecondA]

/-- The procedures call each other, and one takes the name of a form. -/
theorem outcomes_of_mutual_definitions :
    ∃ outcomeA outcomeB rest,
      ((start ⟨20, true⟩).after [("(define f true)", .empty none)]).outcomes
        [("(define (f x) (and x (if x)))", .empty none), ("(define (if x) (f x))", .empty none),
          ("(f false)", .empty none), ("(if f)", .empty none)] = outcomeA :: outcomeB :: rest ∧
      ((start ⟨20, true⟩).after [("(define f true)", .empty none)]).outcomes
        [("(define (if x) (f x))", .empty none), ("(define (f x) (and x (if x)))", .empty none),
          ("(f false)", .empty none), ("(if f)", .empty none)] = outcomeB :: outcomeA :: rest := by
  let before := [("(define f true)", Sink.empty none)]
  have hunbound : (((start ⟨20, true⟩).after before).interpreter.store.get?
      ((start ⟨20, true⟩).after before).interpreter.global "define").isNone = true := by
    decide +kernel
  refine outcomes_of_either_order ⟨20, true⟩ before [("(f false)", .empty none), ("(if f)", .empty none)]
    ("(define (f x) (and x (if x)))", .empty none) ("(define (if x) (f x))", .empty none) "f" "if"
    ((start ⟨20, true⟩).after before).interpreter.global ?_
    ⟨⟨"f", ["x"], "(and x (if x))"⟩, "(f x)", rfl, by decide +kernel, by decide +kernel,
      by decide +kernel, by decide +kernel, by decide +kernel⟩
    ⟨⟨"if", ["x"], "(f x)"⟩, "(if x)", rfl, by decide +kernel, by decide +kernel,
      by decide +kernel, by decide +kernel, by decide +kernel⟩
    (by decide) (by decide) (by decide)
  rw [Store.readAtom, Option.isNone_iff_eq_none.1 hunbound]
  rfl

end Session

end Stepwise
