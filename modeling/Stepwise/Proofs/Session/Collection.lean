import Stepwise.Proofs.Renaming.Step
import Stepwise.Proofs.Session.Schedule
/-!
# Collection cannot be observed

Two sessions are twins when their stores mirror each other. Twins answer every line alike, whatever
schedules of collection the two follow, and are twins afterwards (`twin_handleLineUnder`). A fresh
session is its own twin, so no schedule changes what any line comes to.
-/

namespace Stepwise

variable {ε α : Type} {root : Handle} {r : Renaming} {s t : Store}

/-! ## Collections on both sides -/

theorem Mirrors.collectTimes_left (n : Nat) (kept : List Expr) (hm : Mirrors root r s t)
    (hk : ∀ e ∈ kept, r.Knows e) :
    ∃ r', r'.map = r.map ∧ Mirrors root r' (s.collectTimes n root kept) t ∧
      ∀ e ∈ kept, r'.Knows e := by
  induction n generalizing r s with
  | zero => exact ⟨r, rfl, hm, hk⟩
  | succ n ih =>
    obtain ⟨r', hmap, hm', hk'⟩ := ih (hm.collect_left kept) fun e he h hh =>
      ⟨hk e he h hh, .root (List.mem_append_right _ (mem_capturedAll.2 ⟨e, he, hh⟩))⟩
    exact ⟨r', hmap, hm', hk'⟩

theorem Mirrors.collectTimes_right (n : Nat) (kept : List Expr) (hm : Mirrors root r s t)
    (hk : ∀ e ∈ kept, r.Knows e) :
    ∃ r', r'.map = r.map ∧
      Mirrors root r' s (t.collectTimes n (r.map root) (kept.map (Expr.rename r.map))) ∧
      ∀ e ∈ kept, r'.Knows e := by
  induction n generalizing r t with
  | zero => exact ⟨r, rfl, hm, hk⟩
  | succ n ih =>
    have himage : ∀ e ∈ kept, ∀ h ∈ e.captured,
        r.map h ∈ capturedAll (kept.map (Expr.rename r.map)) := by
      intro e he h hh
      refine mem_capturedAll.2 ⟨e.rename r.map, List.mem_map_of_mem he, ?_⟩
      rw [Expr.captured_rename]
      exact List.mem_map_of_mem hh
    obtain ⟨r', hmap, hm', hk'⟩ := ih (hm.collect_right (kept.map (Expr.rename r.map)))
      fun e he h hh => ⟨hk e he h hh, .root (List.mem_append_right _ (himage e he h hh))⟩
    exact ⟨r', hmap, hm', hk'⟩

/-- Collections that keep corresponding expressions keep the stores mirrored. -/
theorem Mirrors.collectTimes (m n : Nat) (kept : List Expr) (hm : Mirrors root r s t)
    (hk : ∀ e ∈ kept, r.Knows e) :
    ∃ r', r'.map = r.map ∧ Mirrors root r' (s.collectTimes m root kept)
      (t.collectTimes n (r.map root) (kept.map (Expr.rename r.map))) ∧ ∀ e ∈ kept, r'.Knows e := by
  obtain ⟨r', hmap, hm', hk'⟩ := hm.collectTimes_left m kept hk
  obtain ⟨r'', hmap', hm'', hk''⟩ := hm'.collectTimes_right n kept hk'
  rw [hmap] at hm'' hmap'
  exact ⟨r'', hmap', hm'', hk''⟩

/-! ## Reducing on both sides -/

/-- The stores that two runs leave mirror each other, although scopes may be gone from them. -/
def Concur (root image : Handle) (s t : Store) (Q : Renaming → Prop) : Prop :=
  ∃ r, r.map root = image ∧ Mirrors root r s t ∧ Q r

theorem concur_reduceUnder (plan plan' : Nat → Nat) (limit left : Nat) (e : Expr)
    (hm : Mirrors root r s t) (he : r.Knows e) :
    Concur root (r.map root) (reduceUnder plan root limit left e s).2
      (reduceUnder plan' (r.map root) limit left (e.rename r.map) t).2 fun r' =>
      Corresponds r'.Matches (reduceUnder plan root limit left e s).1
        (reduceUnder plan' (r.map root) limit left (e.rename r.map) t).1 := by
  induction left generalizing plan plan' e r s t with
  | zero =>
    obtain ⟨r', hmap, hm', hk'⟩ := hm.collectTimes (plan 0) (plan' 0) [e] (by simpa using he)
    simp only [reduceUnder, Expr.isValue_rename]
    split
    · exact ⟨r', by rw [hmap], hm', .ok ⟨by rw [hmap], hk' e (by simp)⟩⟩
    · exact ⟨r', by rw [hmap], hm', .error _⟩
  | succ left ih =>
    obtain ⟨r', hmap, hm', hk'⟩ := hm.collectTimes (plan 0) (plan' 0) [e] (by simpa using he)
    simp only [reduceUnder, Expr.isValue_rename]
    split
    · exact ⟨r', by rw [hmap], hm', .ok ⟨by rw [hmap], hk' e (by simp)⟩⟩
    · obtain ⟨r'', hext, hm'', -, hc⟩ := agree_step e hm' (hk' e (by simp))
      have hroot : r''.map root = r.map root := by rw [(hext root hm'.known_root).2, hmap]
      rw [hmap] at hm'' hc
      simp only [List.map_cons, List.map_nil] at hm'' hc ⊢
      generalize (step e).runOn (s.collectTimes (plan 0) root [e]) = x at hm'' hc ⊢
      generalize (step (e.rename r.map)).runOn
        (t.collectTimes (plan' 0) (r.map root) [e.rename r.map]) = y at hm'' hc ⊢
      obtain ⟨x, s'⟩ := x
      obtain ⟨y, t'⟩ := y
      cases hc with
      | error err => exact ⟨r'', hroot, hm'', .error err⟩
      | ok hxy =>
        obtain ⟨rfl, hk⟩ := hxy
        rw [← hroot]
        exact ih (later plan) (later plan') _ hm'' hk

/-! ## Showing on both sides -/

def Trace.rename (f : Handle → Handle) (trace : Trace) : Trace :=
  match trace.progress with
  | .fresh e => ⟨trace.limit, .fresh (e.rename f)⟩
  | .shown e left => ⟨trace.limit, .shown (e.rename f) left⟩
  | .finished => ⟨trace.limit, .finished⟩

theorem Trace.current_rename (f : Handle → Handle) (trace : Trace) :
    (trace.rename f).current = trace.current.map (Expr.rename f) := by
  obtain ⟨limit, progress⟩ := trace
  cases progress <;> rfl

/-- The next state of one reduction corresponds to that of another. -/
inductive Follows (root : Handle) (r : Renaming) (s t : Store) :
    Option (Except Error Expr) × Trace × Store → Option (Except Error Expr) × Trace × Store → Prop
  | ended (trace trace' : Trace) : Follows root r s t (none, trace, s) (none, trace', t)
  | failed (err : Error) (trace trace' : Trace) :
    Follows root r s t (some (.error err), trace, s) (some (.error err), trace', t)
  | state (e : Expr) (trace : Trace) : (∀ x ∈ trace.current, r.Knows x) →
    Follows root r s t (some (.ok e), trace, s) (some (.ok (e.rename r.map)), trace.rename r.map, t)

theorem follows_next (trace : Trace) (hm : Mirrors root r s t)
    (hk : ∀ e ∈ trace.current, r.Knows e) :
    ∃ r' s' t', r.Extends r' ∧ Mirrors root r' s' t' ∧
      Follows root r' s' t' (trace.next s) ((trace.rename r.map).next t) := by
  obtain ⟨limit, progress⟩ := trace
  cases progress with
  | fresh e => exact ⟨r, s, t, .refl r, hm, .state e ⟨limit, .shown e limit⟩ hk⟩
  | finished => exact ⟨r, s, t, .refl r, hm, .ended _ _⟩
  | shown e left =>
    simp only [Trace.next, Trace.rename, Expr.isValue_rename]
    split
    · exact ⟨r, s, t, .refl r, hm, .ended _ _⟩
    · cases left with
      | zero => exact ⟨r, s, t, .refl r, hm, .failed _ _ _⟩
      | succ left =>
        obtain ⟨r', hext, hm', -, hc⟩ := agree_step e hm (hk e (by simp [Trace.current]))
        generalize (step e).runOn s = x at hm' hc ⊢
        generalize (step (e.rename r.map)).runOn t = y at hm' hc ⊢
        obtain ⟨x, s'⟩ := x
        obtain ⟨y, t'⟩ := y
        refine ⟨r', s', t', hext, hm', ?_⟩
        cases hc with
        | error err => exact .failed _ _ _
        | ok hxy =>
          obtain ⟨rfl, hkx⟩ := hxy
          exact .state _ ⟨limit, .shown _ left⟩ (by simpa [Trace.current] using hkx)

namespace Session

theorem isSilent_rename (f : Handle → Handle) (e : Expr) : isSilent (e.rename f) = isSilent e := by
  cases e <;> rfl

theorem concur_showTraceUnder (plan plan' : Nat → Nat) (trace : Trace) (last : Option String)
    (sink : Sink) (hm : Mirrors root r s t) (hk : ∀ e ∈ trace.current, r.Knows e) :
    ∃ result sink' s' t',
      showTraceUnder plan root trace last sink s = (result, sink', s') ∧
      showTraceUnder plan' (r.map root) (trace.rename r.map) last sink t = (result, sink', t') ∧
      Concur root (r.map root) s' t' fun _ => True := by
  -- on the states still to come; the renaming changes with every state, its image of `root` stays
  induction hn : trace.remaining using Nat.strongRecOn
    generalizing plan plan' trace last sink r s t with
  | ind n ih =>
    rw [showTraceUnder_eq, showTraceUnder_eq, Trace.current_rename]
    obtain ⟨r', hmap, hm', hk'⟩ := hm.collectTimes (plan 0) (plan' 0) trace.current hk
    obtain ⟨r'', s'', t'', hext, hm'', hf⟩ := follows_next trace hm' hk'
    have hroot : r''.map root = r.map root := by rw [(hext root hm'.known_root).2, hmap]
    rw [hmap] at hf
    generalize hx : trace.next _ = x at hf ⊢
    generalize (trace.rename r.map).next _ = y at hf ⊢
    cases hf with
    | ended => exact ⟨_, _, _, _, rfl, rfl, r'', hroot, hm'', trivial⟩
    | failed err => exact ⟨_, _, _, _, rfl, rfl, r'', hroot, hm'', trivial⟩
    | state e next hknow =>
      have hrest := fun last sink => ih _ (hn ▸ Trace.remaining_next_lt hx) (later plan)
        (later plan') next last sink hm'' hknow rfl
      rw [hroot] at hrest
      simp only [showNext, isSilent_rename, Expr.text_rename]
      split
      · exact hrest last sink
      · split
        · exact hrest last sink
        · rcases emit sink e.text with ⟨err | _, sink'⟩
          · exact ⟨_, _, _, _, rfl, rfl, r'', hroot, hm'', trivial⟩
          · exact hrest (some e.text) sink'

theorem concur_showValueUnder (plan plan' : Nat → Nat) (settings : Settings) (e : Expr)
    (sink : Sink) (hm : Mirrors root r s t) (hk : r.Knows e) :
    ∃ result sink' s' t',
      showValueUnder plan e sink ⟨s, root, settings⟩ = (result, sink', ⟨s', root, settings⟩) ∧
      showValueUnder plan' (e.rename r.map) sink ⟨t, r.map root, settings⟩ =
        (result, sink', ⟨t', r.map root, settings⟩) ∧
      Concur root (r.map root) s' t' fun _ => True := by
  obtain ⟨r', hroot, hm', hc⟩ :=
    concur_reduceUnder plan plan' settings.stepLimit settings.stepLimit e hm hk
  simp only [showValueUnder]
  generalize reduceUnder plan root settings.stepLimit settings.stepLimit e s = x at hm' hc ⊢
  generalize reduceUnder plan' (r.map root) settings.stepLimit settings.stepLimit
    (e.rename r.map) t = y at hm' hc ⊢
  obtain ⟨x, s'⟩ := x
  obtain ⟨y, t'⟩ := y
  cases hc with
  | error err => exact ⟨_, _, _, _, rfl, rfl, r', hroot, hm', trivial⟩
  | @ok v _ hv =>
    obtain ⟨rfl, -⟩ := hv
    have htext : (v.rename r'.map).text = v.text := v.text_rename
    cases v with
    | void => exact ⟨_, _, _, _, rfl, rfl, r', hroot, hm', trivial⟩
    | _ =>
      refine ⟨_, _, _, _, rfl, ?_, r', hroot, hm', trivial⟩
      rw [← htext]
      rfl

theorem concur_answerUnder (plan plan' : Nat → Nat) (showSteps : Bool) (source : String)
    (sink : Sink) (settings : Settings) (hm : Mirrors root r s t) :
    ∃ result sink' s' t',
      answerUnder plan showSteps source sink ⟨s, root, settings⟩ =
        (result, sink', ⟨s', root, settings⟩) ∧
      answerUnder plan' showSteps source sink ⟨t, r.map root, settings⟩ =
        (result, sink', ⟨t', r.map root, settings⟩) ∧
      Concur root (r.map root) s' t' fun _ => True := by
  obtain ⟨r', hext, hm', -, hc⟩ := agree_read hm hm.known_root source
  have hroot := (hext root hm.known_root).2
  generalize hx : (read source root).runOn s = x at hm' hc
  generalize hy : (read source (r.map root)).runOn t = y at hm' hc
  obtain ⟨x, s'⟩ := x
  obtain ⟨y, t'⟩ := y
  cases hc with
  | error err =>
    simp only [answerUnder, Interpreter.read_of_error settings hx,
      Interpreter.read_of_error settings hy]
    exact ⟨_, _, _, _, rfl, rfl, r', hroot, hm', trivial⟩
  | @ok e _ he =>
    obtain ⟨⟨rfl, hk⟩, -⟩ := he
    simp only [answerUnder, Interpreter.read_of_ok settings hx, Interpreter.read_of_ok settings hy]
    rw [← hroot]
    split
    · obtain ⟨result, sink', s'', t'', hx, hy, hcon⟩ := concur_showTraceUnder plan plan'
        (.start settings.stepLimit e) none sink hm' (by simpa [Trace.current, Trace.start] using hk)
      refine ⟨result, sink', s'', t'', ?_, ?_, hcon⟩
      · simp only [showReductionUnder, hx]
      · simp only [showReductionUnder]
        rw [show Trace.start settings.stepLimit (e.rename r'.map) =
          (Trace.start settings.stepLimit e).rename r'.map from rfl, hy]
    · exact concur_showValueUnder plan plan' settings e sink hm' hk

/-! ## Twins -/

/-- The sessions differ only in where their scopes are, and in scopes that cannot be reached. -/
inductive Twin : Session → Session → Prop
  | intro {root : Handle} {r : Renaming} {s t : Store} (settings : Settings) (showSteps : Bool) :
    Mirrors root r s t →
    Twin ⟨⟨s, root, settings⟩, showSteps⟩ ⟨⟨t, r.map root, settings⟩, showSteps⟩

theorem Twin.collectTimes {a b : Session} (h : Twin a b) (m n : Nat) :
    Twin (a.collectTimes m) (b.collectTimes n) := by
  cases h with
  | intro settings showSteps hm =>
    rename_i root r s t
    obtain ⟨r', hmap, hm', -⟩ := hm.collectTimes m n [] (by simp)
    have htwin := Twin.intro settings showSteps hm'
    rw [hmap] at htwin
    exact htwin

theorem Twin.toggle {a b : Session} (h : Twin a b) :
    Twin { a with showSteps := !a.showSteps } { b with showSteps := !b.showSteps } := by
  cases h with
  | intro settings showSteps hm => exact .intro settings (!showSteps) hm

theorem collectTimes_eq_collect (it : Interpreter) (showSteps atEnd : Bool) :
    (⟨if atEnd then (it.collect []).2 else it, showSteps⟩ : Session) =
      collectTimes ⟨it, showSteps⟩ (if atEnd then 1 else 0) := by
  cases atEnd <;> rfl

/-- Twins handle a line alike, each under a schedule of its own. -/
theorem twin_handleLineUnder {a b : Session} (h : Twin a b) (schedule schedule' : Schedule)
    (line : String) (sink : Sink) :
    ∃ result sink' a' b', a.handleLineUnder schedule line sink = (result, sink', a') ∧
      b.handleLineUnder schedule' line sink = (result, sink', b') ∧ Twin a' b' := by
  unfold handleLineUnder
  simp only
  split
  · exact ⟨_, _, _, _, rfl, rfl, h.collectTimes _ _⟩
  · split
    · exact ⟨_, _, _, _, rfl, rfl, h.collectTimes _ _⟩
    · split
      · exact ⟨_, _, _, _, rfl, rfl, h.toggle.collectTimes _ _⟩
      · cases h with
        | intro settings showSteps hm =>
          obtain ⟨result, sink', s', t', hx, hy, r', hroot, hm', -⟩ :=
            concur_answerUnder schedule.beforeStep schedule'.beforeStep showSteps (trim line) sink
              settings hm
          have htwin := Twin.intro settings showSteps hm'
          rw [hroot] at htwin
          simp only [hx, hy, collectTimes_eq_collect]
          exact ⟨_, _, _, _, rfl, rfl, (htwin.collectTimes _ _).collectTimes _ _⟩

theorem Twin.outcomesUnder_eq {a b : Session} (h : Twin a b) (schedules schedules' : Nat → Schedule)
    (inputs : List (String × Sink)) :
    a.outcomesUnder schedules inputs = b.outcomesUnder schedules' inputs := by
  induction inputs generalizing a b schedules schedules' with
  | nil => rfl
  | cons input rest ih =>
    obtain ⟨line, sink⟩ := input
    obtain ⟨result, sink', a', b', hx, hy, h'⟩ :=
      twin_handleLineUnder h (schedules 0) (schedules' 0) line sink
    simp only [outcomesUnder, hx, hy, ih h' (fun n => schedules (n + 1)) fun n => schedules' (n + 1)]

/-! ## From the start -/

/-- No schedule of collection changes what the lines of a session come to. -/
theorem outcomes_of_any_schedule (settings : Settings) (schedules : Nat → Schedule)
    (inputs : List (String × Sink)) :
    (start settings).outcomesUnder schedules inputs = (start settings).outcomes inputs := by
  rw [← outcomesUnder_own]
  exact Twin.outcomesUnder_eq (.intro settings settings.showSteps Store.closed_root.mirrors) _ _ _

end Session

end Stepwise
