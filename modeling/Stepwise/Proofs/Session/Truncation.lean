import Stepwise.Proofs.Session.Liveness
import Stepwise.Proofs.Session.Modes
/-!
# A full sink only cuts the output short

A sink with room for `c` bytes is compared with one that takes everything. As long as what is
written fits, a line is handled in the same way with both. Where it does not fit, the line ends with
the error of the sink, and the sink holds the first `c` bytes of what the other would have got
(`CutShort`). The scopes are collected in either case.
-/

namespace Stepwise

variable {α β : Type} {c : Nat} {sink : Sink}

/-! ## One write -/

namespace Sink

/-- The sink with room for `c` bytes in all. -/
def limited (sink : Sink) (c : Nat) : Sink :=
  { sink with capacity := some c }

@[simp]
theorem written_limited (sink : Sink) (c : Nat) : (sink.limited c).written = sink.written :=
  rfl

theorem written_withLines_single (sink : Sink) (text : String) :
    (sink.withLines [text]).written = sink.written ++ (text ++ "\n").toUTF8 :=
  rfl

/-- A write adds to what is there. -/
theorem exists_written_write (sink : Sink) (text : String) :
    ∃ more, (sink.write text).2.written = sink.written ++ more := by
  simp only [write]
  split
  · exact ⟨_, rfl⟩
  · exact ⟨_, rfl⟩

end Sink

theorem extract_of_size_le {a : ByteArray} (h : a.size ≤ c) : a.extract 0 c = a := by
  have hmax := ByteArray.extract_zero_max_size (a := a) (i := c)
  rwa [Nat.max_eq_left h] at hmax

/-- The first bytes do not depend on what is added behind them. -/
theorem extract_append_of_le {a : ByteArray} (more : ByteArray) (h : c ≤ a.size) :
    (a ++ more).extract 0 c = a.extract 0 c := by
  rw [ByteArray.extract_append, Nat.sub_eq_zero_of_le h, Nat.zero_sub, ByteArray.extract_same]
  exact ByteArray.append_empty

namespace Session

theorem exists_written_emit (sink : Sink) (text : String) :
    ∃ more, (emit sink text).2.written = sink.written ++ more :=
  sink.exists_written_write (text ++ "\n")

/-- A line that fits is written. -/
theorem emit_of_fits {text : String} (h : (sink.withLines [text]).written.size ≤ c) :
    emit (sink.limited c) text = (.ok (), (sink.withLines [text]).limited c) := by
  rw [Sink.written_withLines_single, ByteArray.size_append] at h
  have hroom : (sink.limited c).room (text ++ "\n").toUTF8.size = (text ++ "\n").toUTF8.size := by
    simp only [Sink.room, Sink.limited]
    omega
  simp only [emit, Sink.writeLine, Sink.write, hroom, if_true]
  rfl

/-- Of a line that does not fit, the sink keeps what does. -/
theorem emit_of_full {text : String} (hc : sink.written.size ≤ c)
    (h : c < (sink.withLines [text]).written.size) :
    ∃ sink', emit (sink.limited c) text = (.error (.stream .full), sink') ∧
      sink'.written = (sink.withLines [text]).written.extract 0 c := by
  rw [Sink.written_withLines_single, ByteArray.size_append] at h
  have hroom : (sink.limited c).room (text ++ "\n").toUTF8.size = c - sink.written.size := by
    simp only [Sink.room, Sink.limited]
    omega
  have hne : ¬ c - sink.written.size = (text ++ "\n").toUTF8.size := by omega
  refine ⟨_, by simp only [emit, Sink.writeLine, Sink.write, hroom, if_neg hne]; rfl, ?_⟩
  rw [Sink.written_withLines_single, ByteArray.extract_append, extract_of_size_le hc, Nat.zero_sub]
  rfl

end Session

/-! ## Outcomes -/

/-- What comes about with room for `c` bytes, and what comes about with room for everything. -/
inductive CutShort (c : Nat) (x y : Except Error α × Sink × β) : Prop
  | fits : y.2.1.written.size ≤ c → x.1 = y.1 → x.2.1.written = y.2.1.written → x.2.2 = y.2.2 →
      CutShort c x y
  | full : c < y.2.1.written.size → x.1 = .error (.stream .full) →
      x.2.1.written = y.2.1.written.extract 0 c → CutShort c x y

namespace CutShort

/-- When nothing is written, the two do not differ. -/
theorem silent (hc : sink.written.size ≤ c) (r : Except Error α) (b : β) :
    CutShort c (r, sink.limited c, b) (r, sink, b) :=
  .fits hc rfl rfl rfl

variable {x y : Except Error α × Sink × β}

theorem mapResult {α' : Type} (h : CutShort c x y) (f : α → α') :
    CutShort c (x.1.map f, x.2) (y.1.map f, y.2) := by
  cases h with
  | fits hc hr hw hb => exact .fits hc (by rw [hr]) hw hb
  | full hc hr hw => exact .full hc (by rw [hr]; rfl) hw

theorem mapState {β' : Type} (h : CutShort c x y) (g : β → β') :
    CutShort c (x.1, x.2.1, g x.2.2) (y.1, y.2.1, g y.2.2) := by
  cases h with
  | fits hc hr hw hb => exact .fits hc hr hw (by rw [hb])
  | full hc hr hw => exact .full hc hr hw

theorem written_eq (h : CutShort c x y) :
    x.2.1.written = y.2.1.written.extract 0 (min c y.2.1.written.size) := by
  cases h with
  | fits hc _ hw _ => rw [hw, Nat.min_eq_right hc, extract_of_size_le (Nat.le_refl _)]
  | full hc _ hw => rw [hw, Nat.min_eq_left (Nat.le_of_lt hc)]

theorem of_fits (h : CutShort c x y) (hc : y.2.1.written.size ≤ c) : x.1 = y.1 ∧ x.2.2 = y.2.2 := by
  cases h with
  | fits _ hr _ hb => exact ⟨hr, hb⟩
  | full hlt => exact (Nat.not_lt.2 hc hlt).elim

theorem of_full (h : CutShort c x y) (hlt : c < y.2.1.written.size) :
    x.1 = .error (.stream .full) := by
  cases h with
  | fits hc => exact (Nat.not_lt.2 hc hlt).elim
  | full _ hr => exact hr

end CutShort

namespace Session

/-- A line is written and handling goes on with `next`; or it does not fit, and then nothing that
the other sink gets behind it matters. -/
theorem cutShort_emit (text : String) (next : Sink → Except Error Unit × Sink × β) (b : β)
    (hw : sink.capacity = none) (hc : sink.written.size ≤ c)
    (hgrows : ∃ more, (next (sink.withLines [text])).2.1.written =
      (sink.withLines [text]).written ++ more)
    (hnext : (sink.withLines [text]).written.size ≤ c →
      CutShort c (next ((sink.withLines [text]).limited c)) (next (sink.withLines [text]))) :
    CutShort c
      (match emit (sink.limited c) text with
        | (.ok (), sink) => next sink
        | (.error err, sink) => (.error err, sink, b))
      (match emit sink text with
        | (.ok (), sink) => next sink
        | (.error err, sink) => (.error err, sink, b)) := by
  rw [emit_of_unlimited hw]
  by_cases hlt : c < (sink.withLines [text]).written.size
  · obtain ⟨sink', hemit, hwritten⟩ := emit_of_full hc hlt
    obtain ⟨more, hmore⟩ := hgrows
    rw [hemit]
    refine .full ?_ rfl ?_
    · rw [hmore, ByteArray.size_append]
      omega
    · rw [hmore, extract_append_of_le more (by omega)]
      exact hwritten
  · rw [emit_of_fits (by omega)]
    exact hnext (by omega)

/-! ## Every step -/

/-- Showing a reduction adds to what is there. -/
theorem exists_written_showTrace (trace : Trace) (last : Option String) (sink : Sink)
    (store : Store) :
    ∃ more, (showTrace trace last sink store).2.1.written = sink.written ++ more := by
  induction hn : trace.remaining using Nat.strongRecOn generalizing trace last sink store with
  | ind n ih =>
    rw [showTrace_eq]
    rcases hx : trace.next store with ⟨_ | ⟨err | e⟩, trace', store'⟩
    · exact ⟨.empty, ByteArray.append_empty.symm⟩
    · exact ⟨.empty, ByteArray.append_empty.symm⟩
    · have hrest := fun last sink =>
        ih _ (hn ▸ Trace.remaining_next_lt hx) trace' last sink store' rfl
      simp only [showNext]
      split
      · exact hrest last sink
      · split
        · exact hrest last sink
        · obtain ⟨more, hmore⟩ := exists_written_emit sink e.text
          rcases hemit : emit sink e.text with ⟨err | _, sink'⟩
          all_goals rw [hemit] at hmore
          · exact ⟨more, hmore⟩
          · obtain ⟨rest, hwritten⟩ := hrest (some e.text) sink'
            exact ⟨more ++ rest, by rw [hwritten, hmore, ByteArray.append_assoc]⟩

theorem cutShort_showTrace (trace : Trace) (last : Option String) (store : Store)
    (hw : sink.capacity = none) (hc : sink.written.size ≤ c) :
    CutShort c (showTrace trace last (sink.limited c) store) (showTrace trace last sink store) := by
  -- the two sinks hold the same until the first line that does not fit
  induction hn : trace.remaining using Nat.strongRecOn generalizing trace last sink store with
  | ind n ih =>
    rw [showTrace_eq, showTrace_eq]
    rcases hx : trace.next store with ⟨_ | ⟨err | e⟩, trace', store'⟩
    · exact .silent hc _ _
    · exact .silent hc _ _
    · have hrest := fun last {sink : Sink} (hw : sink.capacity = none) hc =>
        ih _ (hn ▸ Trace.remaining_next_lt hx) trace' last store' hw hc rfl
      simp only [showNext]
      split
      · exact hrest last hw hc
      · split
        · exact hrest last hw hc
        · exact cutShort_emit e.text (showTrace trace' (some e.text) · store') store' hw hc
            (exists_written_showTrace _ _ _ _) fun hfits => hrest (some e.text) hw hfits

/-! ## Lines -/

theorem cutShort_showValue (e : Expr) (it : Interpreter) (hw : sink.capacity = none)
    (hc : sink.written.size ≤ c) :
    CutShort c (showValue e (sink.limited c) it) (showValue e sink it) := by
  have hshow : ∀ (text : String) (it : Interpreter),
      CutShort c ((emit (sink.limited c) text).1, (emit (sink.limited c) text).2, it)
        ((emit sink text).1, (emit sink text).2, it) := by
    intro text it
    have hemit := cutShort_emit text (fun sink => (.ok (), sink, it)) it hw hc
      ⟨.empty, ByteArray.append_empty.symm⟩ fun hfits => .silent hfits _ _
    generalize emit (sink.limited c) text = narrow at hemit ⊢
    generalize emit sink text = wide at hemit ⊢
    obtain ⟨err | _, sink'⟩ := narrow
    all_goals
      obtain ⟨err' | _, sink''⟩ := wide
      · exact hemit
      · exact hemit
  rw [showValue, showValue]
  rcases it.reduce e with ⟨err | v, it'⟩
  · exact .silent hc _ _
  · cases v with
    | void => exact .silent hc _ _
    | _ => exact hshow _ it'

theorem cutShort_answer (showSteps : Bool) (source : String) (it : Interpreter)
    (hw : sink.capacity = none) (hc : sink.written.size ≤ c) :
    CutShort c (answer showSteps source (sink.limited c) it) (answer showSteps source sink it) := by
  rw [answer, answer]
  rcases it.read source with ⟨err | e, it'⟩
  · exact .silent hc _ _
  · cases showSteps with
    | false => exact cutShort_showValue e it' hw hc
    | true =>
      obtain ⟨store, global, settings⟩ := it'
      have htrace := cutShort_showTrace (.start settings.stepLimit e) none store hw hc
      exact htrace.mapState fun store => (⟨store, global, settings⟩ : Interpreter)

/-- A line is handled in the same way as long as the sink has room. -/
theorem cutShort_handleLine (session : Session) (line : String) (sink : Sink)
    (hw : sink.capacity = none) (hc : sink.written.size ≤ c) :
    CutShort c (session.handleLine line (sink.limited c)) (session.handleLine line sink) := by
  by_cases hblank : trim line = ""
  · simp only [handleLine, hblank, if_true]
    exact .silent hc _ _
  · by_cases hleave : trim line = leaveCommand
    · simp only [handleLine, if_neg hblank, if_pos hleave]
      exact .silent hc _ _
    · by_cases htoggle : trim line = toggleCommand
      · simp only [handleLine, if_neg hblank, if_neg hleave, if_pos htoggle]
        exact .silent hc _ _
      · have hanswer := cutShort_answer session.showSteps (trim line) session.interpreter hw hc
        simp only [handleLine, if_neg hblank, if_neg hleave, if_neg htoggle]
        generalize answer session.showSteps (trim line) sink session.interpreter = y at hanswer ⊢
        generalize answer session.showSteps (trim line) (sink.limited c) session.interpreter = x
          at hanswer ⊢
        have hcollect := hanswer.mapState fun it =>
          (⟨(it.collect []).2, session.showSteps⟩ : Session)
        exact hcollect.mapResult fun _ => Control.proceed

/-- Where only values are shown, the sink has no part in what becomes of the session. -/
theorem handleLine_of_plain (it : Interpreter) (line : String) (sink sink' : Sink) :
    ((⟨it, false⟩ : Session).handleLine line sink).2.2 =
      ((⟨it, false⟩ : Session).handleLine line sink').2.2 := by
  have hanswer : ∀ sink, (answer false (trim line) sink it).2.2 =
      (it.readAndReduce (trim line)).2 := by
    intro sink
    rw [answer, Interpreter.readAndReduce]
    rcases it.read (trim line) with ⟨err | e, it'⟩
    · rfl
    · simp only [Bool.false_eq_true, if_false, showValue]
      rcases it'.reduce e with ⟨err | v, it''⟩
      · rfl
      · cases v <;> rfl
  unfold handleLine
  simp only [hanswer]
  split
  · rfl
  · split
    · rfl
    · split <;> rfl

/-- With room for `c` bytes a line writes the first `c` bytes of what it writes with room for
everything. If that is all of it, nothing else changes; if not, the line fails for want of room.
Either way exactly the scopes are left that the global scope reaches, and where only values are
shown the session goes on from the same state. -/
theorem handleLine_cut_short (settings : Settings) (before : List (String × Sink)) (showSteps : Bool)
    (line : String) (c : Nat) :
    let session : Session := ⟨((start settings).after before).interpreter, showSteps⟩
    let whole := session.handleLine line (.empty none)
    let cut := session.handleLine line (.empty (some c))
    let output := whole.2.1.written
    cut.2.1.written = output.extract 0 (min c output.size) ∧
      (output.size ≤ c → cut.1 = whole.1 ∧ cut.2.2 = whole.2.2) ∧
      (c < output.size → cut.1 = .error (.stream .full)) ∧
      (∀ x ∈ [whole.2.2.interpreter, cut.2.2.interpreter],
        ∀ h, x.store.isLive h = true ↔ x.store.Reaches [x.global] h) ∧
      (showSteps = false → cut.2.2 = whole.2.2) := by
  have htidy := tidy_after (.start settings) (tidy_start settings) before
  dsimp only
  generalize ((start settings).after before).interpreter = it at htidy ⊢
  have hcut : CutShort c ((⟨it, showSteps⟩ : Session).handleLine line (.empty (some c)))
      ((⟨it, showSteps⟩ : Session).handleLine line (.empty none)) :=
    cutShort_handleLine ⟨it, showSteps⟩ line (.empty none) rfl (Nat.zero_le c)
  refine ⟨hcut.written_eq, hcut.of_fits, hcut.of_full, ?_, ?_⟩
  · intro x hx
    rcases List.mem_pair.1 hx with rfl | rfl
    · exact (@tidy_handleLine ⟨it, showSteps⟩ htidy line (.empty none)).2
    · exact (@tidy_handleLine ⟨it, showSteps⟩ htidy line (.empty (some c))).2
  · rintro rfl
    exact handleLine_of_plain it line (.empty (some c)) (.empty none)

end Session

end Stepwise
