import Stepwise.Proofs.Eval.Runs
import Stepwise.Proofs.Layout.Step
import Stepwise.Proofs.WellFormed.Session
/-!
# Sessions that differ in layout

Lines that are made of the same atoms in the same tuples come to the same, however they are laid
out: each is evaluated like its own normal layout (`shown_normal`), and lines that differ in layout
only have one normal layout between them.
-/

namespace Stepwise

variable {allowed : String → Prop} {s : Store} {e : Expr} {source : String} {it it' : Interpreter}

/-! ## Lines -/

/-- All names but that of `equal?`, which sees the layout of procedures' bodies. -/
def IsLayoutBlind (name : String) : Prop :=
  name ≠ Builtin.isEqual.name

theorem not_isLayoutBlind : ¬ IsLayoutBlind Builtin.isEqual.name :=
  fun hne => hne rfl

/-- The lines differ in layout only, and the name `equal?` does not occur in them: they are one
atom but for the blanks around it, or they are tuples with the same tree but for the style of
brackets. -/
inductive SameLine : String → String → Prop
  | atom {line line' : String} : opensTuple (trim line) = false → trim line' = trim line →
      trim line ≠ Builtin.isEqual.name → SameLine line line'
  | tree {line line' : String} {T T' : Tree} : Token.tree? (trim line) = some T →
      Token.tree? (trim line') = some T' → T'.rounded = T.rounded →
      Builtin.isEqual.name ∉ T.atoms → SameLine line line'

/-- A line that can be read if it opens a bracket, and in which all atoms are allowed. -/
structure WholeLine (allowed : String → Prop) (source : String) : Prop extends
    LineOf allowed source where
  whole : opensTuple (trim source) = true → ∃ T, Token.tree? (trim source) = some T

theorem wholeLine_of_tree? {T : Tree} (hT : Token.tree? (trim source) = some T)
    (ha : ∀ a ∈ T.atoms, allowed a) : WholeLine allowed source := by
  refine ⟨⟨fun ho => ?_, fun ho ms hms => ?_⟩, fun _ => ⟨T, hT⟩⟩
  · have hl : Bracket.leading? (trim source) = none := by simpa [opensTuple] using ho
    obtain ⟨-, rfl⟩ := Token.isAtom_of_tree? hl hT
    exact ha _ (by simp [Tree.atoms])
  · obtain ⟨style, hl⟩ := Option.isSome_iff_exists.1 ho
    exact Token.wellFormed_of_mem_members hl hT ha hms

namespace SameLine

variable {line line' : String}

theorem symm (h : SameLine line line') : SameLine line' line := by
  cases h with
  | atom ho heq hn => exact .atom (by rw [heq]; exact ho) heq.symm (by rw [heq]; exact hn)
  | tree hT hT' heq ha =>
    refine .tree hT' hT heq.symm ?_
    rw [← Tree.atoms_rounded, heq, Tree.atoms_rounded]
    exact ha

theorem normal_eq (h : SameLine line line') : Token.normal line = Token.normal line' := by
  cases h with
  | atom ho heq _ =>
    rw [Token.normal_of_not_tuple ho, Token.normal_of_not_tuple (by rw [heq]; exact ho), heq]
  | tree hT hT' heq _ => rw [Token.normal_of_tree? hT, Token.normal_of_tree? hT', heq]

theorem wholeLine (h : SameLine line line') : WholeLine IsLayoutBlind line := by
  cases h with
  | atom ho _ hn =>
    refine ⟨⟨fun _ => hn, fun hopen => ?_⟩, fun hopen => ?_⟩
    all_goals
      rw [ho] at hopen
      cases hopen
  | tree hT _ _ ha =>
    refine wholeLine_of_tree? hT fun a hmem => ?_
    rintro rfl
    exact ha hmem

end SameLine

/-! ## One line -/

/-- A line is read as its normal layout is. -/
theorem runOn_read_normal (hl : WholeLine allowed source) (g : Handle) (s : Store) :
    (read (Token.normal source) g).runOn s.normal =
      (((read source g).runOn s).1.map Expr.normal, ((read source g).runOn s).2.normal) := by
  by_cases ho : opensTuple (trim source) = true
  · obtain ⟨style, hstyle⟩ := Option.isSome_iff_exists.1 ho
    obtain ⟨T, hT⟩ := hl.whole ho
    obtain ⟨ms, -, hm, -⟩ := Token.exists_members_of_tree? hstyle hT
    have htokens : ∀ m ∈ ms.map Token.normal, Token.IsToken m.toList := by
      intro m hmem
      obtain ⟨m', hmem', rfl⟩ := List.mem_map.1 hmem
      exact Token.isToken_normal (Token.isToken_of_mem_members hm m' hmem')
    have htrim := Token.trim_of_isToken (Token.isToken_enclose .round htokens)
    rw [Token.normal_of_members hstyle hT hm, runOn_read_tuple ho hm,
      runOn_read_tuple (by rw [htrim, opensTuple, Token.leading?_enclose]; rfl)
        (by rw [htrim]; exact Token.members_enclose .round htokens), Store.child_normal]
    rfl
  · have ho : opensTuple (trim source) = false := by simpa using ho
    have htrim : trim (Token.normal source) = trim source := by
      rw [Token.normal_of_not_tuple ho, trim_trim]
    by_cases hblank : trim source = ""
    · rw [runOn_read_blank hblank, runOn_read_blank (by rw [htrim]; exact hblank)]
      rfl
    · rw [runOn_read_atom hblank ho, runOn_read_atom (by rw [htrim]; exact hblank)
        (by rw [htrim]; exact ho), htrim, readAtom_normal]

theorem tallies_reduceWithin (hequal : ¬ allowed Builtin.isEqual.name) (limit left : Nat)
    (hs : s.WellFormed allowed) (he : e.WellFormed allowed) :
    Tallies Expr.normal (reduceWithin limit left e s)
      (reduceWithin limit left e.normal s.normal) := by
  induction left generalizing e s with
  | zero =>
    unfold reduceWithin
    rw [Expr.isValue_normal]
    split
    · exact ⟨.ok e, rfl⟩
    · exact ⟨.error rfl, rfl⟩
  | succ left ih =>
    unfold reduceWithin
    rw [Expr.isValue_normal]
    split
    · exact ⟨.ok e, rfl⟩
    · have hstep := tallies_step hequal hs he
      have hwell := preserves_step hs he
      generalize (step e).runOn s = x at hstep hwell ⊢
      generalize (step e.normal).runOn s.normal = y at hstep ⊢
      obtain ⟨x, t⟩ := x
      obtain ⟨y, t'⟩ := y
      obtain ⟨hresult, hstore⟩ := hstep
      simp only at hresult hstore
      subst hstore
      cases hresult with
      | error herr => exact ⟨.error herr, rfl⟩
      | ok e' => exact ih hwell.store hwell.result.of_ok

/-- The second interpreter is the first in normal layout, with the same limit on steps. -/
inductive Interpreter.Renders : Interpreter → Interpreter → Prop
  | intro {store : Store} {global : Handle} {settings settings' : Settings} :
      settings'.stepLimit = settings.stepLimit →
      Renders ⟨store, global, settings⟩ ⟨store.normal, global, settings'⟩

theorem Interpreter.Renders.liveCount_eq (h : it.Renders it') :
    it'.store.liveCount = it.store.liveCount := by
  cases h with
  | intro => exact Store.liveCount_normal _

theorem renders_readAndReduce (hequal : ¬ allowed Builtin.isEqual.name)
    (hr : it.Renders it') (hs : it.store.WellFormed allowed) (hl : WholeLine allowed source) :
    Alike Expr.normal (it.readAndReduce source).1 (it'.readAndReduce (Token.normal source)).1 ∧
      (it.readAndReduce source).2.Renders (it'.readAndReduce (Token.normal source)).2 ∧
      ∀ v, (it.readAndReduce source).1 = .ok v → v.isValue = true := by
  obtain @⟨store, global, settings, settings', hlimit⟩ := hr
  have hread := runOn_read_normal hl global store
  have hwell : Yields _ _ _ ((read source global).runOn store) :=
    yields_read hs hl.toLineOf global
  rcases hx : (read source global).runOn store with ⟨err | e, s⟩
  all_goals rw [hx] at hread hwell
  · simp only [Interpreter.readAndReduce, Interpreter.read_of_error settings hx,
      Interpreter.read_of_error settings' hread]
    exact ⟨.error rfl, .intro hlimit, fun v hv => by cases hv⟩
  · simp only [Interpreter.readAndReduce, Interpreter.read_of_ok settings hx,
      Interpreter.read_of_ok settings' hread, Interpreter.reduce, reduce, hlimit]
    have htallies := tallies_reduceWithin hequal settings.stepLimit settings.stepLimit hwell.store
      hwell.result.of_ok
    refine ⟨htallies.result, ?_, fun v hv => isValue_of_reduceWithin hv⟩
    rw [htallies.store]
    exact .intro hlimit

/-- What is seen of a result: the text of a value, or an error but for what it quotes. -/
def seen (result : Except Error Expr) : Except Error String :=
  (result.map Expr.text).mapError Error.unquoted

theorem seen_of_alike {x y : Except Error Expr} (h : Alike Expr.normal x y)
    (hv : ∀ v, x = .ok v → v.isValue = true) : seen y = seen x := by
  cases h with
  | error he => exact congrArg Except.error he
  | ok v => exact congrArg Except.ok (Expr.text_normal (hv v rfl))

/-- A line is evaluated as its normal layout is. -/
theorem renders_evaluate (hequal : ¬ allowed Builtin.isEqual.name) (hr : it.Renders it')
    (hs : it.store.WellFormed allowed) (hl : WholeLine allowed source) :
    seen (it'.evaluate (Token.normal source)).1 = seen (it.evaluate source).1 ∧
      (it.evaluate source).2.Renders (it'.evaluate (Token.normal source)).2 := by
  obtain ⟨halike, hrenders, hvalue⟩ := renders_readAndReduce hequal hr hs hl
  rw [Interpreter.evaluate, Interpreter.evaluate]
  generalize it.readAndReduce source = x at halike hrenders hvalue ⊢
  generalize it'.readAndReduce (Token.normal source) = y at halike hrenders ⊢
  obtain ⟨x, next⟩ := x
  obtain ⟨y, next'⟩ := y
  refine ⟨seen_of_alike halike hvalue, ?_⟩
  have hkept : y.toOption.toList = x.toOption.toList.map Expr.normal := by
    cases halike with
    | error => rfl
    | ok v => rfl
  simp only at hrenders ⊢
  obtain @⟨store, global, settings, settings', hlimit⟩ := hrenders
  simp only [Interpreter.collect, hkept, Store.collect_normal]
  exact .intro hlimit

/-! ## Whole runs -/

/-- What is seen of each line: its result, and how many scopes there are afterwards. -/
def Interpreter.shown (it : Interpreter) : List String → List (Except Error String × Nat)
  | [] => []
  | source :: rest =>
    let (result, next) := it.evaluate source
    (seen result, next.store.liveCount) :: next.shown rest

/-- All lines come to what their normal layout comes to. -/
theorem shown_normal (hequal : ¬ allowed Builtin.isEqual.name) (hr : it.Renders it')
    (hs : it.store.WellFormed allowed) {lines : List String}
    (hl : ∀ line ∈ lines, WholeLine allowed line) :
    it'.shown (lines.map Token.normal) = it.shown lines := by
  induction lines generalizing it it' with
  | nil => rfl
  | cons line rest ih =>
    obtain ⟨hseen, hnext⟩ := renders_evaluate hequal hr hs (hl line (by simp))
    have hwell := wellFormed_evaluate hs (hl line (by simp)).toLineOf
    have hrest := ih hnext hwell fun x hx => hl x (by simp [hx])
    rw [List.map_cons, Interpreter.shown, Interpreter.shown]
    generalize it.evaluate line = x at hseen hnext hrest ⊢
    generalize it'.evaluate (Token.normal line) = y at hseen hnext hrest ⊢
    simp only [hseen, hrest, hnext.liveCount_eq]

theorem wholeLines_of_sameLines {lines lines' : List String}
    (h : List.Forall₂ SameLine lines lines') :
    (∀ line ∈ lines, WholeLine IsLayoutBlind line) ∧
      (∀ line ∈ lines', WholeLine IsLayoutBlind line) ∧
      lines.map Token.normal = lines'.map Token.normal := by
  induction h with
  | nil => simp
  | cons hsame _ ih =>
    obtain ⟨hl, hl', heq⟩ := ih
    refine ⟨?_, ?_, by rw [List.map_cons, List.map_cons, hsame.normal_eq, heq]⟩
    · simpa [hsame.wholeLine] using hl
    · simpa [hsame.symm.wholeLine] using hl'

/-- From a fresh start and with the same limit on steps, lines that differ in layout only come to
the same: values with the same text, or the same error but for the source it quotes, and after each
line there are as many scopes. -/
theorem shown_of_sameLines (settings settings' : Settings)
    (hlimit : settings.stepLimit = settings'.stepLimit) (lines lines' : List String)
    (h : List.Forall₂ SameLine lines lines') :
    (Interpreter.start settings).shown lines = (Interpreter.start settings').shown lines' := by
  obtain ⟨hl, hl', heq⟩ := wholeLines_of_sameLines h
  -- both are compared with one run in normal layout
  let it : Interpreter := ⟨Store.empty.root.2.normal, Store.empty.root.1, settings⟩
  have hleft : (Interpreter.start settings).Renders it := .intro rfl
  have hright : (Interpreter.start settings').Renders it := .intro hlimit
  calc (Interpreter.start settings).shown lines
      = it.shown (lines.map Token.normal) :=
        (shown_normal not_isLayoutBlind hleft wellFormed_root hl).symm
    _ = it.shown (lines'.map Token.normal) := by rw [heq]
    _ = (Interpreter.start settings').shown lines' :=
        shown_normal not_isLayoutBlind hright wellFormed_root hl'

/-- A procedure is defined and called, with blanks and brackets varied. -/
theorem shown_of_varied_lines :
    (Interpreter.start ⟨20, true⟩).shown ["(define (f x) x)", " [f true]"] =
      (Interpreter.start ⟨20, false⟩).shown ["[define  [f x ] x]", "(f  true)"] := by
  have hdefine : Token.tree? "define" = some (.atom "define") :=
    Token.tree?_of_isAtom (by decide +kernel)
  have hf : Token.tree? "f" = some (.atom "f") := Token.tree?_of_isAtom (by decide +kernel)
  have hx : Token.tree? "x" = some (.atom "x") := Token.tree?_of_isAtom (by decide +kernel)
  have htrue : Token.tree? "true" = some (.atom "true") :=
    Token.tree?_of_isAtom (by decide +kernel)
  have hround : Token.tree? "(f x)" = some (.node .round [.atom "f", .atom "x"]) :=
    Token.tree?_of_members ["f", "x"] (by decide +kernel) (by decide +kernel) (by simp [hf, hx])
  have hsquare : Token.tree? "[f x ]" = some (.node .square [.atom "f", .atom "x"]) :=
    Token.tree?_of_members ["f", "x"] (by decide +kernel) (by decide +kernel) (by simp [hf, hx])
  have hdefinition : Token.tree? (trim "(define (f x) x)") =
      some (.node .round [.atom "define", .node .round [.atom "f", .atom "x"], .atom "x"]) :=
    Token.tree?_of_members ["define", "(f x)", "x"] (by decide +kernel) (by decide +kernel)
      (by simp [hdefine, hround, hx])
  have hdefinition' : Token.tree? (trim "[define  [f x ] x]") =
      some (.node .square [.atom "define", .node .square [.atom "f", .atom "x"], .atom "x"]) :=
    Token.tree?_of_members ["define", "[f x ]", "x"] (by decide +kernel) (by decide +kernel)
      (by simp [hdefine, hsquare, hx])
  have hcall : Token.tree? (trim " [f true]") = some (.node .square [.atom "f", .atom "true"]) :=
    Token.tree?_of_members ["f", "true"] (by decide +kernel) (by decide +kernel)
      (by simp [hf, htrue])
  have hcall' : Token.tree? (trim "(f  true)") = some (.node .round [.atom "f", .atom "true"]) :=
    Token.tree?_of_members ["f", "true"] (by decide +kernel) (by decide +kernel)
      (by simp [hf, htrue])
  have hfirst : SameLine "(define (f x) x)" "[define  [f x ] x]" :=
    .tree hdefinition hdefinition' (by simp [Tree.rounded]) (by decide +kernel)
  have hsecond : SameLine " [f true]" "(f  true)" :=
    .tree hcall hcall' (by simp [Tree.rounded]) (by decide +kernel)
  exact shown_of_sameLines ⟨20, true⟩ ⟨20, false⟩ rfl ["(define (f x) x)", " [f true]"]
    ["[define  [f x ] x]", "(f  true)"] (.cons hfirst (.cons hsecond .nil))

end Stepwise
