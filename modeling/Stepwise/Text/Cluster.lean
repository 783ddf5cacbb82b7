import Stepwise.Text.Cluster.Break
/-!
# Clusters

A text falls into clusters, the units that a reader takes for one character each. Whether two
neighbours belong together depends on their classes, and for flags, joined pictographs and
conjuncts on what stands further in front. Nothing is lost: the clusters of a text, one after the
other, are the text (`flatten_clusters`).
-/

namespace Stepwise

/-- What of the text in front of a place decides whether a cluster goes on there. -/
structure ClusterContext where
  /-- The class of the last character. -/
  last : BreakClass
  /-- The text ends in an odd number of flag letters. -/
  halfFlag : Bool
  /-- The text ends in a pictograph with combining marks. -/
  pictured : Bool
  /-- The text ends in a pictograph with combining marks and a joiner. -/
  joined : Bool
  /-- The text ends in a consonant and what a conjunct goes on over. -/
  begun : Bool
  /-- The same, with a linker behind the consonant. -/
  linked : Bool

namespace ClusterContext

/-- The context at the start of a text. -/
def start : ClusterContext := ⟨.control, false, false, false, false, false⟩

/-- The context behind one more character. -/
def push (before : ClusterContext) (c : Char) : ClusterContext :=
  let kind := breakClass c
  let consonant := kind = .consonant
  let within := before.begun && isWithinConjunct c
  { last := kind
    halfFlag := kind = .flagLetter && !before.halfFlag
    pictured := kind = .pictograph || (before.pictured && kind = .extend)
    joined := before.pictured && kind = .joiner
    begun := consonant || within
    linked := within && (before.linked || isLinker c) }

/-- Whether a character goes on with the cluster in front of it. -/
def continues (before : ClusterContext) (c : Char) : Bool :=
  match before.last, breakClass c with
  | .carriageReturn, .lineFeed => true
  | .carriageReturn, _ | .lineFeed, _ | .control, _ => false
  | _, .carriageReturn | _, .lineFeed | _, .control => false
  | .leadingJamo, .leadingJamo | .leadingJamo, .vowelJamo => true
  | .leadingJamo, .openSyllable | .leadingJamo, .closedSyllable => true
  | .vowelJamo, .vowelJamo | .vowelJamo, .trailingJamo => true
  | .openSyllable, .vowelJamo | .openSyllable, .trailingJamo => true
  | .trailingJamo, .trailingJamo | .closedSyllable, .trailingJamo => true
  | _, .extend | _, .joiner | _, .spacingMark => true
  | .prepend, _ => true
  | _, .consonant => before.linked
  | .joiner, .pictograph => before.joined
  | .flagLetter, .flagLetter => before.halfFlag
  | _, _ => false

end ClusterContext

/-- The clusters of a text behind `before`, the first of which has begun with `cluster`, kept
backwards. -/
def clustersFrom (before : ClusterContext) (cluster : List Char) : List Char → List (List Char)
  | [] => [cluster.reverse]
  | c :: rest =>
    if before.continues c then clustersFrom (before.push c) (c :: cluster) rest
    else cluster.reverse :: clustersFrom (before.push c) [c] rest

/-- The clusters of a text. -/
def clusters : List Char → List (List Char)
  | [] => []
  | c :: rest => clustersFrom (ClusterContext.start.push c) [c] rest

/-! ## Nothing is lost -/

theorem flatten_clustersFrom (before : ClusterContext) (cluster cs : List Char) :
    (clustersFrom before cluster cs).flatten = cluster.reverse ++ cs := by
  induction cs generalizing before cluster with
  | nil => simp [clustersFrom]
  | cons c rest ih =>
    rw [clustersFrom]
    split
    · rw [ih, List.reverse_cons, List.append_assoc]
      rfl
    · rw [List.flatten_cons, ih]
      rfl

/-- The clusters of a text make up the text. -/
theorem flatten_clusters (cs : List Char) : (clusters cs).flatten = cs := by
  cases cs with
  | nil => rfl
  | cons c rest => exact flatten_clustersFrom _ _ _

end Stepwise
