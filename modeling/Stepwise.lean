import Stepwise.Main
import Stepwise.Token.Substitute
import Stepwise.Proofs.Eval.BigStep
import Stepwise.Proofs.Session.Collection
import Stepwise.Proofs.Session.Liveness
import Stepwise.Proofs.Confinement.Source
import Stepwise.Proofs.Confinement.Step
import Stepwise.Proofs.Session.Failure
import Stepwise.Proofs.Token.Grammar
import Stepwise.Proofs.Token.Tree
import Stepwise.Proofs.Eval.Expansion
import Stepwise.Proofs.WellFormed.Move
import Stepwise.Proofs.Store.Bound
import Stepwise.Proofs.Store.Search
import Stepwise.Proofs.Store.Table
import Stepwise.Proofs.WellFormed.Step
import Stepwise.Proofs.WellFormed.Errors
import Stepwise.Proofs.Scoping.Forms
import Stepwise.Proofs.WellFormed.Literals
import Stepwise.Proofs.Scoping.Session
import Stepwise.Proofs.Layout.Move
import Stepwise.Proofs.Layout.Step
import Stepwise.Proofs.Layout.Session
import Stepwise.Proofs.Eval.Trajectory
import Stepwise.Proofs.Eval.Watching
import Stepwise.Proofs.Session.Modes
import Stepwise.Proofs.Renaming.Definitions
import Stepwise.Proofs.Session.Definitions
import Stepwise.Proofs.Substitution.Application
import Stepwise.Proofs.Substitution.Move
import Stepwise.Proofs.Substitution.Step
import Stepwise.Proofs.Token.Spacing
import Stepwise.Proofs.Token.Rejection
import Stepwise.Proofs.Substitution.Tree
import Stepwise.Proofs.Scoping.Writes
import Stepwise.Proofs.Procedure.Complaints
import Stepwise.Proofs.Session.Truncation
import Stepwise.Proofs.Eval.Selection
import Stepwise.Proofs.WellFormed.Shape
