import LuaTyping.Syntax.Parse
import LuaTyping.TypeSet.Json
import LuaTyping.Infer.Permits
import LuaTyping.Infer.Expression
import LuaTyping.Workspace.Basic
import LuaTyping.CommandLine.Run
import LuaTyping.Main
import LuaTyping.Proofs.Scope.Environment
import LuaTyping.Proofs.Scope.Bindings
import LuaTyping.Proofs.Scope.Visible
import LuaTyping.Proofs.Scope.Lookup
import LuaTyping.Proofs.Infer.Permits
import LuaTyping.Proofs.Infer.Run
import LuaTyping.Proofs.Infer.Gives
import LuaTyping.Proofs.Infer.Moments
import LuaTyping.Proofs.Infer.Questions
import LuaTyping.Proofs.Infer.Depth
import LuaTyping.Proofs.Infer.Call
import LuaTyping.Proofs.Infer.Valid
import LuaTyping.Proofs.Token.Placed
import LuaTyping.Proofs.Syntax.Offsets
import LuaTyping.Proofs.Syntax.Abstract
import LuaTyping.Proofs.Syntax.Steps
import LuaTyping.Proofs.Syntax.Yields
import LuaTyping.Proofs.Syntax.Spread
import LuaTyping.Proofs.Syntax.Total.Program
import LuaTyping.Proofs.Syntax.Branch
import LuaTyping.Proofs.Syntax.Table
import LuaTyping.Proofs.Syntax.WellFormed
import LuaTyping.Proofs.Syntax.Forms
import LuaTyping.Proofs.Syntax.Formed
import LuaTyping.Proofs.Syntax.Arranged
import LuaTyping.Proofs.Syntax.Sound.Expression
import LuaTyping.Proofs.Syntax.Sound.Statement
import LuaTyping.Proofs.Syntax.Strict
import LuaTyping.Proofs.Syntax.Printed
import LuaTyping.Proofs.Syntax.Complete.Follow
import LuaTyping.Proofs.Syntax.Complete.Expression
import LuaTyping.Proofs.Token.Apart
import LuaTyping.Proofs.Token.Alone
import LuaTyping.Proofs.Token.Joined
import LuaTyping.Proofs.Token.Covers
import LuaTyping.Proofs.Token.LineEnds
import LuaTyping.Proofs.Syntax.Complete.Statement
import LuaTyping.Proofs.Syntax.Complete.Roundtrip
import LuaTyping.Proofs.Infer.Agree
import LuaTyping.Proofs.Infer.Alike
import LuaTyping.Proofs.Infer.Near
import LuaTyping.Proofs.Infer.Made
import LuaTyping.Proofs.Project.Insert
import LuaTyping.Proofs.Infer.Unrelated
import LuaTyping.Proofs.Syntax.Drawn
import LuaTyping.Proofs.Scope.Sorted
import LuaTyping.Proofs.Syntax.Respaced
import LuaTyping.Proofs.Scope.Rules
import LuaTyping.Proofs.Scope.Respaced
import LuaTyping.Proofs.Infer.Respaced
import LuaTyping.Proofs.Project.Resolve
import LuaTyping.Proofs.Infer.Global
import LuaTyping.Proofs.Workspace.History
import LuaTyping.Proofs.Syntax.Sites
import LuaTyping.Proofs.Syntax.Kept
import LuaTyping.Proofs.Token.Written
import LuaTyping.Proofs.Syntax.Rules
import LuaTyping.Proofs.Syntax.Standing
import LuaTyping.Proofs.Syntax.Covering
import LuaTyping.Proofs.Syntax.Views
import LuaTyping.Proofs.Syntax.Shape
import LuaTyping.Proofs.Text.Lines
import LuaTyping.Proofs.Syntax.Boundaries
import LuaTyping.Proofs.Workspace.Answers
import LuaTyping.Proofs.Infer.Member
import LuaTyping.Proofs.Workspace.Inside
import LuaTyping.Proofs.Infer.Annotated
import LuaTyping.Proofs.Syntax.Grouping
import LuaTyping.Proofs.Syntax.Makes
import LuaTyping.Proofs.Syntax.Climbing
import LuaTyping.Proofs.Syntax.Precedence
import LuaTyping.Proofs.Text.Positions
import LuaTyping.Proofs.Scope.Shadowing
import LuaTyping.Proofs.Token.Delimited
import LuaTyping.Proofs.Infer.Required
import LuaTyping.Proofs.Syntax.Entered
import LuaTyping.Proofs.Token.Solid
import LuaTyping.Proofs.Syntax.CommentRun
import LuaTyping.Proofs.Syntax.Documented
import LuaTyping.Proofs.Text.Pieces
import LuaTyping.Proofs.Project.Require
import LuaTyping.Proofs.Project.Dotted
import LuaTyping.Proofs.Workspace.Innermost
import LuaTyping.Proofs.DocTag.TypeExpr
import LuaTyping.Proofs.Syntax.Compositional
import LuaTyping.Proofs.Syntax.Recorded
import LuaTyping.Proofs.Syntax.CutOff
import LuaTyping.Proofs.Syntax.Errors
import LuaTyping.Proofs.Syntax.Charged.Level
import LuaTyping.Proofs.Syntax.Charged.Expression
import LuaTyping.Proofs.Syntax.Charged.Statement
import LuaTyping.Proofs.Syntax.Charged.Program
import LuaTyping.Proofs.Syntax.Returns
import LuaTyping.Proofs.TypeSet.Insertion
import LuaTyping.Proofs.Json.Reading
import LuaTyping.Proofs.Json.Writing
import LuaTyping.Proofs.TypeSet.Json
