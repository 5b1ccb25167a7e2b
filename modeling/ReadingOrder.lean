import ReadingOrder.Classify
import ReadingOrder.Cli.Grammar
import ReadingOrder.Cli.Parse
import ReadingOrder.Cli.Run
import ReadingOrder.Config.Basic
import ReadingOrder.Config.Read
import ReadingOrder.Config.Value
import ReadingOrder.Decimal.Shortest
import ReadingOrder.Error
import ReadingOrder.Exclusion
import ReadingOrder.Glob
import ReadingOrder.Json.Error
import ReadingOrder.Json.Number
import ReadingOrder.Json.Parse
import ReadingOrder.Json.Read
import ReadingOrder.Json.Skip
import ReadingOrder.Json.Value
import ReadingOrder.Json.Write
import ReadingOrder.Listing
import ReadingOrder.Main
import ReadingOrder.Path.Basic
import ReadingOrder.Plan
import ReadingOrder.Precedence
import ReadingOrder.Render
import ReadingOrder.Rule.Basic
import ReadingOrder.Rule.Parse
import ReadingOrder.Sequence.Basic
import ReadingOrder.Sequence.Group
import ReadingOrder.Text.Blank
import ReadingOrder.Text.Quoted
import ReadingOrder.Text.Similarity
import ReadingOrder.Text.Style
import ReadingOrder.Text.Unicode.GraphemeExtend
import ReadingOrder.Text.Unicode.Printable
import ReadingOrder.Tree.Basic
import ReadingOrder.Tree.Reorder
import ReadingOrder.Tree.Scan
import ReadingOrder.Volume.Basic
import ReadingOrder.Volume.Resolve
import ReadingOrder.Proofs.Tree.Shape
import ReadingOrder.Proofs.Path.Clean
import ReadingOrder.Proofs.Precedence
import ReadingOrder.Proofs.Tree.Subtree
import ReadingOrder.Proofs.Tree.Reorder
import ReadingOrder.Proofs.Tree.Stable
import ReadingOrder.Proofs.Grouping
import ReadingOrder.Proofs.Pairing
import ReadingOrder.Proofs.Tree.PreOrder
import ReadingOrder.Proofs.Path.Join
import ReadingOrder.Proofs.Volume.Walk
import ReadingOrder.Proofs.Volume.NormalPath
import ReadingOrder.Proofs.Volume.JoinedPath
import ReadingOrder.Proofs.Tree.Scan
import ReadingOrder.Proofs.Planning
import ReadingOrder.Proofs.RuleFile
import ReadingOrder.Proofs.RuleTargets
import ReadingOrder.Proofs.Pinning
import ReadingOrder.Proofs.TargetMatch
import ReadingOrder.Proofs.PrintOrder
import ReadingOrder.Proofs.Tree.Traversal
import ReadingOrder.Proofs.Tree.Ancestry
import ReadingOrder.Proofs.Drawing
import ReadingOrder.Proofs.Classification
import ReadingOrder.Proofs.Json.Reading
import ReadingOrder.Proofs.Json.RoundTrip
