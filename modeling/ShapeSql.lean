import ShapeSql.Bind.Basic
import ShapeSql.Bind.Fragment
import ShapeSql.Bind.Value
import ShapeSql.Compiler
import ShapeSql.Decimal.Nearest
import ShapeSql.Decimal.Shortest
import ShapeSql.Error
import ShapeSql.Graph.Basic
import ShapeSql.Graph.Entity
import ShapeSql.Graph.Level
import ShapeSql.Json.Document
import ShapeSql.Json.Value
import ShapeSql.Name
import ShapeSql.Operation
import ShapeSql.Options
import ShapeSql.Path
import ShapeSql.Plan.Basic
import ShapeSql.Plan.Change
import ShapeSql.Plan.Draft
import ShapeSql.Plan.Filter
import ShapeSql.Plan.Names
import ShapeSql.Plan.Rule
import ShapeSql.Plan.Select
import ShapeSql.Plan.Write
import ShapeSql.Plan.Written
import ShapeSql.Relation.Basic
import ShapeSql.Relation.Link
import ShapeSql.Relation.Merge
import ShapeSql.Relation.Resolve
import ShapeSql.Relation.Resolver
import ShapeSql.Rows
import ShapeSql.Schema.Basic
import ShapeSql.Schema.Declaration
import ShapeSql.Session
import ShapeSql.Shape.Directive
import ShapeSql.Shape.FieldTree
import ShapeSql.Shape.QuerySpec
import ShapeSql.Sql.Fragment
import ShapeSql.Sql.Lexeme
import ShapeSql.Sql.Render
import ShapeSql.Sql.Same
import ShapeSql.Sql.Tree
import ShapeSql.Text.Blank
import ShapeSql.Text.Hex
import ShapeSql.Text.LetterCase
import ShapeSql.Text.WordChar
import ShapeSql.Tree
import ShapeSql.Uuid
import ShapeSql.Value.Basic
import ShapeSql.Value.Digest
import ShapeSql.Word.Inflector
import ShapeSql.Word.Pattern
import ShapeSql.Word.Rules
import ShapeSql.Proofs.Graph.Grouping
import ShapeSql.Proofs.Value.Skeleton
import ShapeSql.Proofs.Bind.Skeleton
import ShapeSql.Proofs.Sql.Leaf
import ShapeSql.Proofs.Sql.Write
import ShapeSql.Proofs.Plan.Names
import ShapeSql.Proofs.Plan.Draft
import ShapeSql.Proofs.Plan.Filter
import ShapeSql.Proofs.Plan.Select
import ShapeSql.Proofs.Plan.Write
import ShapeSql.Proofs.Plan.Change
import ShapeSql.Proofs.Schema.Declaration
import ShapeSql.Proofs.Relation.Merge
import ShapeSql.Proofs.Relation.Resolve
import ShapeSql.Proofs.Relation.Resolver
import ShapeSql.Proofs.Plan.Written
import ShapeSql.Proofs.Plan.Basic
import ShapeSql.Proofs.Bind.Filling
import ShapeSql.Proofs.Bind.Binding
import ShapeSql.Proofs.Bind.Safety
import ShapeSql.Proofs.Relation.Placed
import ShapeSql.Proofs.Plan.Ordering
import ShapeSql.Proofs.Bind.Mentions
import ShapeSql.Proofs.Bind.Scoped
import ShapeSql.Proofs.Graph.Display
import ShapeSql.Proofs.Graph.Levels
import ShapeSql.Proofs.Plan.Projection
import ShapeSql.Proofs.Plan.Tuples
import ShapeSql.Proofs.Plan.WindowRows
import ShapeSql.Proofs.Bind.TableVariables
import ShapeSql.Proofs.Bind.LookupRows
import ShapeSql.Proofs.Bind.Ignored
import ShapeSql.Proofs.Bind.Paged
import ShapeSql.Proofs.Bind.Counted
import ShapeSql.Proofs.Bind.Orphans
import ShapeSql.Proofs.Sql.Substituted
import ShapeSql.Proofs.Shape.Unpaged
import ShapeSql.Proofs.Plan.Unpaged
import ShapeSql.Proofs.Sql.Mentioned
import ShapeSql.Proofs.Bind.Prefix
import ShapeSql.Proofs.Bind.WholePage
import ShapeSql.Proofs.Graph.RowOrder
import ShapeSql.Proofs.Graph.Materialized
import ShapeSql.Proofs.Relation.Hosted
import ShapeSql.Proofs.Shape.Unfolding
import ShapeSql.Proofs.Graph.Places
import ShapeSql.Proofs.Graph.Conforming
import ShapeSql.Proofs.Relation.Spelled
import ShapeSql.Proofs.Relation.Columns
import ShapeSql.Proofs.Graph.Readings
import ShapeSql.Proofs.Plan.WrittenOnce
import ShapeSql.Proofs.Bind.WrittenOnce
import ShapeSql.Proofs.Schema.WellFormed
import ShapeSql.Proofs.Arena
import ShapeSql.Proofs.Shape.Expansion
import ShapeSql.Proofs.Shape.Alike
import ShapeSql.Proofs.Relation.Built
import ShapeSql.Proofs.Relation.Ways
import ShapeSql.Proofs.Relation.Union
import ShapeSql.Proofs.Bind.Wanted
import ShapeSql.Proofs.Bind.Stranded
import ShapeSql.Proofs.Bind.Reached
import ShapeSql.Proofs.Bind.Referenced
import ShapeSql.Proofs.Plan.NamesApart
import ShapeSql.Proofs.Bind.KeyMatched
import ShapeSql.Proofs.Bind.Pattern
import ShapeSql.Proofs.Bind.Compared
import ShapeSql.Proofs.Relation.Mirrored
import ShapeSql.Proofs.Bind.PlainRows
import ShapeSql.Proofs.Relation.Growth
import ShapeSql.Proofs.Sql.ReadBack
import ShapeSql.Proofs.Relation.Junctions
import ShapeSql.Proofs.Plan.Lenient
import ShapeSql.Proofs.Sql.Orderings
import ShapeSql.Proofs.Plan.Sorted
import ShapeSql.Proofs.Bind.SortedOnce
import ShapeSql.Proofs.Sql.TableWrites
import ShapeSql.Proofs.Sql.Updates
import ShapeSql.Proofs.Plan.IdentityWrites
import ShapeSql.Proofs.Plan.EntityUpdate
import ShapeSql.Proofs.Bind.IdentityWrites
import ShapeSql.Proofs.Bind.EntityUpdate
import ShapeSql.Proofs.Schema.References
import ShapeSql.Proofs.Value.Digest
import ShapeSql.Proofs.Shape.Hops
import ShapeSql.Proofs.Sql.Quoting
import ShapeSql.Proofs.Path
import ShapeSql.Proofs.Relation.Anchored
import ShapeSql.Proofs.Relation.Veiled
import ShapeSql.Proofs.Relation.Found
