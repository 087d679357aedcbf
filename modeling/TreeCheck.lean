import TreeCheck.Assoc
import TreeCheck.Number.Basic
import TreeCheck.Number.Shortest
import TreeCheck.Number.Text
import TreeCheck.Text.Printable
import TreeCheck.Text.Quoted
import TreeCheck.Span
import TreeCheck.Diagnostic
import TreeCheck.Ty.Basic
import TreeCheck.Ty.Print
import TreeCheck.Ty.Subst
import TreeCheck.Ty.Equal
import TreeCheck.Ty.Union
import TreeCheck.Ty.Rebuild
import TreeCheck.Query
import TreeCheck.Assign
import TreeCheck.Env.Basic
import TreeCheck.Generic.Bind
import TreeCheck.Env.Utility
import TreeCheck.Env.Resolve
import TreeCheck.Env.Flatten
import TreeCheck.Generic.Infer
import TreeCheck.Scope.Symbol
import TreeCheck.Scope.Table
import TreeCheck.Visibility
import TreeCheck.Access
import TreeCheck.Module.Graph
import TreeCheck.Yaml.Cursor
import TreeCheck.Yaml.Comment
import TreeCheck.Yaml.Scalar
import TreeCheck.Yaml.Property
import TreeCheck.Yaml.Token
import TreeCheck.Yaml.TokenStream
import TreeCheck.Yaml.Tag
import TreeCheck.Yaml.Instant
import TreeCheck.Yaml.Node
import TreeCheck.Yaml.Document
import TreeCheck.Yaml.Fields
import TreeCheck.Syntax.TypeExpr
import TreeCheck.Syntax.Tree
import TreeCheck.Syntax.Walk
import TreeCheck.Syntax.Reference
import TreeCheck.Dump.View
import TreeCheck.Dump.Decode
import TreeCheck.Flow.Context
import TreeCheck.Flow.Session
import TreeCheck.Flow.Narrow
import TreeCheck.Flow.Guard
import TreeCheck.Flow.Match
import TreeCheck.Json.Basic
import TreeCheck.Json.Text
import TreeCheck.Json.Types
import TreeCheck.Json.Tree
import TreeCheck.Options
import TreeCheck.Spelling
import TreeCheck.Module.Exports
import TreeCheck.Module.Registry
import TreeCheck.Check.Basic
import TreeCheck.Check.Types
import TreeCheck.Check.Patterns
import TreeCheck.Check.Members
import TreeCheck.Check.Calls
import TreeCheck.Check.Operators
import TreeCheck.Check.Functions
import TreeCheck.Check.Literals
import TreeCheck.Check.Exprs
import TreeCheck.Check.Declarations
import TreeCheck.Check.Classes
import TreeCheck.Check.Statements
import TreeCheck.Check.Control
import TreeCheck.Check.Imports
import TreeCheck.Check.Exports
import TreeCheck.Check.Program
import TreeCheck.Text.Base64
import TreeCheck.Text.Calendar
import TreeCheck.Text.Colour
import TreeCheck.Text.Path
import TreeCheck.Files
import TreeCheck.Toml.Moment
import TreeCheck.Toml.Token
import TreeCheck.Toml.Document
import TreeCheck.Config
import TreeCheck.Report
import TreeCheck.SymbolIndex
import TreeCheck.Project.Load
import TreeCheck.Project.Job
import TreeCheck.Project.Run
import TreeCheck.Text.Integer
import TreeCheck.Command.Arguments
import TreeCheck.Command.Response
import TreeCheck.Main
import TreeCheck.Proofs.Graph.Reach
import TreeCheck.Proofs.Graph.LowLink
import TreeCheck.Proofs.Graph.Order
import TreeCheck.Proofs.Check.Yields
import TreeCheck.Proofs.Schedule.Tasks
import TreeCheck.Proofs.Schedule.Shared
import TreeCheck.Proofs.Schedule.Agreement
import TreeCheck.Proofs.Schedule.Sequential
import TreeCheck.Proofs.Ty.Capture
import TreeCheck.Proofs.Ty.Parts
import TreeCheck.Proofs.Ty.Equivalence
import TreeCheck.Proofs.Ty.Normal
import TreeCheck.Proofs.Assign.Goal
import TreeCheck.Proofs.Assign.Steps
import TreeCheck.Proofs.Assign.Representation
import TreeCheck.Proofs.Assign.Recursive
import TreeCheck.Proofs.Assign.Relaxed
import TreeCheck.Proofs.Ty.Depth
import TreeCheck.Proofs.Assign.Termination
import TreeCheck.Proofs.Env.Resolution
import TreeCheck.Proofs.Env.Termination
import TreeCheck.Proofs.Ty.Regular
import TreeCheck.Proofs.Assign.Fits
import TreeCheck.Proofs.Assign.Preorder
import TreeCheck.Proofs.Assign.Unions
import TreeCheck.Proofs.Ty.Rebuild
import TreeCheck.Proofs.Env.Expansion
import TreeCheck.Proofs.Assign.Expand
import TreeCheck.Proofs.Env.Transparency
import TreeCheck.Proofs.Access.Hierarchy
import TreeCheck.Proofs.Check.Trace
import TreeCheck.Proofs.Check.Ownership
import TreeCheck.Proofs.Check.Rules
import TreeCheck.Proofs.Check.Access
import TreeCheck.Proofs.Check.Balance
import TreeCheck.Proofs.Check.Completion
import TreeCheck.Proofs.Check.Coherence
import TreeCheck.Proofs.Check.Imported
import TreeCheck.Proofs.Env.Flattening
import TreeCheck.Proofs.Env.Validation
import TreeCheck.Proofs.Env.Structure
import TreeCheck.Proofs.Env.Modifiers
import TreeCheck.Proofs.Env.Classification
import TreeCheck.Proofs.Check.Clean
import TreeCheck.Proofs.Check.Judged
import TreeCheck.Proofs.Check.Finding
import TreeCheck.Proofs.Check.Annotation
import TreeCheck.Proofs.Check.SelfContained
import TreeCheck.Proofs.Access.Growth
import TreeCheck.Proofs.Access.Closure
import TreeCheck.Proofs.Access.Verdict
import TreeCheck.Proofs.Access.Shapes
import TreeCheck.Proofs.Generic.Inference
import TreeCheck.Proofs.Ty.Union
import TreeCheck.Proofs.Scope.Stack
import TreeCheck.Proofs.Schedule.Progress
import TreeCheck.Proofs.Schedule.ExitStatus
import TreeCheck.Proofs.Assign.Join
import TreeCheck.Proofs.Ty.Compose
import TreeCheck.Proofs.Ty.Node
import TreeCheck.Proofs.Ty.Generic
import TreeCheck.Proofs.Ty.Permute
import TreeCheck.Proofs.Ty.Free
import TreeCheck.Proofs.Ty.Renaming
import TreeCheck.Proofs.Assign.Ground
import TreeCheck.Proofs.Flow.Chains
import TreeCheck.Proofs.Flow.Falsy
import TreeCheck.Proofs.Flow.Guards
import TreeCheck.Proofs.Flow.Meeting
import TreeCheck.Proofs.Flow.Spread
import TreeCheck.Proofs.Assign.Levels
import TreeCheck.Proofs.Ty.Meet
import TreeCheck.Proofs.Assign.Meet
import TreeCheck.Proofs.Assign.Nil
import TreeCheck.Proofs.Assign.Callers
import TreeCheck.Proofs.Check.Assignment
import TreeCheck.Proofs.Flow.Arms
import TreeCheck.Proofs.Check.Building
import TreeCheck.Proofs.Check.Recorded
import TreeCheck.Proofs.Generic.Shadowing
import TreeCheck.Proofs.Flow.Unmatched
import TreeCheck.Proofs.Graph.Cycle
import TreeCheck.Proofs.Report.Listing
import TreeCheck.Proofs.Check.Enumeration
import TreeCheck.Proofs.Ty.References
import TreeCheck.Proofs.Env.Remaining
import TreeCheck.Proofs.Spelling.Distance
import TreeCheck.Proofs.Env.Agreement
import TreeCheck.Proofs.Check.Uniform
import TreeCheck.Proofs.Check.Respects
import TreeCheck.Proofs.Check.Impartial
import TreeCheck.Proofs.Check.ImpartialModule
import TreeCheck.Proofs.Check.Rearranged
import TreeCheck.Proofs.Check.Naming
import TreeCheck.Proofs.Check.Resolving
import TreeCheck.Proofs.Check.AliasOrder
