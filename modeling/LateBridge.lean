import LateBridge.Bridge.Erasure
import LateBridge.Bridge.Marks
import LateBridge.Bridge.Plan
import LateBridge.Bridge.Planning
import LateBridge.CommandLine.Args
import LateBridge.CommandLine.Config
import LateBridge.CommandLine.Files
import LateBridge.CommandLine.LogFormat
import LateBridge.CommandLine.Run
import LateBridge.Diagnostic.Basic
import LateBridge.Diagnostic.Location
import LateBridge.Diagnostic.Report
import LateBridge.Dispatch.Binding
import LateBridge.Dispatch.Call
import LateBridge.Dispatch.Value
import LateBridge.Document.Basic
import LateBridge.Document.CoreLibrary
import LateBridge.Document.Decode
import LateBridge.Document.Encode
import LateBridge.Document.Load
import LateBridge.Document.Resolve
import LateBridge.Generation
import LateBridge.Json.Basic
import LateBridge.Json.Decode
import LateBridge.Json.Printer
import LateBridge.Json.Reader
import LateBridge.Main
import LateBridge.Number.Binary64
import LateBridge.Number.Shortest
import LateBridge.Number.Text
import LateBridge.Proofs.Bridge.ByReference
import LateBridge.Proofs.Bridge.Clauses
import LateBridge.Proofs.Bridge.CleanErasure
import LateBridge.Proofs.Bridge.Coherence
import LateBridge.Proofs.Bridge.Composition
import LateBridge.Proofs.Bridge.Defaults
import LateBridge.Proofs.Bridge.ErasureBound
import LateBridge.Proofs.Bridge.ErasureInheritance
import LateBridge.Proofs.Bridge.ErasureRun
import LateBridge.Proofs.Bridge.ErasureScope
import LateBridge.Proofs.Bridge.ErasureTermination
import LateBridge.Proofs.Bridge.Locality
import LateBridge.Proofs.Bridge.Overloads
import LateBridge.Proofs.Bridge.Plans
import LateBridge.Proofs.Bridge.Remembering
import LateBridge.Proofs.Bridge.Siblings
import LateBridge.Proofs.Bridge.Signatures
import LateBridge.Proofs.Bridge.TypeWalks
import LateBridge.Proofs.Bridge.UpperBound
import LateBridge.Proofs.Bridging
import LateBridge.Proofs.Diagnostic.Messages
import LateBridge.Proofs.Dispatch.Calls
import LateBridge.Proofs.Dispatch.Equations
import LateBridge.Proofs.Dispatch.Forgetting
import LateBridge.Proofs.Dispatch.Inferability
import LateBridge.Proofs.Dispatch.Inference
import LateBridge.Proofs.Dispatch.Instances
import LateBridge.Proofs.Dispatch.Matching
import LateBridge.Proofs.Dispatch.Reordering
import LateBridge.Proofs.Document.Commuting
import LateBridge.Proofs.Document.Derived
import LateBridge.Proofs.Document.Determined
import LateBridge.Proofs.Document.Indexes
import LateBridge.Proofs.Document.Loading
import LateBridge.Proofs.Document.Lookup
import LateBridge.Proofs.Document.Merging
import LateBridge.Proofs.Document.Order
import LateBridge.Proofs.Document.References
import LateBridge.Proofs.Document.RoundTrip
import LateBridge.Proofs.Document.Scoping
import LateBridge.Proofs.Document.Stripping
import LateBridge.Proofs.Document.Supplied
import LateBridge.Proofs.Document.SymbolTables
import LateBridge.Proofs.Generation
import LateBridge.Proofs.Isolation
import LateBridge.Proofs.Numbering.Composition
import LateBridge.Proofs.Numbering.Erasure
import LateBridge.Proofs.Numbering.Hierarchy
import LateBridge.Proofs.Numbering.Interning
import LateBridge.Proofs.Numbering.Planning
import LateBridge.Proofs.Numbering.Plans
import LateBridge.Proofs.Numbering.Programs
import LateBridge.Proofs.Numbering.Schedules
import LateBridge.Proofs.Numbering.Tables
import LateBridge.Proofs.Results
import LateBridge.Proofs.Source.Awaiting
import LateBridge.Proofs.Source.Bracketing
import LateBridge.Proofs.Source.Capture
import LateBridge.Proofs.Source.Denotation
import LateBridge.Proofs.Source.Fallbacks
import LateBridge.Proofs.Source.Forest
import LateBridge.Proofs.Source.Integers
import LateBridge.Proofs.Source.Layout
import LateBridge.Proofs.Source.LogicalLines
import LateBridge.Proofs.Source.MemberIds
import LateBridge.Proofs.Source.OneLine
import LateBridge.Proofs.Source.Quoting
import LateBridge.Proofs.Source.Rooting
import LateBridge.Proofs.Source.Spelling
import LateBridge.Proofs.Source.TypeIds
import LateBridge.Proofs.Symbols.Assignability
import LateBridge.Proofs.Symbols.BaseChain
import LateBridge.Proofs.Symbols.CutChains
import LateBridge.Proofs.Symbols.FiniteWalk
import LateBridge.Proofs.Symbols.HierarchyCheck
import LateBridge.Proofs.Symbols.InterfaceClosure
import LateBridge.Proofs.Symbols.Metadata
import LateBridge.Proofs.Symbols.PartialSubstitution
import LateBridge.Proofs.Symbols.Paths
import LateBridge.Proofs.Symbols.Substitution
import LateBridge.Proofs.Symbols.VisitLimits
import LateBridge.Proofs.Symbols.WalkOrder
import LateBridge.Proofs.Syntax.Grammar
import LateBridge.Proofs.Syntax.Heights
import LateBridge.Proofs.Syntax.Reading
import LateBridge.Proofs.Syntax.Tokens
import LateBridge.Proofs.Syntax.TypeReferences
import LateBridge.Proofs.Text.Splitting
import LateBridge.Source.Artifact
import LateBridge.Source.BridgeCode
import LateBridge.Source.Code
import LateBridge.Source.DocId
import LateBridge.Source.Literal
import LateBridge.Source.TypeText
import LateBridge.Source.Writer
import LateBridge.Symbols.Decl
import LateBridge.Symbols.DeclName
import LateBridge.Symbols.Display
import LateBridge.Symbols.Graph
import LateBridge.Symbols.Hierarchy
import LateBridge.Symbols.Interner
import LateBridge.Symbols.Special
import LateBridge.Symbols.Ty
import LateBridge.Symbols.WellKnown
import LateBridge.Syntax.TypeReader
import LateBridge.Syntax.TypeSyntax
import LateBridge.Text.CharClass
import LateBridge.Text.Hex
import LateBridge.Text.Letters
import LateBridge.Text.Template
