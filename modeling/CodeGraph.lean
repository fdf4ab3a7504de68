import CodeGraph.CSharp.Declarations
import CodeGraph.CSharp.References
import CodeGraph.CommandLine.Basic
import CodeGraph.CommandLine.Parse
import CodeGraph.Cpp.Items
import CodeGraph.Cpp.References
import CodeGraph.Cpp.Tables
import CodeGraph.Embedding.Basic
import CodeGraph.Embedding.Vertex
import CodeGraph.Emit.Stream
import CodeGraph.Emit.Writer
import CodeGraph.Failure
import CodeGraph.Files
import CodeGraph.Graph.Basic
import CodeGraph.Graph.Schema
import CodeGraph.Import
import CodeGraph.Java.Declarations
import CodeGraph.Java.References
import CodeGraph.Json
import CodeGraph.Language
import CodeGraph.Main
import CodeGraph.Number.Binary64
import CodeGraph.Outline
import CodeGraph.Page.Analysis
import CodeGraph.Page.Body
import CodeGraph.Page.Region
import CodeGraph.Path
import CodeGraph.Pipeline.Pool
import CodeGraph.Pipeline.Processor
import CodeGraph.Pipeline.Walk
import CodeGraph.Program
import CodeGraph.Proofs.Closure.Analyzers
import CodeGraph.Proofs.Closure.Linking
import CodeGraph.Proofs.Closure.Outlines
import CodeGraph.Proofs.Closure.Tables
import CodeGraph.Proofs.Completeness.Analyzers
import CodeGraph.Proofs.Embedding.Chunks
import CodeGraph.Proofs.Emission.Embeddings
import CodeGraph.Proofs.Emission.Interleaving
import CodeGraph.Proofs.Emission.Lossless
import CodeGraph.Proofs.Files.Places
import CodeGraph.Proofs.Graph.Histories
import CodeGraph.Proofs.Graph.Lookup
import CodeGraph.Proofs.Graph.Properties
import CodeGraph.Proofs.Linking.Additions
import CodeGraph.Proofs.Linking.Addresses
import CodeGraph.Proofs.Linking.Calls
import CodeGraph.Proofs.Linking.Candidates
import CodeGraph.Proofs.Linking.ClassMethods
import CodeGraph.Proofs.Linking.Definitions
import CodeGraph.Proofs.Linking.Descent
import CodeGraph.Proofs.Linking.FieldTypes
import CodeGraph.Proofs.Linking.FieldUses
import CodeGraph.Proofs.Linking.FirstBindings
import CodeGraph.Proofs.Linking.FunctionCalls
import CodeGraph.Proofs.Linking.GrowingTables
import CodeGraph.Proofs.Linking.Inheritance
import CodeGraph.Proofs.Linking.InnerFunctions
import CodeGraph.Proofs.Linking.Invocations
import CodeGraph.Proofs.Linking.Members
import CodeGraph.Proofs.Linking.Modules
import CodeGraph.Proofs.Linking.NamedCalls
import CodeGraph.Proofs.Linking.Receivers
import CodeGraph.Proofs.Linking.ScopedNames
import CodeGraph.Proofs.Linking.Sites
import CodeGraph.Proofs.Linking.StaticImports
import CodeGraph.Proofs.Linking.TypeIds
import CodeGraph.Proofs.Linking.UsingDirectives
import CodeGraph.Proofs.Page.Comments
import CodeGraph.Proofs.Page.Elements
import CodeGraph.Proofs.Page.EndLines
import CodeGraph.Proofs.Page.Grammar
import CodeGraph.Proofs.Page.Layout
import CodeGraph.Proofs.Page.Lines
import CodeGraph.Proofs.Page.MethodLabels
import CodeGraph.Proofs.Page.Regions
import CodeGraph.Proofs.Page.Renaming
import CodeGraph.Proofs.Page.Scanning
import CodeGraph.Proofs.Page.ScriptBodies
import CodeGraph.Proofs.Pool.Cancellation
import CodeGraph.Proofs.Pool.Directories
import CodeGraph.Proofs.Pool.Runs
import CodeGraph.Proofs.Pool.Sequential
import CodeGraph.Proofs.Pool.Stop
import CodeGraph.Proofs.Sql.Lexing
import CodeGraph.Proofs.Sql.LineNumbers
import CodeGraph.Proofs.Sql.Masking
import CodeGraph.Proofs.Sql.Names
import CodeGraph.Proofs.Sql.Spans
import CodeGraph.Proofs.Text.Decoding
import CodeGraph.Proofs.Text.Delimited
import CodeGraph.Proofs.Text.Lines
import CodeGraph.Proofs.Text.Locations
import CodeGraph.Proofs.Text.Matching
import CodeGraph.Proofs.Text.Patterns
import CodeGraph.Proofs.Text.Preference
import CodeGraph.Proofs.Text.Seq
import CodeGraph.Proofs.Text.Trimming
import CodeGraph.Proofs.Vb.Declarations
import CodeGraph.Proofs.Vb.Extents
import CodeGraph.Proofs.Vb.Headers
import CodeGraph.Proofs.Vb.Intervals
import CodeGraph.Proofs.Vb.LeadingNames
import CodeGraph.Proofs.Vb.Nesting
import CodeGraph.Proofs.Vb.Noninterference
import CodeGraph.Proofs.Vb.Parameters
import CodeGraph.Proofs.Vb.Repetition
import CodeGraph.Proofs.Vb.Steps
import CodeGraph.Proofs.Vb.Supertypes
import CodeGraph.Registry
import CodeGraph.Scope.Ident
import CodeGraph.Scope.Members
import CodeGraph.Scope.Namespace
import CodeGraph.Scope.Tables
import CodeGraph.Settings.Basic
import CodeGraph.Settings.File
import CodeGraph.Sql.Analysis
import CodeGraph.Sql.Definitions
import CodeGraph.Sql.Mask
import CodeGraph.Sql.References
import CodeGraph.Text.AlphanumericTable
import CodeGraph.Text.Basic
import CodeGraph.Text.Bytes
import CodeGraph.Text.Chars
import CodeGraph.Text.Class
import CodeGraph.Text.Pattern
import CodeGraph.Text.Reader
import CodeGraph.Text.Seq
import CodeGraph.Text.UnprintableTable
import CodeGraph.Text.WordTable
import CodeGraph.Toml.Basic
import CodeGraph.Toml.Document
import CodeGraph.Toml.Scalar
import CodeGraph.Toml.Text
import CodeGraph.Tree.Basic
import CodeGraph.Tree.Listing
import CodeGraph.TypeScript.Declarations
import CodeGraph.TypeScript.References
import CodeGraph.Vb.Blocks
import CodeGraph.Vb.Calls
import CodeGraph.Vb.Line
