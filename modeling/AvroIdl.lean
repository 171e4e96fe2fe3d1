import AvroIdl.Build.Annotations
import AvroIdl.Build.Assembly
import AvroIdl.Build.Declaration
import AvroIdl.Build.Problem
import AvroIdl.Build.Type
import AvroIdl.CommandLine
import AvroIdl.Compilation
import AvroIdl.Diagnostic
import AvroIdl.Diagnostic.Mismatch
import AvroIdl.Diagnostic.Report
import AvroIdl.Diagnostic.Suggestion
import AvroIdl.Document
import AvroIdl.Document.Read
import AvroIdl.Document.Write
import AvroIdl.Documentation
import AvroIdl.FileTree
import AvroIdl.FileTree.Change
import AvroIdl.Import
import AvroIdl.Json
import AvroIdl.Json.Print
import AvroIdl.Json.Read
import AvroIdl.Literal
import AvroIdl.Literal.Float
import AvroIdl.Literal.Integer
import AvroIdl.Literal.Quoted
import AvroIdl.Literal.Value
import AvroIdl.Main
import AvroIdl.Name
import AvroIdl.Number.Binary64
import AvroIdl.Number.Power
import AvroIdl.Number.Shortest
import AvroIdl.Path
import AvroIdl.Proofs.Acceptance
import AvroIdl.Proofs.AcceptedType
import AvroIdl.Proofs.AcceptedUnit
import AvroIdl.Proofs.Binding
import AvroIdl.Proofs.BrokenBuilds
import AvroIdl.Proofs.BuiltShape
import AvroIdl.Proofs.CanonicalPath
import AvroIdl.Proofs.CollectedAnnotations
import AvroIdl.Proofs.CommentAccount
import AvroIdl.Proofs.CommentAttachment
import AvroIdl.Proofs.CommentTaking
import AvroIdl.Proofs.CompiledDocument
import AvroIdl.Proofs.CompiledUnit
import AvroIdl.Proofs.DecidedGrammar
import AvroIdl.Proofs.DeclarationOrder
import AvroIdl.Proofs.DeclarationRules
import AvroIdl.Proofs.DefaultAcceptance
import AvroIdl.Proofs.DefaultConformance
import AvroIdl.Proofs.DefaultValidity
import AvroIdl.Proofs.DefinitionOrder
import AvroIdl.Proofs.Denotation
import AvroIdl.Proofs.Depiction
import AvroIdl.Proofs.DocumentContent
import AvroIdl.Proofs.DocumentDefinitions
import AvroIdl.Proofs.DocumentSyntax
import AvroIdl.Proofs.DocumentedNodes
import AvroIdl.Proofs.EagerDefaults
import AvroIdl.Proofs.EditDistance
import AvroIdl.Proofs.EndOfTokens
import AvroIdl.Proofs.EscapeGrammar
import AvroIdl.Proofs.FileAccess
import AvroIdl.Proofs.FixedKeys
import AvroIdl.Proofs.FlattenedDocument
import AvroIdl.Proofs.FullNames
import AvroIdl.Proofs.Gathering
import AvroIdl.Proofs.Grammar
import AvroIdl.Proofs.Guarantee
import AvroIdl.Proofs.ImportClosure
import AvroIdl.Proofs.ImportCycle
import AvroIdl.Proofs.ImportDirectories
import AvroIdl.Proofs.ImportErrors
import AvroIdl.Proofs.ImportGraph
import AvroIdl.Proofs.ImportOrder
import AvroIdl.Proofs.ImportWalk
import AvroIdl.Proofs.ImportedItems
import AvroIdl.Proofs.ImportedMessages
import AvroIdl.Proofs.Indentation
import AvroIdl.Proofs.IntegerLiteral
import AvroIdl.Proofs.LineEndings
import AvroIdl.Proofs.LiteralForms
import AvroIdl.Proofs.Members
import AvroIdl.Proofs.NameLookup
import AvroIdl.Proofs.NodeReading
import AvroIdl.Proofs.Occurrence
import AvroIdl.Proofs.OptionalType
import AvroIdl.Proofs.Printing
import AvroIdl.Proofs.Promotion
import AvroIdl.Proofs.PropertyKeys
import AvroIdl.Proofs.Provenance
import AvroIdl.Proofs.QuotedText
import AvroIdl.Proofs.ReadBack
import AvroIdl.Proofs.ReadForm
import AvroIdl.Proofs.ReadShape
import AvroIdl.Proofs.ReadableMismatch
import AvroIdl.Proofs.ReaderSteps
import AvroIdl.Proofs.Registration
import AvroIdl.Proofs.RegistryTable
import AvroIdl.Proofs.Reporting
import AvroIdl.Proofs.Resolution
import AvroIdl.Proofs.RoundTrip
import AvroIdl.Proofs.ScannedPieces
import AvroIdl.Proofs.SchemaFiles
import AvroIdl.Proofs.SchemaPaths
import AvroIdl.Proofs.ScopedNames
import AvroIdl.Proofs.SessionDiscipline
import AvroIdl.Proofs.Settling
import AvroIdl.Proofs.Shape
import AvroIdl.Proofs.SourcePlaces
import AvroIdl.Proofs.SpelledType
import AvroIdl.Proofs.SpelledUnit
import AvroIdl.Proofs.Spelling
import AvroIdl.Proofs.StillReaders
import AvroIdl.Proofs.Supply
import AvroIdl.Proofs.SyntaxErrors
import AvroIdl.Proofs.ThrownFaults
import AvroIdl.Proofs.TokenCover
import AvroIdl.Proofs.TokenGrammar
import AvroIdl.Proofs.TokenSpacing
import AvroIdl.Proofs.TreeLayout
import AvroIdl.Proofs.Unambiguous
import AvroIdl.Proofs.Unbound
import AvroIdl.Proofs.UnitInvariants
import AvroIdl.Proofs.UnreachedGuards
import AvroIdl.Proofs.Utf8Encoding
import AvroIdl.Proofs.Verdict
import AvroIdl.Proofs.ViablePrefix
import AvroIdl.Proofs.WrittenNodes
import AvroIdl.Registry
import AvroIdl.Registry.Resolve
import AvroIdl.Schema
import AvroIdl.Schema.Default
import AvroIdl.Schema.Logical
import AvroIdl.Session
import AvroIdl.Source
import AvroIdl.Text
import AvroIdl.Text.Distance
import AvroIdl.Text.Escape
import AvroIdl.Text.Utf8
import AvroIdl.Token
import AvroIdl.Token.Lexeme
import AvroIdl.Token.Stream
import AvroIdl.Tool
import AvroIdl.Tool.Demand
import AvroIdl.Tree
import AvroIdl.Tree.Cursor
import AvroIdl.Tree.Parse
