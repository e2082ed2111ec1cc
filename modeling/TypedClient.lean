import TypedClient.Calendar
import TypedClient.ClientType
import TypedClient.ClientType.Enums
import TypedClient.CommandLine.Arguments
import TypedClient.CommandLine.Run
import TypedClient.Description
import TypedClient.Disk
import TypedClient.Document.Access
import TypedClient.Document.Display
import TypedClient.Document.SetOrder
import TypedClient.Document.Value
import TypedClient.EnumNaming
import TypedClient.Failure
import TypedClient.Json
import TypedClient.Link
import TypedClient.Loading
import TypedClient.Locator
import TypedClient.Locator.Path
import TypedClient.Locator.Url
import TypedClient.Logged
import TypedClient.Main
import TypedClient.Naming
import TypedClient.Number.Binary64
import TypedClient.Number.Numeral
import TypedClient.Number.Shortest
import TypedClient.Output.Client
import TypedClient.Output.CodeFile
import TypedClient.Output.Frame
import TypedClient.Output.Literal
import TypedClient.Output.MethodText
import TypedClient.Output.TypeText
import TypedClient.Proofs.EnumNames
import TypedClient.Proofs.Tables
import TypedClient.Proofs.TypeNodes
import TypedClient.Resolver
import TypedClient.Route.Extract
import TypedClient.Route.Operation
import TypedClient.Route.Template
import TypedClient.Schema
import TypedClient.Settings
import TypedClient.Table
import TypedClient.Text.Base64
import TypedClient.Text.Blank
import TypedClient.Text.Case
import TypedClient.Text.Cut
import TypedClient.Text.Digit
import TypedClient.Text.Letter
import TypedClient.Text.Printable
import TypedClient.Text.Surrogate
import TypedClient.Toml.Document
import TypedClient.Toml.Layout
import TypedClient.Toml.Number
import TypedClient.Toml.Setting
import TypedClient.Toml.Text
import TypedClient.Toml.Writer
import TypedClient.Yaml.Block
import TypedClient.Yaml.Build
import TypedClient.Yaml.Cursor
import TypedClient.Yaml.Document
import TypedClient.Yaml.Implicit
import TypedClient.Yaml.Lexer
import TypedClient.Yaml.Node
import TypedClient.Yaml.NodeReader
import TypedClient.Yaml.Plain
import TypedClient.Yaml.Quoted
import TypedClient.Yaml.Scalar
import TypedClient.Yaml.Tag
import TypedClient.Yaml.Timestamp
import TypedClient.Yaml.Token
import TypedClient.Proofs.NamedEnums
import TypedClient.Proofs.Conversion
import TypedClient.Proofs.Links
import TypedClient.Proofs.Extraction
import TypedClient.Proofs.ResolverSteps
import TypedClient.Proofs.Sessions
import TypedClient.Proofs.Closure
import TypedClient.Proofs.Resolution
import TypedClient.Proofs.Renaming
import TypedClient.Proofs.Relinking
import TypedClient.Proofs.Emission
import TypedClient.Proofs.Layouts
import TypedClient.Proofs.Generation
import TypedClient.Proofs.Paths
import TypedClient.Proofs.Reading
import TypedClient.Proofs.Expressions
import TypedClient.Proofs.Exports
import TypedClient.Proofs.TypeSyntax
import TypedClient.Proofs.WrittenTypes
import TypedClient.Proofs.Repetition
import TypedClient.Proofs.Capture
import TypedClient.Proofs.Literals
import TypedClient.Proofs.Writing
import TypedClient.Proofs.Runs
import TypedClient.Proofs.LeastChoice
import TypedClient.Proofs.Parameters
import TypedClient.Proofs.Grammar
import TypedClient.Proofs.SameDocuments
import TypedClient.Proofs.Trails
import TypedClient.Proofs.KeptSettings
import TypedClient.Proofs.NotedLinks
import TypedClient.Proofs.SchemaKeys
import TypedClient.Proofs.UnionParts
import TypedClient.Proofs.Templates
import TypedClient.Proofs.Calls
import TypedClient.Proofs.Namespaces
import TypedClient.Proofs.FieldNames
import TypedClient.Proofs.SpelledNames
import TypedClient.Proofs.EnumBlocks
import TypedClient.Proofs.StringSyntax
import TypedClient.Proofs.RouteLiterals
import TypedClient.Proofs.Passes
import TypedClient.Proofs.Rounds
import TypedClient.Proofs.Bodies
import TypedClient.Proofs.BlankTypes
import TypedClient.Proofs.FreshNames
import TypedClient.Proofs.OperationNames
import TypedClient.Proofs.LexicalPaths
import TypedClient.Proofs.DescribedMethods
import TypedClient.Proofs.PrintedMethods
import TypedClient.Proofs.Quotes
import TypedClient.Proofs.LocatorHalves
