import ApiDoc.Main
import ApiDoc.Proofs.Assoc
import ApiDoc.Proofs.Value.Sharing
import ApiDoc.Proofs.Document.Sections
import ApiDoc.Proofs.Value.Plain
import ApiDoc.Proofs.Fragment.Values
import ApiDoc.Proofs.Document.Steps
import ApiDoc.Proofs.Document.Shape
import ApiDoc.Proofs.Document.Seed
import ApiDoc.Proofs.Document.Generation
import ApiDoc.Proofs.Document.Paths
import ApiDoc.Proofs.Document.Commutation
import ApiDoc.Proofs.Fragment.Routes
import ApiDoc.Proofs.Fragment.Fields
import ApiDoc.Proofs.Document.Redocumentation
import ApiDoc.Proofs.Document.Skipping
import ApiDoc.Proofs.Yaml.Sharing
import ApiDoc.Proofs.Assoc.Series
import ApiDoc.Proofs.Value.Equality
import ApiDoc.Proofs.Document.Separation
import ApiDoc.Proofs.Document.ClosedForm
import ApiDoc.Proofs.Document.Groups
import ApiDoc.Proofs.Document.Idempotence
import ApiDoc.Proofs.Document.Order
import ApiDoc.Proofs.Except
import ApiDoc.Proofs.TypeExpr.Grammar
import ApiDoc.Proofs.Text.Blank
import ApiDoc.Proofs.TypeExpr.Tokens
import ApiDoc.Proofs.TypeExpr.Printing
import ApiDoc.Proofs.Comment.Extraction
import ApiDoc.Proofs.Text.Lines
import ApiDoc.Proofs.Comment.TagText
import ApiDoc.Proofs.Comment.Writing
import ApiDoc.Proofs.Fragment.Written
import ApiDoc.Proofs.Json.NonFinite
import ApiDoc.Proofs.Fragment.Origin
import ApiDoc.Proofs.Document.Finiteness
import ApiDoc.Proofs.Fragment.Integrity
import ApiDoc.Proofs.Document.Integrity
import ApiDoc.Proofs.Value.Place
import ApiDoc.Proofs.Document.Scan
import ApiDoc.Proofs.Document.Provenance
import ApiDoc.Proofs.Fragment.Names
import ApiDoc.Proofs.Document.Reports
import ApiDoc.Proofs.Json.RoundTrip
import ApiDoc.Proofs.Document.Stack
import ApiDoc.Proofs.Fragment.Accumulation
import ApiDoc.Proofs.Fragment.Streams
import ApiDoc.Proofs.Fragment.Failure
import ApiDoc.Proofs.Fragment.Fates
import ApiDoc.Proofs.Comment.NormalForm
import ApiDoc.Proofs.Comment.TypeText
import ApiDoc.Proofs.TypeExpr.Markers
import ApiDoc.Proofs.Comment.OptionalName
import ApiDoc.Proofs.TypeExpr.Leaves
import ApiDoc.Proofs.Tag.Enumeration
import ApiDoc.Proofs.Tag.Header
import ApiDoc.Proofs.Fragment.Headers
import ApiDoc.Proofs.Fragment.Naming
import ApiDoc.Proofs.Definition.Declarations
import ApiDoc.Proofs.Definition.Enumerated
import ApiDoc.Proofs.File.Discovery
import ApiDoc.Proofs.TypeExpr.Spelling
import ApiDoc.Proofs.Definition.Items
import ApiDoc.Proofs.Cli.Files
import ApiDoc.Proofs.Text.Utf8
import ApiDoc.Proofs.Json.Numerals
import ApiDoc.Proofs.Yaml.Quoted
import ApiDoc.Proofs.Yaml.Words
import ApiDoc.Proofs.Yaml.Scanning
import ApiDoc.Proofs.Yaml.Flow
import ApiDoc.Proofs.Yaml.Documents
import ApiDoc.Proofs.Yaml.Parsing
import ApiDoc.Proofs.Document.Outline
import ApiDoc.Proofs.Yaml.Graphs
import ApiDoc.Proofs.Yaml.Building
import ApiDoc.Proofs.Cli.Check
