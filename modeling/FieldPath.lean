import FieldPath.Binary64.Basic
import FieldPath.Cause
import FieldPath.CommandLine.Arguments
import FieldPath.CommandLine.Execution
import FieldPath.CommandLine.Response
import FieldPath.Decimal.Basic
import FieldPath.Decimal.Layout
import FieldPath.Decimal.Numeral
import FieldPath.Decimal.Shortest
import FieldPath.Directory
import FieldPath.Document
import FieldPath.Entries
import FieldPath.FileName
import FieldPath.Format
import FieldPath.Gzip.Bits
import FieldPath.Gzip.Crc32
import FieldPath.Gzip.Huffman
import FieldPath.Gzip.Inflate
import FieldPath.Gzip.Member
import FieldPath.Home
import FieldPath.Json.Number
import FieldPath.Json.Reader
import FieldPath.Json.Text
import FieldPath.Main
import FieldPath.Observation
import FieldPath.Path.Basic
import FieldPath.Path.GrammarError
import FieldPath.Path.Parse
import FieldPath.Path.Text
import FieldPath.Path.Token
import FieldPath.Path.Value
import FieldPath.Proofs.Path.Canonical
import FieldPath.Proofs.Path.Grammar
import FieldPath.Proofs.Path.Reading
import FieldPath.Proofs.Path.Step
import FieldPath.Proofs.Walk.Branch
import FieldPath.Proofs.Walk.Outcome
import FieldPath.Proofs.Walk.Report
import FieldPath.Rule
import FieldPath.Schema
import FieldPath.Settings
import FieldPath.Text.Blank
import FieldPath.Text.Hex
import FieldPath.Text.Quoted
import FieldPath.Text.SpelledOut
import FieldPath.Toml.Document
import FieldPath.Toml.Moment
import FieldPath.Toml.Quoted
import FieldPath.Toml.Reader
import FieldPath.Toml.Scalar
import FieldPath.Toml.Table
import FieldPath.Toml.Text
import FieldPath.Validator
import FieldPath.Value.Basic
import FieldPath.Value.Key
import FieldPath.Value.Number
import FieldPath.Walk
import FieldPath.Yaml.Composition
import FieldPath.Yaml.Cursor
import FieldPath.Yaml.Document
import FieldPath.Yaml.Node
import FieldPath.Yaml.Property
import FieldPath.Yaml.Resolution
import FieldPath.Yaml.Scalar
import FieldPath.Yaml.Token
import FieldPath.Yaml.TokenStream
import FieldPath.Proofs.Path.Shape
import FieldPath.Proofs.Walk.Expansion
import FieldPath.Proofs.Validator.Verdict
import FieldPath.Proofs.Walk.Repair
import FieldPath.Proofs.Walk.Simulation
import FieldPath.Proofs.Walk.Pruning
import FieldPath.Proofs.Value.Keys
import FieldPath.Proofs.Document.Loaded
import FieldPath.Proofs.Validator.KeyOrder
import FieldPath.Proofs.Path.Position
import FieldPath.Proofs.Validator.Location
import FieldPath.Proofs.Value.Numbers
import FieldPath.Proofs.Decimal.Digits
import FieldPath.Proofs.Json.RoundTrip
import FieldPath.Proofs.Yaml.Word
import FieldPath.Proofs.Document.Integers
import FieldPath.Proofs.Document.Compressed
import FieldPath.Proofs.CommandLine.Lines
import FieldPath.Proofs.Path.Refusal
import FieldPath.Proofs.Path.Assembly
import FieldPath.Proofs.Validator.EmptySequence
import FieldPath.Proofs.Walk.LastLookUp
import FieldPath.Proofs.Decimal.Nearest
import FieldPath.Proofs.Decimal.Shortest
import FieldPath.Proofs.Validator.IntegerRule
import FieldPath.Proofs.Decimal.Whole
import FieldPath.Proofs.Validator.QuotedNumber
import FieldPath.Proofs.Json.Line
import FieldPath.Proofs.Document.Tree
import FieldPath.Proofs.Json.Tree
import FieldPath.Proofs.Yaml.Tree
import FieldPath.Proofs.Document.Mappings
import FieldPath.Proofs.CommandLine.Checks
import FieldPath.Proofs.CommandLine.Selection
import FieldPath.Proofs.Validator.Schema
import FieldPath.Home.Session
import FieldPath.Proofs.Home.Session
import FieldPath.Proofs.Path.Truncation
import FieldPath.Proofs.Path.Cursor
import FieldPath.Proofs.Path.Tiling
