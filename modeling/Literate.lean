import Literate.Text
import Literate.Options
import Literate.Chunk
import Literate.Token
import Literate.Fault
import Literate.Event
import Literate.Path
import Literate.Context
import Literate.Traced
import Literate.Token.Scan
import Literate.Document.Read
import Literate.Table
import Literate.Expansion
import Literate.Selection
import Literate.Json
import Literate.Listing
import Literate.FileTree
import Literate.Host
import Literate.World
import Literate.Plan
import Literate.Tangle
import Literate.Toml.Quoted
import Literate.Toml.Number
import Literate.Toml.Value
import Literate.Toml.Document
import Literate.Settings.Toml
import Literate.Settings.File
import Literate.CommandLine
import Literate.Main
import Literate.Proofs.Chains
import Literate.Proofs.Scanning
import Literate.Proofs.Spelling
import Literate.Proofs.Content
import Literate.Proofs.Grammar
import Literate.Proofs.Reading
import Literate.Proofs.Text
import Literate.Proofs.Steady
import Literate.Proofs.Options
import Literate.Proofs.Printing
import Literate.Proofs.Indents
import Literate.Proofs.Composition
import Literate.Proofs.Definitions
import Literate.Proofs.Locality
import Literate.Proofs.Planning
import Literate.Proofs.Running
import Literate.Proofs.Literal
import Literate.Proofs.Policies
import Literate.Proofs.Shifting
import Literate.Proofs.Concatenation
import Literate.Proofs.Files
import Literate.Proofs.Paths
import Literate.Proofs.Writing
import Literate.Proofs.Sections
import Literate.Proofs.WholeLines
import Literate.Proofs.Gathering
import Literate.Proofs.Merging
import Literate.Proofs.Summaries
import Literate.Proofs.Ending
import Literate.Proofs.Referring
import Literate.Proofs.Grouping
import Literate.Proofs.Trails
import Literate.Proofs.Moments
import Literate.Proofs.FirstFault
import Literate.Proofs.Lossless
import Literate.Proofs.Places
import Literate.Proofs.NormalForm
import Literate.Proofs.LineEndings
import Literate.Proofs.Lines
import Literate.Proofs.Nearest
import Literate.Proofs.OutputPaths
import Literate.Proofs.Redefinitions
