import Codemod.Main
import Codemod.Proofs.Utf8
import Codemod.Proofs.Splice
import Codemod.Proofs.Rewrite
import Codemod.Proofs.Queue
import Codemod.Proofs.Characters
import Codemod.Proofs.Order
import Codemod.Proofs.Outermost
import Codemod.Proofs.Reading
import Codemod.Proofs.Script
import Codemod.Proofs.Parsed
import Codemod.Proofs.Aliases
import Codemod.Proofs.Rename
import Codemod.Proofs.Layout
import Codemod.Proofs.Lines
import Codemod.Proofs.Removal
import Codemod.Proofs.Reindent
import Codemod.Proofs.Returns
import Codemod.Proofs.Markup
import Codemod.Proofs.Unwrap
import Codemod.Proofs.Session
import Codemod.Proofs.Import
import Codemod.Proofs.ImportRound
import Codemod.Proofs.Source
import Codemod.Proofs.NamedImports
import Codemod.Proofs.Unused
import Codemod.Proofs.Fixpoint
import Codemod.Proofs.Rounds
import Codemod.Proofs.Leftover
import Codemod.Proofs.Marker
import Codemod.Proofs.Stretch
import Codemod.Proofs.Inject
import Codemod.Proofs.Rewritten
import Codemod.Proofs.Moved
import Codemod.Proofs.Carried
import Codemod.Proofs.Respelling
import Codemod.Proofs.Receiver
import Codemod.Proofs.Renamed
import Codemod.Proofs.SecondPass
import Codemod.Proofs.PatternNames
import Codemod.Proofs.Discovery
import Codemod.Proofs.Runs
import Codemod.Proofs.LineBreaks
import Codemod.Proofs.Prologue
import Codemod.Proofs.Giving
import Codemod.Proofs.Fuel
import Codemod.Proofs.Walk
import Codemod.Proofs.Verbatim
import Codemod.Proofs.NewHead
import Codemod.Proofs.Matching
import Codemod.Proofs.Patch
import Codemod.Proofs.Cutting
import Codemod.Proofs.DiffReader
import Codemod.Proofs.DiffText
import Codemod.Proofs.Specifier
import Codemod.Proofs.NormalForm
import Codemod.Proofs.Overlay
import Codemod.Proofs.Traversal
import Codemod.Proofs.Query
