import SearchQuery.Main
import SearchQuery.Proofs.Scan.Tiling
import SearchQuery.Proofs.Forest.Contents
import SearchQuery.Proofs.Forest.Spans
import SearchQuery.Proofs.Canonical.RoundTrip
import SearchQuery.Proofs.Forest.Failure
import SearchQuery.Proofs.Limit
import SearchQuery.Proofs.Text.Quoted
import SearchQuery.Proofs.Text.Escapes
import SearchQuery.Proofs.Forest.Barrier
import SearchQuery.Proofs.Forest.Recast
import SearchQuery.Proofs.Scan.Growth
import SearchQuery.Proofs.Shift
import SearchQuery.Proofs.Completeness
import SearchQuery.Proofs.Composition
import SearchQuery.Proofs.Scan.Neighbours
import SearchQuery.Proofs.Scan.Lookahead
import SearchQuery.Proofs.Grammar
import SearchQuery.Proofs.Blame
import SearchQuery.Proofs.Remainder
import SearchQuery.Proofs.Enclosure
import SearchQuery.Proofs.Token.Wire
import SearchQuery.Proofs.Report
import SearchQuery.Proofs.Respacing
import SearchQuery.Proofs.Forest.Segments
import SearchQuery.Proofs.CommandLine
import SearchQuery.Proofs.Forest.Fusion
import SearchQuery.Proofs.NormalForm
import SearchQuery.Proofs.Renumbering
import SearchQuery.Proofs.Scan.Restart
import SearchQuery.Proofs.Forest.InBounds
import SearchQuery.Proofs.Progress
import SearchQuery.Proofs.Token.Objects
import SearchQuery.Proofs.Json.Layout
