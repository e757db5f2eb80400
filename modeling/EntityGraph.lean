import EntityGraph.Proofs.Graph.Idempotence
import EntityGraph.Proofs.Graph.Leftovers
import EntityGraph.Proofs.Graph.Merging
import EntityGraph.Proofs.Graph.Placement
import EntityGraph.Proofs.Graph.Reading
import EntityGraph.Proofs.Graph.Report
import EntityGraph.Proofs.Json.Agreement
import EntityGraph.Proofs.Json.Closure
import EntityGraph.Proofs.Json.RoundTrip
import EntityGraph.Proofs.Reaction
import EntityGraph.Proofs.Record.Coherence
import EntityGraph.Proofs.Record.FixedPoint
import EntityGraph.Proofs.Record.Reordered
import EntityGraph.Proofs.Record.SameKey
import EntityGraph.Proofs.Redaction.Complete
import EntityGraph.Proofs.Redaction.Transfer
import EntityGraph.Proofs.Schema.Enumeration
import EntityGraph.Proofs.Wire.Bits
import EntityGraph.Proofs.Wire.Delimited
import EntityGraph.Proofs.Wire.Limits
import EntityGraph.Proofs.Wire.Relay
import EntityGraph.Proofs.Wire.Snapshot
import EntityGraph.Proofs.Wire.Stream
import EntityGraph.Record.Display
