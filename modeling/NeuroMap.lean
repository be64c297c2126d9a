import NeuroMap.Number.Fixed
import NeuroMap.Number.Text
import NeuroMap.Failure
import NeuroMap.Fingerprint.Hasher
import NeuroMap.Diagnostic.Log
import NeuroMap.Key.Basic
import NeuroMap.Partition.Cutter
import NeuroMap.Netlist.Cluster
import NeuroMap.Filter.Basic
import NeuroMap.Region.Image
import NeuroMap.Region.Reception
import NeuroMap.Region.SynapseTable
import NeuroMap.Json.Basic
import NeuroMap.Toml.Document
import NeuroMap.Codec.Report
import NeuroMap.Codec.Network
import NeuroMap.Codec.Region
import NeuroMap.Settings.File
import NeuroMap.Network.Map
import NeuroMap.Proofs.Partition.Search
import NeuroMap.Proofs.Partition.Run
import NeuroMap.Proofs.Partition.Greedy
import NeuroMap.Proofs.Partition.Scan
import NeuroMap.Proofs.Key.Access
import NeuroMap.Proofs.Netlist.Seating
import NeuroMap.Proofs.Netlist.Clusters
import NeuroMap.Proofs.Outcome
import NeuroMap.Proofs.Key.Bits
import NeuroMap.Proofs.Key.Matching
import NeuroMap.Proofs.Key.Packing
import NeuroMap.Proofs.Fingerprint.Streaming
import NeuroMap.Proofs.Region.Reader
import NeuroMap.Proofs.Filter.Payload
import NeuroMap.Proofs.Region.Tables
import NeuroMap.Proofs.Region.FilterRecords
import NeuroMap.Proofs.Region.Image
import NeuroMap.Proofs.Region.ImageParts
import NeuroMap.Proofs.Region.Reception
import NeuroMap.Proofs.Netlist.Growth
import NeuroMap.Proofs.Network.Populations
import NeuroMap.Proofs.Network.Links
import NeuroMap.Proofs.Network.Receivers
import NeuroMap.Proofs.Network.Dispatch
import NeuroMap.Proofs.Netlist.Atomicity
import NeuroMap.Proofs.Netlist.WellFormed
import NeuroMap.Proofs.Netlist.Refusals
import NeuroMap.Proofs.Netlist.Runs
import NeuroMap.Proofs.Region.Failures
import NeuroMap.Proofs.Network.Failures
import NeuroMap.Proofs.Network.Reports
import NeuroMap.Proofs.Region.Sharing
import NeuroMap.Proofs.Network.Instances
import NeuroMap.Proofs.Network.Deliveries
import NeuroMap.Proofs.Word.Checked
import NeuroMap.Proofs.Key.Layout
import NeuroMap.Proofs.Netlist.Offences
import NeuroMap.Proofs.Netlist.Warnings
import NeuroMap.Proofs.Netlist.Orders
import NeuroMap.Proofs.Filter.Agreement
import NeuroMap.Proofs.Filter.Exact
import NeuroMap.Proofs.Filter.CharacteristicPolynomial
import NeuroMap.Proofs.Filter.Gain
import NeuroMap.Proofs.Region.Canonical
import NeuroMap.Proofs.Region.Rows
import NeuroMap.Proofs.Region.Blocks
import NeuroMap.Proofs.Region.RoundTrip
import NeuroMap.Proofs.Filter.Positions
import NeuroMap.Proofs.Filter.CanonicalForm
import NeuroMap.Proofs.Region.Sizes
import NeuroMap.Proofs.Diagnostic.History
import NeuroMap.Proofs.Fingerprint.Calls
import NeuroMap.Proofs.Number.Exact
import NeuroMap.Proofs.Number.Fixed
import NeuroMap.Proofs.Partition.Reordering
import NeuroMap.Proofs.Partition.Words
import NeuroMap.Proofs.Word.Numbers
import NeuroMap.Proofs.Netlist.Moves
import NeuroMap.Proofs.Netlist.Visits
import NeuroMap.Proofs.Netlist.Cutting
import NeuroMap.Proofs.Netlist.Crowds
import NeuroMap.Proofs.Number.Truncation
import NeuroMap.Proofs.Number.Counts
import NeuroMap.Proofs.Partition.Singles
import NeuroMap.Proofs.Network.Overflow
