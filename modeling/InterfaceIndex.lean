import InterfaceIndex.Main
import InterfaceIndex.Proofs.Release.Scan
import InterfaceIndex.Proofs.Release.Checksum
import InterfaceIndex.Proofs.Release.Archive
import InterfaceIndex.Proofs.Release.Damaged
import InterfaceIndex.Proofs.Address
import InterfaceIndex.Proofs.Collection
import InterfaceIndex.Proofs.Release.Provenance
import InterfaceIndex.Proofs.Stream.Calm
import InterfaceIndex.Proofs.Table
import InterfaceIndex.Proofs.Tar.Payload
import InterfaceIndex.Proofs.Release.Visits
import InterfaceIndex.Proofs.CommandLine
import InterfaceIndex.Proofs.Release.BrokenOff
import InterfaceIndex.Proofs.Deflate.Run
import InterfaceIndex.Proofs.Gzip.FirstRead
import InterfaceIndex.Proofs.Release.Opening
import InterfaceIndex.Proofs.Merging
import InterfaceIndex.Proofs.Release.Trail
import InterfaceIndex.Proofs.Pattern
import InterfaceIndex.Proofs.Selection
import InterfaceIndex.Proofs.Dry
import InterfaceIndex.Proofs.Release.Again
import InterfaceIndex.Proofs.Stream.Requests
import InterfaceIndex.Proofs.Release.Layout
import InterfaceIndex.Proofs.Endpoints
import InterfaceIndex.Proofs.Release.Number
import InterfaceIndex.Proofs.Release.Turns
