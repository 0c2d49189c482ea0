import PagedFilter.Bytes
import PagedFilter.Filter.Operation
import PagedFilter.Format.Frame
import PagedFilter.Format.Stored
import PagedFilter.Request
import PagedFilter.Proofs.Bytes.Marking
import PagedFilter.Proofs.Delivery
import PagedFilter.Proofs.Geometry.Acceptance
import PagedFilter.Proofs.Storage.WellFormed
import PagedFilter.Proofs.Storage.Insertion
import PagedFilter.Proofs.Storage.Runs
import PagedFilter.Proofs.Filter.View
import PagedFilter.Proofs.Filter.Operations
import PagedFilter.Proofs.Filter.EntryPoints
import PagedFilter.Proofs.Filter.Safety
import PagedFilter.Proofs.Bytes.Fields
import PagedFilter.Proofs.Format.Frame
import PagedFilter.Proofs.Format.Snapshot
import PagedFilter.Proofs.Session.Forms
import PagedFilter.Proofs.Session.Retention
import PagedFilter.Proofs.Session.Content
import PagedFilter.Proofs.Storage.Steps
import PagedFilter.Proofs.Filter.FrontEnds
import PagedFilter.Proofs.Geometry.Remainder
import PagedFilter.Proofs.Storage.Pages
import PagedFilter.Proofs.Storage.Tally
import PagedFilter.Proofs.Filter.Accounting
import PagedFilter.Proofs.Format.Json.Scan
import PagedFilter.Proofs.Format.Json.Record
import PagedFilter.Proofs.Format.Text
import PagedFilter.Proofs.Storage.Outcome
import PagedFilter.Proofs.Format.Packed
import PagedFilter.Proofs.Filter.AcceptanceRule
import PagedFilter.Proofs.Geometry.Planning
import PagedFilter.Proofs.Geometry.Overriding
import PagedFilter.Proofs.Filter.Sizing
import PagedFilter.Proofs.Format.Frame.Checks
import PagedFilter.Proofs.Format.Frame.Damage
import PagedFilter.Proofs.Storage.Probing
import PagedFilter.Proofs.Session.Reachable
import PagedFilter.Proofs.Format.Snapshot.Restoring
import PagedFilter.Proofs.Session.Rebuilding
import PagedFilter.Proofs.Session.LowerWay
import PagedFilter.Proofs.Session.Clearing
import PagedFilter.Proofs.Bytes.Value
import PagedFilter.Proofs.Hash.Stream
import PagedFilter.Proofs.Hash.Rounds
import PagedFilter.Proofs.Hash.Separation
import PagedFilter.Proofs.Hash.Views
import PagedFilter.Proofs.Rounding.Binary64
import PagedFilter.Proofs.Rounding.Scaling
import PagedFilter.Proofs.Geometry.Growth
