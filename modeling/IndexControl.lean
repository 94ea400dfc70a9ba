import IndexControl.Attributes
import IndexControl.Buffer.Basic
import IndexControl.Buffer.Run
import IndexControl.Buffer.Store
import IndexControl.Buffer.Traffic
import IndexControl.Directories.Basic
import IndexControl.Disk
import IndexControl.Engine.Basic
import IndexControl.Engine.Listening
import IndexControl.Engine.Run
import IndexControl.Engine.Step
import IndexControl.File
import IndexControl.Filters
import IndexControl.Flags
import IndexControl.Glob.Depth
import IndexControl.Glob.Matching
import IndexControl.Identity
import IndexControl.Json.Value
import IndexControl.OrderedMap
import IndexControl.Path.Basic
import IndexControl.Path.Nesting
import IndexControl.Proofs.Buffer.Traffic
import IndexControl.Proofs.Directories.Canonical
import IndexControl.Proofs.Directories.Coverage
import IndexControl.Proofs.Directories.Reconciled
import IndexControl.Proofs.Directories.Stable
import IndexControl.Proofs.Disk.Files
import IndexControl.Proofs.Engine.Absent
import IndexControl.Proofs.Engine.Applied
import IndexControl.Proofs.Engine.Arrival
import IndexControl.Proofs.Engine.Conformity
import IndexControl.Proofs.Engine.Derived
import IndexControl.Proofs.Engine.Exposure
import IndexControl.Proofs.Engine.Identifying
import IndexControl.Proofs.Engine.LeftOut
import IndexControl.Proofs.Engine.Lifetime
import IndexControl.Proofs.Engine.Listening
import IndexControl.Proofs.Engine.Mirror
import IndexControl.Proofs.Engine.Monitoring
import IndexControl.Proofs.Engine.Moves
import IndexControl.Proofs.Engine.Orderly
import IndexControl.Proofs.Engine.Provenance
import IndexControl.Proofs.Engine.Refused
import IndexControl.Proofs.Engine.Remount
import IndexControl.Proofs.Engine.Requested
import IndexControl.Proofs.Engine.Requests
import IndexControl.Proofs.Engine.Steady
import IndexControl.Proofs.Engine.Stored
import IndexControl.Proofs.Engine.Stray
import IndexControl.Proofs.Engine.Tracking
import IndexControl.Proofs.Engine.Transient
import IndexControl.Proofs.Engine.Turns
import IndexControl.Proofs.Engine.Upkeep
import IndexControl.Proofs.Engine.Writing
import IndexControl.Proofs.Filters
import IndexControl.Proofs.Identity
import IndexControl.Proofs.Json.Words
import IndexControl.Proofs.Optional
import IndexControl.Proofs.OrderedMap
import IndexControl.Proofs.Path.Collapsing
import IndexControl.Proofs.Path.Joining
import IndexControl.Proofs.Path.Nesting
import IndexControl.Proofs.Path.Normal
import IndexControl.Proofs.Path.Resolution
import IndexControl.Proofs.Path.Spelling
import IndexControl.Proofs.Request.Uri
import IndexControl.Proofs.Roots.AddEach
import IndexControl.Proofs.Roots.Changes
import IndexControl.Proofs.Roots.Coverage
import IndexControl.Proofs.Roots.Folding
import IndexControl.Proofs.Roots.Freshness
import IndexControl.Proofs.Roots.Life
import IndexControl.Proofs.Roots.Order
import IndexControl.Proofs.Roots.Owner
import IndexControl.Proofs.Roots.Removal
import IndexControl.Proofs.Roots.Replay
import IndexControl.Proofs.Roots.Shelter
import IndexControl.Proofs.Roots.Volume
import IndexControl.Proofs.Settings.Stored
import IndexControl.Proofs.Snapshot.Fingerprint
import IndexControl.Proofs.Snapshot.Reading
import IndexControl.Proofs.Snapshot.Stored
import IndexControl.Proofs.Steward.Complete
import IndexControl.Proofs.Steward.Folding
import IndexControl.Proofs.Steward.Initial
import IndexControl.Proofs.Steward.Overlay
import IndexControl.Proofs.Steward.Reach
import IndexControl.Proofs.Steward.Resync
import IndexControl.Proofs.Steward.Settings
import IndexControl.Proofs.Steward.Shelter
import IndexControl.Proofs.Steward.Terms
import IndexControl.Proofs.Steward.Unmounting
import IndexControl.Proofs.Steward.Volumes
import IndexControl.Proofs.Text.Utf8
import IndexControl.Proofs.Watches.Attached
import IndexControl.Proofs.Watches.Following
import IndexControl.Proofs.Watches.Gather
import IndexControl.Proofs.Watches.Holders
import IndexControl.Proofs.Watches.Orderly
import IndexControl.Proofs.Watches.Reach
import IndexControl.Proofs.Watches.Releasing
import IndexControl.Proofs.Watches.Restoring
import IndexControl.Proofs.Watches.Restriction
import IndexControl.Proofs.Watches.Return
import IndexControl.Proofs.Watches.Serving
import IndexControl.Proofs.Watches.Tracking
import IndexControl.Request.Basic
import IndexControl.Roots.Basic
import IndexControl.Service.Basic
import IndexControl.Service.Run
import IndexControl.Settings.Basic
import IndexControl.Settings.Feed
import IndexControl.Settings.File
import IndexControl.Snapshot.Basic
import IndexControl.Snapshot.Stored
import IndexControl.Steward.Basic
import IndexControl.Steward.Changes
import IndexControl.Text.Blank
import IndexControl.Text.Numeral
import IndexControl.Watches.Basic
import IndexControl.Watches.Holding
import IndexControl.Watches.Run
import IndexControl.Proofs.Identity
