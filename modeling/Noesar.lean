import Noesar.Lib.Framing
import Noesar.Lib.InsertionMap
import Noesar.Lib.Number
import Noesar.Lib.Numeral
import Noesar.Lib.Utf16
import Noesar.Lib.Json
import Noesar.Lib.Run
import Noesar.Lib.PosixPath
import Noesar.Lib.Journal
import Noesar.Lib.Disk
import Noesar.Lib.Causes
import Noesar.Lib.Listing
import Noesar.Lib.Fallible
import Noesar.Capability.Isolation
import Noesar.Capability.Plan
import Noesar.Capability.Minter
import Noesar.Capability.Js
import Noesar.Capability.Format
import Noesar.Capability.Rust
import Noesar.Capability.Session
import Noesar.Capability.Ids
import Noesar.Capability.Uses
import Noesar.Capability.Authority
import Noesar.Capability.Agreement
import Noesar.Shadow.Executor
import Noesar.Shadow.Containment
import Noesar.Shadow.Rust
import Noesar.Shadow.Accounting
import Noesar.Shadow.Effects
import Noesar.Shadow.Alike
import Noesar.Events.Ledger
import Noesar.Events.Accepted
import Noesar.Events.Restored
import Noesar.Events.Evidence
import Noesar.Canonical.Encoding
import Noesar.Workspace.Run
import Noesar.Workspace.Orchestrator
import Noesar.Workspace.Approval
import Noesar.Workspace.Machine
import Noesar.Workspace.Moves
import Noesar.Workspace.Effects
import Noesar.Workspace.Lifecycle
import Noesar.Workspace.Promotion
import Noesar.Workspace.AllOrNothing
import Noesar.Workspace.Measurement
import Noesar.Workspace.Updates
import Noesar.Updates.Version
import Noesar.Updates.Bundle
import Noesar.Updates.Payload
import Noesar.Updates.Manager
import Noesar.Updates.Failure
import Noesar.Updates.Interleaving
import Noesar.Updates.AntiRollback
import Noesar.Updates.Installed
import Noesar.Lib.JsonText
import Noesar.Lib.JsonReading
import Noesar.Lib.JsonTorn
import Noesar.Lib.JsonOrder
import Noesar.Canonical.Rust
import Noesar.Lib.Base64
import Noesar.Authority.Envelope
import Noesar.Authority.Agreement
import Noesar.Authority.Once
import Noesar.Events.Journal
import Noesar.Events.Recovery
import Noesar.Events.Durable
import Noesar.Lib.Utf8
import Noesar.Lib.Cooperative
import Noesar.Lib.Conversion
import Noesar.Workflows.Definition
import Noesar.Workflows.Stored
import Noesar.Workflows.Run
import Noesar.Workflows.Transactions
import Noesar.Workflows.Gate
import Noesar.Workflows.World
import Noesar.Workflows.Progress
import Noesar.Workflows.Truthful
import Noesar.Workflows.Compensation
import Noesar.Workflows.Undone
import Noesar.Workflows.Execution
import Noesar.Workflows.Computed
import Noesar.Workflows.Replay
import Noesar.Memory.Records
import Noesar.Memory.Promotion
import Noesar.Postgres.Handshake
import Noesar.Postgres.Authentication
import Noesar.Postgres.Pool
import Noesar.Postgres.Places
import Noesar.Postgres.Conservation
import Noesar.Postgres.Borrowers
import Noesar.Acquisition.Authenticity
import Noesar.Acquisition.Transport
import Noesar.Acquisition.Confinement
import Noesar.Lib.Lists
import Noesar.Accounts.State
import Noesar.Accounts.Login
import Noesar.Accounts.Security
import Noesar.Accounts.Directory
import Noesar.Accounts.Guessing
import Noesar.Accounts.Effects
import Noesar.Accounts.DirectoryEffects
import Noesar.Lib.Supply
import Noesar.Accounts.Records
import Noesar.Accounts.Origins
import Noesar.Accounts.SingleUse
import Noesar.Accounts.Inactive
import Noesar.Accounts.Administration
import Noesar.Accounts.Creation
import Noesar.Accounts.Finality
import Noesar.Accounts.Holdings
import Noesar.Accounts.Recovery
import Noesar.Lib.NonceStore
import Noesar.Reference.Values
import Noesar.Reference.Tickets
import Noesar.Reference.SingleUse
import Noesar.Reference.Policy
import Noesar.Capability.Encoders
import Noesar.Capability.Limits
import Noesar.Reference.Profiles
import Noesar.Capability.Grants
import Noesar.Audit.Ledger
import Noesar.Audit.Evidence
import Noesar.Lib.BytePath
import Noesar.Shadow.Observation
import Noesar.Author.Rules
import Noesar.Author.EditBlocks
import Noesar.Author.Author
import Noesar.Author.ClosedSet
import Noesar.Author.Replay
import Noesar.Reasoning.Plans
import Noesar.Shadow.Clean
import Noesar.Reasoning.Decomposition
import Noesar.Lib.Pruning
import Noesar.Reasoning.Constraint
import Noesar.Reasoning.Containment
import Noesar.Workspace.Codec
import Noesar.Workspace.RoundTrip
import Noesar.Workspace.Reload
import Noesar.Lib.IpAddress
import Noesar.Egress.AddressGuard
import Noesar.Egress.Internal
import Noesar.Lib.Occurrence
import Noesar.Verification.Claims
import Noesar.Verification.Answers
import Noesar.Workspace.Iteration
import Noesar.Lib.FileTree
import Noesar.Reference.Archive
import Noesar.Reference.Unpacked
import Noesar.Reference.Plans
import Noesar.Reference.Manager
import Noesar.Reference.Registry
import Noesar.Reference.Installation
import Noesar.Lib.Pattern
import Noesar.Egress.Gate
import Noesar.Egress.Arguments
import Noesar.Lib.Incremental
import Noesar.Streams.Websocket
import Noesar.Lib.Destination
import Noesar.Lib.Cbor
import Noesar.Streams.Reading
import Noesar.Streams.Close
import Noesar.Streams.Ipc
import Noesar.Streams.Crossing
import Noesar.Streams.ToolCalls
import Noesar.Streams.Reassembly
import Noesar.Paths.Plan
import Noesar.Paths.Judgement
import Noesar.Publishers.Registry
import Noesar.Publishers.Lookup
import Noesar.Reference.Evidence
import Noesar.Reference.Production
import Noesar.Webauthn.Items
import Noesar.Webauthn.Verifier
import Noesar.Accounts.Counters
import Noesar.Authority.Times
import Noesar.Acquisition.Schema
import Noesar.Acquisition.SchemaMeaning
import Noesar.Workspace.Prune
import Noesar.Lib.Outline
import Noesar.Lib.Postorder
import Noesar.Context.Schema
import Noesar.Context.Projection
import Noesar.Context.Window
import Noesar.Conversations.Graph
import Noesar.Conversations.Changes
import Noesar.Conversations.History
import Noesar.Context.Gate
import Noesar.Context.Digest
import Noesar.Context.Rendering
import Noesar.Context.Ceiling
import Noesar.Context.Structure
import Noesar.Lib.Accumulator
import Noesar.Accounts.Base32
import Noesar.Updates.VersionOrder
import Noesar.Author.Excerpt
