import Kuma.Lib.Run
import Kuma.Lib.HashMap
import Kuma.Lib.Register
import Kuma.Lib.Fallible
import Kuma.Lib.OneTime
import Kuma.Nostr.Crate
import Kuma.Nostr.Replay
import Kuma.Nostr.Uri
import Kuma.Nostr.Bunker
import Kuma.Nostr.Policy
import Kuma.Nostr.Gate
import Kuma.Nostr.Registry
import Kuma.Nostr.Deciding
import Kuma.Nostr.Vault
import Kuma.Nostr.Protocol
import Kuma.Nostr.Worker
import Kuma.Nostr.Ledger
import Kuma.Nostr.Verbs
import Kuma.Nostr.Outlines
import Kuma.Nostr.Planning
import Kuma.Nostr.Steps
import Kuma.Nostr.KillSwitch
import Kuma.Nostr.Inactivity
import Kuma.Nostr.Rearming
import Kuma.Nostr.Tombstones
import Kuma.Nostr.Unrevoking
import Kuma.Nostr.Standing
import Kuma.Nostr.Books
import Kuma.Nostr.Secrets
import Kuma.Nostr.Signing
import Kuma.Nostr.Authentic
import Kuma.Nostr.Admission
import Kuma.Lib.Rank
import Kuma.Nostr.Shedding
import Kuma.Nostr.Granting
import Kuma.Lib.Lines
import Kuma.Lib.Script
import Kuma.Sync.Declaration
import Kuma.Sync.Converge
import Kuma.Sync.Commands
import Kuma.Sync.Machine
import Kuma.Sync.Promise
import Kuma.Sync.Authority
import Kuma.Sync.Taking
import Kuma.Sync.Inventory
import Kuma.Sync.Readers
import Kuma.Sync.Gate
import Kuma.Overrides.KeyFile
import Kuma.Overrides.Editing
import Kuma.Overrides.Converge
import Kuma.Overrides.Declared
import Kuma.Overrides.State
import Kuma.Overrides.Store
import Kuma.Overrides.Ownership
import Kuma.Overrides.Reread
import Kuma.Overrides.Reading
import Kuma.Overrides.LastWins
import Kuma.Overrides.Fixpoint
import Kuma.Overrides.Rerun
import Kuma.Overrides.Foreign
import Kuma.Overrides.Drift
import Kuma.Edit.Lists
import Kuma.Edit.Offers
import Kuma.Edit.Capture
import Kuma.Nostr.Queue
import Kuma.Nostr.Waits
import Kuma.Nostr.Advertising
import Kuma.Nostr.Discretion
import Kuma.Nostr.SafeList
import Kuma.Lib.Url
import Kuma.Nostr.Loopback
import Kuma.Nostr.Durable
import Kuma.Config.Schema
import Kuma.Config.Validate
import Kuma.Config.Printed
import Kuma.Nostr.Cards
import Kuma.Nostr.Windows
import Kuma.Nostr.Roads
import Kuma.Lib.Retention
import Kuma.Containerfile.Snapshot
import Kuma.Snapshot.Restore
import Kuma.Lockfile.Packages
import Kuma.Lockfile.Pin
import Kuma.Lib.SortDedup
import Kuma.Lockfile.Compose
import Kuma.Lockfile.Builds
import Kuma.Lockfile.Histories
import Kuma.Lib.Calendar
import Kuma.Lockfile.Timestamp
import Kuma.Lib.Splitting
import Kuma.Lib.Words
import Kuma.Updates.Moves
import Kuma.Lib.CommandLine
import Kuma.State.Quoting
import Kuma.State.Printed
import Kuma.State.Classify
import Kuma.State.Deployments
import Kuma.Relay.Filter
import Kuma.Relay.Server
import Kuma.Lib.ExecLine
import Kuma.Lib.UnitFile
import Kuma.Containerfile.NostrdUnit
import Kuma.Lib.SlidingWindow
import Kuma.Relay.RateLimiter
import Kuma.Relay.Holding
import Kuma.Nostr.Watermark
import Kuma.Nostr.Handshake
import Kuma.Nostr.Wire
import Kuma.Nostr.Percent
import Kuma.Nostr.Escapes
import Kuma.Nostr.ClientName
import Kuma.Nostr.Twins
import Kuma.Nostr.BunkerUri
import Kuma.Nostr.InPlace
import Kuma.Nostr.Mirror
import Kuma.Nostr.Migration
import Kuma.Nostr.Atomic
import Kuma.Install.Sizes
import Kuma.Install.Layout
import Kuma.Install.Target
import Kuma.Install.Disks
import Kuma.Hibernate.Kargs
import Kuma.Lib.Marked
import Kuma.Hibernate.Fstab
import Kuma.Hibernate.Lifecycle
import Kuma.Inspect.Reason
import Kuma.Inspect.Timestamp
import Kuma.Inspect.Redact
import Kuma.Containerfile.BootHealth
import Kuma.Containerfile.FstabSync
import Kuma.BootEntries.Titles
import Kuma.BootEntries.Apply
import Kuma.Backup.Credentials
import Kuma.Lib.Sourcing
import Kuma.Backup.OneMeaning
import Kuma.Backup.Repository
import Kuma.Backup.Pruning
import Kuma.Install.Account
import Kuma.Containerfile.FirstBoot
import Kuma.Containerfile.Emit
