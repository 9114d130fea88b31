import Discovery.GoString
import Discovery.LowerCase
import Discovery.Kv.Bucket
import Discovery.Kv.Scan
import Discovery.Model.Basic
import Discovery.Model.Service
import Discovery.Model.Instance
import Discovery.Model.Tokens
import Discovery.Model.Config
import Discovery.Store.Instances
import Discovery.Store.Rename
import Discovery.Store.Records
import Discovery.Store.Remote
import Discovery.Machine
import Discovery.Store.Catalog
import Discovery.Lww
import Discovery.Kv.Merge
import Discovery.Store.Replica
import Discovery.Store.Convergence
import Discovery.Store.Node
import Discovery.Store.Absence
import Discovery.Store.Revival
import Discovery.Store.Isolation
import Discovery.Store.Replay
import Discovery.Auth.Identity
import Discovery.Server.Access
import Discovery.Server.Services
import Discovery.Server.ServiceAcl
import Discovery.Server.Instances
import Discovery.Server.Interference
import Discovery.Server.Tokens
import Discovery.Server.Minting
import Discovery.Server.Disclosure
import Discovery.Server.AccessGrowth
import Discovery.Health.Checker
import Discovery.Health.Draining
import Discovery.Server.BlockedClient
import Discovery.Store.BlockDelivery
import Discovery.Store.RenameDelivery
import Discovery.Model.ConfigKeys
import Discovery.Store.Revisions
import Discovery.Store.Config
import Discovery.Store.ConfigHistory
import Discovery.Store.ConfigIsolation
import Discovery.Store.AntiEntropy
import Discovery.Overlay
import Discovery.Semver
import Discovery.Store.Resolve
import Discovery.Store.Precedence
import Discovery.Model.Marshal
import Discovery.Model.ConfigHash
import Discovery.Server.Config
import Discovery.Server.ConfigETag
import Discovery.Store.ConfigReplay
import Discovery.Store.Drafts
import Discovery.Store.Publications
import Discovery.Store.Republish
import Discovery.Store.Causality
import Discovery.Store.MergeRace
import Discovery.Store.EmitOrder
import Discovery.Health.StaleSweep
import Discovery.Health.LostHeartbeat
import Discovery.Store.ResolveInterleaved
import Discovery.Store.Ownership
import Discovery.Store.RenameFrame
import Discovery.Store.WellFormed
import Discovery.Cluster.Gossip
import Discovery.Server.ManagedEdits
import Discovery.Store.AffinityExpiry
import Discovery.Server.Sticky
import Discovery.Server.StickyRace
import Discovery.Server.GrantRace
import Discovery.Server.ConfigWrites
import Discovery.Server.Login
import Discovery.Server.Reads
import Discovery.Server.Routes
import Discovery.Server.BelowWrite
import Discovery.Health.Durations
import Discovery.WeightedChoice
import Discovery.Server.WeightedPick
import Discovery.Store.Silence
import Discovery.Server.StickyOutcome
import Discovery.Kv.Newest
import Discovery.Store.Audit
import Discovery.Model.Compact
import Discovery.Store.Rollback
import Discovery.Server.DiscoverETag
import Discovery.Exposition
import Discovery.Server.Metrics
import Discovery.Url
import Discovery.Server.Addresses
import Discovery.Masterminds.Version
import Discovery.Masterminds.Constraints
import Discovery.Floor
import Discovery.StampedCounters
import Discovery.Stats.Ring
import Discovery.Server.Tags
import Discovery.Server.Throttle
import Discovery.Model.DeclaredType
import Discovery.FloatRounding
import Discovery.Js.Number
import Discovery.Js.Json
import Discovery.Js.Properties
import Discovery.Ui.ConfigVars
import Discovery.Ui.ConfigEditor
import Discovery.Channel
import Discovery.Cluster.Peers
import Discovery.Directory
import Discovery.Lease
import Discovery.Server.Hub
import Discovery.Server.Polling
import Discovery.Server.Sessions
import Discovery.Server.Watch
import Discovery.Store.Registry
import Discovery.Health.Probes
import Discovery.Health.TickOrder
import Discovery.Health.Verdicts
import Discovery.Stats.Collector
import Discovery.Ui.EventStream
import Discovery.Server.AuditTrail
import Discovery.Ui.ConfigDiff
