import Distribd.Schemes.Machine
import Distribd.Schemes.History
import Distribd.Schemes.TreeMap
import Distribd.Schemes.Worklist
import Distribd.Schemes.FileSystem
import Distribd.Schemes.RwLock
import Distribd.Schemes.Staged
import Distribd.Schemes.Segments
import Distribd.Schemes.Survey
import Distribd.Schemes.Watch
import Distribd.Schemes.ByteKeys
import Distribd.Schemes.UnixPath
import Distribd.Schemes.Url
import Distribd.Schemes.Json
import Distribd.Schemes.JsonSchema
import Distribd.Types
import Distribd.Store.Action
import Distribd.Store.Apply
import Distribd.Store.Journal
import Distribd.Store.Holders
import Distribd.Store.Pending
import Distribd.Store.Replica
import Distribd.Store.Snapshot
import Distribd.Store.Install
import Distribd.Store.Subscribers
import Distribd.Store.Mirroring
import Distribd.Store.Waiters
import Distribd.Store.Notifying
import Distribd.Store.Pulls
import Distribd.Store.Orphans
import Distribd.Store.Tags
import Distribd.Store.TagRows
import Distribd.Cluster.Submit
import Distribd.Cluster.Effects
import Distribd.Cluster.Crash
import Distribd.Cluster.Collect
import Distribd.Cluster.Acknowledged
import Distribd.Cluster.Children
import Distribd.Cluster.Refetch
import Distribd.Cluster.Fixpoint
import Distribd.Cluster.Grace
import Distribd.Cluster.TagIntegrity
import Distribd.Node.Content
import Distribd.Node.Addressed
import Distribd.Registry.Read
import Distribd.Registry.TagList
import Distribd.Registry.Paths
import Distribd.Registry.DigestText
import Distribd.Registry.Extractor
import Distribd.Registry.Walk
import Distribd.Registry.Designated
import Distribd.Registry.Verdict
import Distribd.Registry.Write
import Distribd.Registry.Requests
import Distribd.Registry.Sessions
import Distribd.Registry.Retries
import Distribd.Registry.Ranges
import Distribd.Registry.Provenance
import Distribd.Registry.WellFormed
import Distribd.Registry.Confined
import Distribd.Registry.ReadBack
import Distribd.Cluster.Servable
import Distribd.Cluster.Import
import Distribd.Cluster.ConsistentWrite
import Distribd.Node.Cleanup
import Distribd.Store.SnapshotText
import Distribd.Store.Locks
import Distribd.Store.Log
import Distribd.Store.LogCrash
import Distribd.Cluster.Rounds
import Distribd.Cluster.Forwarding
import Distribd.Cluster.Replication
import Distribd.Cluster.Fsck
import Distribd.Registry.Isolation
import Distribd.Registry.Tokens
import Distribd.Store.Recovery
import Distribd.Registry.Routing
import Distribd.Registry.Challenge
import Distribd.Registry.Webhooks
