import Molia.Core.Envelope
import Molia.Net.Endpoints
import Molia.Net.Kademlia
import Molia.Net.Quarantine
import Molia.Net.Recency
import Molia.Net.Smoothing
import Molia.Node.Forwarding
import Molia.Node.Integrity
import Molia.Node.Ownership
import Molia.Node.Replication
import Molia.Node.Selection
import Molia.Node.Slots
import Molia.Shard.Attribution
import Molia.Shard.Copies
import Molia.Shard.Correlations
import Molia.Shard.Credit
import Molia.Shard.DeadPeers
import Molia.Shard.Deadlines
import Molia.Shard.Durability
import Molia.Shard.Flood
import Molia.Shard.Flush
import Molia.Shard.Formats
import Molia.Shard.Loop
import Molia.Shard.Nesting
import Molia.Shard.Probes
import Molia.Shard.RelayCost
import Molia.Shard.Secrecy
import Molia.Shard.Timeouts
import Molia.Shard.Unsolicited
import Molia.Store.CompactionCrash
import Molia.Store.Convergence
import Molia.Store.LogDamage
import Molia.Store.Reconstruct
import Molia.Store.Retention
import Molia.Store.Sequence
import Molia.Webrtc.Response
