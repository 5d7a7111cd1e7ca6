import Gokaf.Producer.Theorems.Sessions
import Gokaf.Network.Theorems.Idempotence
import Gokaf.Network.Theorems.Consumer
import Gokaf.Network.Theorems.Acks
import Gokaf.Network.Theorems.Divergence
import Gokaf.Network.Theorems.Failover
import Gokaf.Network.Theorems.Watching
import Gokaf.Network.Theorems.Succession
import Gokaf.Group.Theorems.Fresh
import Gokaf.Network.Theorems.Roles
import Gokaf.Network.Theorems.Atomicity
import Gokaf.Replication.Theorems.Watermark
import Gokaf.Network.Theorems.Serving
import Gokaf.Producer.Theorems.Wraparound
import Gokaf.Network.Theorems.Admission
import Gokaf.Protocol.Theorems.Message
import Gokaf.Topic.Theorems.Assign
import Gokaf.Storage.Theorems.Rebuild
import Gokaf.Group.Theorems.Renewal
import Gokaf.Group.Theorems.Division
import Gokaf.Network.Theorems.Progress
import Gokaf.Cluster.Theorems.Partitions
import Gokaf.Go.Routine
import Gokaf.Network.Client
import Gokaf.Network.Connection
import Gokaf.Network.Layout
import Gokaf.Network.Theorems.Connection
import Gokaf.Network.Theorems.RoundTrip
import Gokaf.Network.Theorems.Send
