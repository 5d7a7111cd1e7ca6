import Gokaf.Topic.Partition
import Mathlib.Data.List.Sort

namespace Network

def liveISR (peerAlive : Int → Bool) (isr : List Int) (deadID : Int) : List Int :=
  (isr.filter fun brokerID => brokerID ≠ deadID ∧ peerAlive brokerID).insertionSort (· ≤ ·)

-- What `OnPeerDown` does with one partition; `none` if it leaves it alone.
def reassign (peerAlive : Int → Bool) (deadID : Int) (partition : Topic.Partition) : Option Topic.Partition :=
  if partition.leader ≠ deadID then
    none
  else
    match liveISR peerAlive partition.isr deadID with
    | []              => none
    | leader :: liveISR => some { partition with leader, isr := leader :: liveISR }

end Network
