import Gokaf.Go.Int

open Go

namespace Cluster

-- The ids of the brokers of a cluster. `ParseMembership` reads each as an `int32` and sorts them.
structure Membership where
  ids    : List Int
  sorted : ids.Pairwise (· ≤ ·)
  int32  : ∀ id ∈ ids, IsInt32 id

end Cluster
