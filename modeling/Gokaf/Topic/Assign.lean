import Mathlib.Data.List.Basic

namespace Topic

-- The replicas of the partitions `0` to `count - 1`.
def assignReplicas (count : Int) (brokerIDs : List Int) (rf : Int) : List (List Int) :=
  if count ≤ 0 ∨ brokerIDs = [] ∨ rf ≤ 0 then
    []
  else
    (List.range count.toNat).map fun partition =>
      (List.range rf.toNat).map fun replica =>
        brokerIDs.getD ((partition % brokerIDs.length + replica) % brokerIDs.length) 0

end Topic
