import Gokaf.Go.Bytes
import Gokaf.Topic.Partition
import Mathlib.Data.Finmap

open Go

namespace Topic

structure Topic where
  name       : Bytes
  partitions : List Partition
  deriving DecidableEq, Repr

-- A topic is stored under its name.
abbrev Registry := Finmap fun _ : Bytes => Topic

inductive Error
  | topicExists
  | topicNotFound
  deriving DecidableEq, Repr

namespace Registry

-- What `All` may return: the map is ranged over in any order.
def All (r : Registry) (topics : List Topic) : Prop :=
  (topics : Multiset Topic) = r.entries.map (·.snd)

instance (r : Registry) : DecidablePred r.All :=
  fun topics => inferInstanceAs (Decidable ((topics : Multiset Topic) = r.entries.map (·.snd)))

def get (r : Registry) (name : Bytes) : Option Topic :=
  r.lookup name

def upsert (r : Registry) (t : Topic) : Registry :=
  r.insert t.name t

def delete (r : Registry) (name : Bytes) : Registry × Except Error Unit :=
  if (r.lookup name).isSome then (r.erase name, .ok ()) else (r, .error .topicNotFound)

end Registry
end Topic
