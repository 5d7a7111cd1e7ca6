import Mathlib.Data.List.Basic

namespace Topic

structure Partition where
  id       : Int
  leader   : Int
  replicas : List Int
  isr      : List Int
  deriving DecidableEq, Repr

end Topic
