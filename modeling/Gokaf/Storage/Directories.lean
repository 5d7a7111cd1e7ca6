import Gokaf.Storage.Execution
import Gokaf.Storage.Manager

open Go

namespace Storage

-- How much a crash leaves of the last segment of a log, in bytes of its log file and of its index file.
structure Remains where
  log   : Nat
  index : Nat
  deriving DecidableEq, Repr

namespace Manager

-- What a crash leaves of an open log, given by its key.
def tear (m : Manager) (disk : Disk) (torn : Bytes × Remains) : Disk :=
  match m.logs torn.fst with
  | none     => disk
  | some log => disk.write (.join m.dataDir torn.fst) (log.crash torn.snd.log torn.snd.index)

def crash (m : Manager) (torn : List (Bytes × Remains)) : Manager :=
  .new m.dataDir (torn.foldl m.tear m.disk)

end Manager
end Storage
