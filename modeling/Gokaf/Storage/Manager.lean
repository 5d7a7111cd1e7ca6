import Gokaf.Storage.Log

open Go

namespace Storage

def logKey (topic : Bytes) (partition : Int) : Bytes :=
  topic ++ 45 :: decimal partition

def logDir (dataDir topic : Bytes) (partition : Int) : Path :=
  .join dataDir (logKey topic partition)

-- The manager with the file system. An open log has the contents of its files, so two open logs
-- must not share a directory.
structure Manager where
  dataDir : Bytes
  disk    : Disk
  logs    : Bytes → Option Log

namespace Manager

def new (dataDir : Bytes) (disk : Disk) : Manager where
  dataDir := dataDir
  disk    := disk
  logs _  := none

-- The state of a log after an operation on it. All that it has written is in its files.
def set (m : Manager) (topic : Bytes) (partition : Int) (log : Log) : Manager :=
  { m with
    disk := m.disk.write (logDir m.dataDir topic partition) log.dir
    logs := Function.update m.logs (logKey topic partition) (some log) }

def log (m : Manager) (topic : Bytes) (partition : Int) : Manager × Except IOError Log :=
  match m.logs (logKey topic partition) with
  | some log => (m, .ok log)
  | none     =>
    match openLog m.disk (logDir m.dataDir topic partition) with
    | (disk, .error e) => ({ m with disk }, .error e)
    | (disk, .ok log)  => ({ m with disk }.set topic partition log, .ok log)

-- What a caller does that asks for a log and appends to it.
def append (m : Manager) (topic : Bytes) (partition : Int) (payload : Bytes) (stamp : Stamp) (fault : Option Fault) :
    Manager × Except IOError Int :=
  match m.log topic partition with
  | (m, .error e) => (m, .error e)
  | (m, .ok log)  =>
    match log.appendWithOffset payload stamp fault with
    | (log, r) => (m.set topic partition log, r)

def close (m : Manager) : Manager :=
  .new m.dataDir m.disk

end Manager
end Storage
