import Gokaf.Storage.Contents

open Go

namespace Storage

-- The segments that a log with the entries `L` has, the last of them apart.
def layout (L : List Bytes) : List (List Bytes) × List Bytes :=
  L.foldl (fun pss p => place pss.fst pss.snd p) ([], [])

namespace Log

-- A log that appends and restarts without a failure have built in an empty directory.
inductive Built : Log → List Bytes → Prop
  | empty : Built .empty []
  | append {l l' : Log} {L : List Bytes} {p : Bytes} {stamp : Stamp} {o : Int} :
    Built l L → p.length < 2 ^ 32 → l.appendWithOffset p stamp = (l', .ok o) → Built l' (L ++ [stamp.run l.endOffset p])
  | reopen {l l' : Log} {L : List Bytes} {loc : Location} :
    Built l L → Ordinary loc.dir → loc.openLog l.close = .ok l' → Built l' L

-- The `.log` files. The name of a file is printed from the base offset.
def logFiles (l : Log) : List (Int × Bytes) :=
  l.segments.map fun s => (s.baseOffset, s.logFile)

end Log
end Storage
