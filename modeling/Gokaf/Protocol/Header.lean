import Gokaf.Protocol.Types

open Go

namespace Protocol

structure RequestHeader where
  apiKey        : Int
  apiVersion    : Int
  correlationID : Int
  clientID      : Option Bytes
  deriving DecidableEq, Repr

def writeRequestHeader (h : RequestHeader) : Bytes :=
  writeInt16 h.apiKey ++ writeInt16 h.apiVersion ++ writeInt32 h.correlationID ++
    writeNullableString h.clientID

def readRequestHeader {m : Type → Type*} [Monad m] [MonadStateOf Bytes m] [MonadExceptOf Fault m] :
    m RequestHeader := do
  let apiKey ← readInt16
  let apiVersion ← readInt16
  let correlationID ← readInt32
  let clientID ← readNullableString
  return { apiKey, apiVersion, correlationID, clientID }

def writeResponseHeader (correlationID : Int) : Bytes :=
  writeInt32 correlationID

end Protocol
