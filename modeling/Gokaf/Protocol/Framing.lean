import Gokaf.Protocol.Types

open Go

namespace Protocol

def writeFrame (payload : Bytes) : Bytes :=
  putInt 32 payload.length ++ payload

def readFrame : Decoder Bytes := do
  let length := BigEndian.uint (← readFull 4)
  readFull length

end Protocol
