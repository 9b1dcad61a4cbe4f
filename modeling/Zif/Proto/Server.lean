import Zif.Lib.Buffered
import Zif.Proto.Handshake

/-!
# The listening side of a connection

`Server.Handshake` reads its messages through the decoder of a `Client`, which has a buffer in front of the
connection. When the handshake is done the decoder is dropped, and `ConnectServer` opens a `yamux` session
on the connection itself.
-/

namespace Zif.Proto

open Go Dht Buffered

/-- The size of the buffer of a `bufio.Reader`. -/
def bufferSize : Nat := 4096

/-- `NewClient` on a connection whose reads give these pieces. -/
def newClient (pieces : List Bytes) : Reader UInt8 := ⟨[], maxMessageSize, pieces⟩

/-- `Client.ReadMessage` with the bytes it reads. The limit is set again after each message. -/
def clientRead (decode : Parse UInt8 Message) (cl : Reader UInt8) : Option Message × Reader UInt8 :=
  ((cl.run bufferSize decode).1,
    ⟨(cl.run bufferSize decode).2.buf, maxMessageSize, (cl.run bufferSize decode).2.src⟩)

/-- The handshake in `Server.Handshake`, and the client after it. -/
def serverHandshake (P : Prims) (codec : Codec) (decode : Parse UInt8 Message) (self : Party)
    (pieces : List Bytes) : Result (Entry × Capabilities) × Reader UInt8 :=
  let (result, _, cl) :=
    (handshake P codec self).run.runWith (clientRead decode) false (newClient pieces)
  (result, cl)

/-- What the session of `ConnectServer` is given to read. -/
def connectServer (cl : Reader UInt8) : Bytes := cl.src.flatten

end Zif.Proto
