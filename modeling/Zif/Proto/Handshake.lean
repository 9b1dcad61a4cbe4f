import Zif.Lib.Session
import Zif.Node.LocalPeer
import Zif.Node.Mirror

/-!
# The handshake

Two nodes that open a connection prove to each other who they are. One half of the handshake has a
sender, which shows its entry and its capabilities and signs a cookie, and a receiver, which checks them
(`handshake_send`, `handshake_recieve`). The dialler sends first and receives then; the listener does it
the other way round, with one more `ok` in between.

The encoding of messages is left open. A message that was read stands for what decoding its content
gives: into an entry, into capabilities and into an array of bytes. Of an encoding its length matters,
since a reader gives up on a message that is too long. How long an entry is, and whether a message
beyond the limit is read all the same because a part of it was in the buffer already, is up to the
`Codec`.
-/

namespace Zif.Proto

open Go Dht

/-! ## Messages -/

/-- `MaxMessageSize`. -/
def maxMessageSize : Nat := 1024 * 1024 * 5

/-- `ProtoHeader`. -/
def protoHeader : String := "header"

/-- `ProtoCap`. -/
def protoCap : String := ":ap"

/-- `ProtoOk`. -/
def protoOk : String := "ok"

/-- `ProtoNo`. -/
def protoNo : String := "no"

/-- `ProtoCookie`. -/
def protoCookie : String := "cookie"

/-- `ProtoSig`. -/
def protoSig : String := "sig"

/-- `MessageCapabilities`. -/
structure Capabilities where
  compression : List Bytes
  deriving DecidableEq, Repr

/-- The length of an encoded string of `l` bytes. -/
def encodedString (l : Nat) : Nat :=
  (if l < 32 then 1 else if l < 256 then 2 else if l < 65536 then 3 else 5) + l

/-- The length of the code for an array of `n` elements. -/
def encodedArray (n : Nat) : Nat := if n < 16 then 1 else if n < 65536 then 3 else 5

/-- The length of encoded capabilities: a map of the one field `Compression`. -/
def Capabilities.encodedLength (c : Capabilities) : Nat :=
  1 + Node.encodedName 11 + encodedArray c.compression.length +
    (c.compression.map fun s => encodedString s.length).sum

/-- The content of a message: its length, and what `Message.Read` makes of it. -/
structure Content where
  length : Nat
  /-- Into an entry; `none` is an error. -/
  entry : Option Entry
  /-- What is left in empty capabilities, whether or not there is an error. -/
  capabilities : Capabilities
  /-- What is left in an array of `n` zero bytes; the rest of it stays zero. -/
  array : (n : Nat) → Bytes

/-- `Message`; the other fields are not set when it is sent. -/
structure Message where
  header : String
  content : Option Content

/-- What is left open about the encoding. -/
structure Codec where
  /-- The length of an encoded entry. -/
  entryLength : Entry → Nat
  /-- A message over the limit that is read, since enough of it was in the buffer. -/
  overread : Message → Bool

namespace Content

/-- `Message.Write` of an entry. -/
def ofEntry (codec : Codec) (e : Entry) : Content where
  length := codec.entryLength e
  entry := if codec.entryLength e ≤ Node.maxMessageContentSize then some e else none
  capabilities := ⟨[]⟩
  array _ := []

/-- `Message.Write` of capabilities. The list is assigned when all of it has been decoded. -/
def ofCapabilities (c : Capabilities) : Content where
  length := c.encodedLength
  entry := none
  capabilities := if c.encodedLength ≤ Node.maxMessageContentSize then c else ⟨[]⟩
  array _ := []

/-- `Message.Write` of a byte string. More bytes than there is room for are an error. -/
def ofBytes (b : Bytes) : Content where
  length := Node.encodedBytes b.length
  entry := none
  capabilities := ⟨[]⟩
  array n := if b.length ≤ n then b else []

end Content

namespace Message

/-- The length of an encoded message: a map of the six fields, three of them nil and one empty. -/
def encodedLength (m : Message) : Nat :=
  1 + (Node.encodedName 6 + encodedString m.header.utf8ByteSize) + (Node.encodedName 6 + 1) +
    (Node.encodedName 6 + 1) + (Node.encodedName 4 + 1) + (Node.encodedName 11 + 1) +
    (Node.encodedName 7 + match m.content with
      | none => 1
      | some c => Node.encodedBytes c.length)

/-- A message without content. -/
def bare (header : String) : Message := ⟨header, none⟩

/-- `Message.Ok`. -/
def ok (m : Message) : Bool := m.header = protoOk

/-- `Message.Read` into an entry. -/
def readEntry (m : Message) : Result Entry :=
  match m.content with
  | none => .error (.error "Message has no content")
  | some c =>
    match c.entry with
    | none => .error (.error "unexpected EOF")
    | some e => .ok e

/-- `Message.Read` into empty capabilities, the error being dropped. -/
def readCapabilities (m : Message) : Capabilities :=
  match m.content with
  | none => ⟨[]⟩
  | some c => c.capabilities

/-- `Message.Read` into an array of `n` bytes, the error being dropped. -/
def readArray (m : Message) (n : Nat) : Bytes :=
  match m.content with
  | none => List.replicate n 0
  | some c => copyInto (List.replicate n 0) (c.array n)

end Message

/-! ## Talking -/

/-- A program on a connection that can fail. -/
abbrev Talk (α : Type) : Type := ExceptT Fault (Proc Message) α

namespace Talk

variable {α : Type} (codec : Codec)

/-- A message that is read: it is within the limit, or beyond it and read all the same. -/
def reads (m : Message) : Bool := decide (m.encodedLength ≤ maxMessageSize) || codec.overread m

/-- What a read comes to. -/
def readResult : Option Message → Result Message
  | none => .error (.error "EOF")
  | some m => if reads codec m then .ok m else .error (.error "unexpected EOF")

/-- What a write comes to. -/
def writeResult : Bool → Result Unit
  | true => .ok ()
  | false => .error (.error "use of closed network connection")

/-- `Client.ReadMessage`. -/
def readMessage : Talk Message := ExceptT.mk (.read fun m => .done (readResult codec m))

/-- `Client.WriteMessage`. -/
def writeMessage (m : Message) : Talk Unit := ExceptT.mk (.write m fun ok => .done (writeResult ok))

/-- A statement `cl.WriteMessage(m)`, its error being dropped. -/
def writeDropping (m : Message) : Talk Unit := ExceptT.mk (.write m fun _ => .done (.ok ()))

/-- `cl.Close()`. -/
def closeClient : Talk Unit := ExceptT.mk (.close (.done (.ok ())))

/-- What does not talk. -/
def lift (r : Result α) : Talk α := ExceptT.mk (.done r)

/-- `cl.WriteErr(err)`. -/
def writeErr : Fault → Talk Unit
  | .panic => lift (.ok ())
  | .error err => writeDropping ⟨protoNo, some (Content.ofBytes err.toUTF8.toList)⟩

/-- On an error something else is done before it is returned; a panic goes on. -/
def onError (t : Talk α) (handle : Talk Unit) : Talk α := ExceptT.mk (t.run.bind fun
  | .ok a => .done (.ok a)
  | .error .panic => .done (.error .panic)
  | .error (.error err) => handle.run.bind fun _ => .done (.error (.error err)))

/-- `if check(err) { return nil, nil, err }`. -/
def checked (t : Talk α) : Talk α := t.onError closeClient

/-- `if check(err) { cl.WriteMessage(Message{Header: ProtoNo}); return nil, nil, err }`. -/
def refusing (t : Talk α) : Talk α :=
  t.onError do
    closeClient
    writeDropping (.bare protoNo)

end Talk

open Talk

/-! ## The two halves -/

/-- A node that takes part in a handshake. Its key need not be that of its entry. -/
structure Party where
  /-- The entry it sends. -/
  entry : Entry
  capabilities : Capabilities
  /-- The key it signs with. -/
  key : Bytes
  /-- What `CryptoRandBytes` gives it, unless that fails. -/
  cookie : Option Bytes
  publicKey_length : entry.publicKey.length = publicKeySize
  key_length : key.length = Node.privateKeySize
  cookie_length : ∀ c ∈ cookie, c.length = 20

variable (P : Prims) (codec : Codec)

/-- The first message of a sender. -/
def headerMessage (e : Entry) : Message := ⟨protoHeader, some (Content.ofEntry codec e)⟩

/-- The capabilities of a sender. -/
def capMessage (c : Capabilities) : Message := ⟨protoCap, some (Content.ofCapabilities c)⟩

/-- The cookie of a receiver. -/
def cookieMessage (cookie : Bytes) : Message := ⟨protoCookie, some (Content.ofBytes cookie)⟩

/-- The signature of a sender. -/
def sigMessage (sig : Bytes) : Message := ⟨protoSig, some (Content.ofBytes sig)⟩

/-- `handshake_recieve`. -/
def handshakeRecieve (cookie : Option Bytes) : Talk (Entry × Capabilities) := do
  let header ← refusing (readMessage codec)
  let entry ← refusing (lift header.readEntry)
  refusing (lift (entry.verify P))
  checked (writeMessage (.bare protoOk))
  let peerCapsMsg ← checked (readMessage codec)
  let cookie ← checked (lift (cookie.elim (.error (.error "no randomness")) .ok))
  checked (writeMessage (cookieMessage cookie))
  let sig ← checked (readMessage codec)
  let verified ← lift (P.ed25519Verify entry.publicKey cookie (sig.readArray signatureSize))
  if verified then
    writeDropping (.bare protoOk)
    return (entry, peerCapsMsg.readCapabilities)
  else
    writeDropping (.bare protoNo)
    closeClient
    throw (.error "Signature not verified")

/-- `handshake_send`. -/
def handshakeSend (self : Party) : Talk Unit := do
  writeMessage (headerMessage codec self.entry)
  let msg ← readMessage codec
  if !msg.ok then throw (.error "Peer refused header")
  writeMessage (capMessage self.capabilities)
  let msg ← readMessage codec
  writeMessage (sigMessage (P.edSign self.key (msg.readArray 20)))
  let msg ← readMessage codec
  if !msg.ok then throw (.error "Peer refused signature")

/-- `handshake`, the listener. -/
def handshake (self : Party) : Talk (Entry × Capabilities) := ExceptT.mk
  ((handshakeRecieve P codec self.cookie).run.bind fun
    | .error f => (writeErr f).run.bind fun _ => .done (.error f)
    | .ok (header, caps) => (do
        writeDropping (.bare protoOk)
        handshakeSend P codec self
        return (header, caps) : Talk (Entry × Capabilities)).run)

/-- `StreamManager.Handshake`, the dialler. The error of `handshake_send` is overwritten by that of the
read after it, and when that fails there is no entry and no error. (The text of the error for another
message than `ok` is its content, which is left out.) -/
def streamHandshake (self : Party) : Talk (Option (Entry × Capabilities)) := ExceptT.mk
  ((handshakeSend P codec self).run.bind fun
    | .error .panic => .done (.error .panic)
    | _ => (readMessage codec).run.bind fun
      | .error _ => .done (.ok none)
      | .ok msg =>
        if !msg.ok then .done (.error (.error ""))
        else (do
          let server ← handshakeRecieve P codec self.cookie
          return some server : Talk (Option (Entry × Capabilities))).run)

end Zif.Proto
