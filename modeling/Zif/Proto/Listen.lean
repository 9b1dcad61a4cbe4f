import Zif.Go.Basic
import Zif.Lib.Runs

/-!
# Accepting connections

`Server.Listen` accepts one connection after the other. From each it reads what protocol is spoken and in
which version, two bytes each, and then goes on with the handshake in a goroutine of its own. The two reads
are made in the loop itself, without a deadline. The side that dials sends these bytes first
(`handleConnection`).

The errors of the reads are dropped. When a connection ends before, the variable that is read into stays
zero, which is also the version.
-/

namespace Zif.Proto.Listen

open Go

/-! ## Two bytes -/

/-- An `int16` in little endian order, by its bits. -/
def int16 (lo hi : UInt8) : UInt16 := UInt16.ofNat (lo.toNat + 256 * hi.toNat)

/-- `ProtoZif`. -/
def protoZif : UInt16 := 0x7a66

/-- `ProtoVersion`. -/
def protoVersion : UInt16 := 0

/-- `binary.Write` of an `int16`. -/
def writeInt16 (n : UInt16) : Bytes := [UInt8.ofNat (n.toNat % 256), UInt8.ofNat (n.toNat / 256)]

/-- What `handleConnection` sends before the handshake. -/
def preamble : Bytes := writeInt16 protoZif ++ writeInt16 protoVersion

/-! ## Connections -/

/-- A connection, as it is seen on the listening side. -/
structure Conn where
  /-- All bytes that have come. -/
  sent : Bytes
  /-- How many of them `Listen` has read. -/
  taken : Nat
  /-- The other side has closed the connection. -/
  closed : Bool
  deriving DecidableEq, Repr

namespace Conn

/-- A new connection. -/
def new : Conn := ⟨[], 0, false⟩

/-- More bytes come, unless the connection is closed. -/
def send (b : Bytes) (c : Conn) : Conn := if c.closed then c else { c with sent := c.sent ++ b }

/-- The other side closes the connection. -/
def close (c : Conn) : Conn := { c with closed := true }

/-- `binary.Read` into an `int16` that is zero: its value then, and the connection. It has to wait for two
bytes, or for the end of the connection. -/
def readInt16 (c : Conn) : Option (UInt16 × Conn) :=
  match c.sent.drop c.taken with
  | lo :: hi :: _ => some (int16 lo hi, { c with taken := c.taken + 2 })
  | rest => if c.closed then some (0, { c with taken := c.taken + rest.length }) else none

/-- The connection is taken for one of this protocol and version. -/
def accepted (c : Conn) : Bool :=
  c.sent.take 2 = writeInt16 protoZif ∧
    (4 ≤ c.sent.length → (c.sent.drop 2).take 2 = writeInt16 protoVersion)

/-- Enough has come to tell. -/
def Settled (c : Conn) : Prop :=
  c.closed = true ∨ 4 ≤ c.sent.length ∨ 2 ≤ c.sent.length ∧ c.sent.take 2 ≠ writeInt16 protoZif

instance : DecidablePred Settled := fun c =>
  inferInstanceAs (Decidable (c.closed = true ∨ 4 ≤ c.sent.length ∨
    2 ≤ c.sent.length ∧ c.sent.take 2 ≠ writeInt16 protoZif))

end Conn

/-! ## The loop -/

/-- Where the loop is; the connections are numbered in the order they come in. -/
inductive Stage where
  | accepting
  /-- Reading the protocol. -/
  | zif (i : Nat)
  /-- Reading the version. -/
  | version (i : Nat)
  deriving DecidableEq, Repr

/-- The state of `Listen`. -/
structure State where
  conns : List Conn
  /-- The number of connections that were accepted. -/
  count : Nat
  stage : Stage
  /-- The connections that a handshake was begun on. -/
  handshakes : List Nat
  deriving DecidableEq, Repr

/-- What can happen. -/
inductive Event where
  /-- A connection comes in. -/
  | connect
  /-- Bytes come on a connection. -/
  | send (i : Nat) (b : Bytes)
  /-- A connection is closed by the other side. -/
  | close (i : Nat)
  /-- `Accept` fails; the loop goes on. -/
  | acceptFails
  /-- The loop takes a step, if it does not have to wait. -/
  | loop
  deriving DecidableEq, Repr

namespace State

/-- `net.Listen` has returned. -/
def start : State := ⟨[], 0, .accepting, []⟩

/-- An `int16` is read from connection `i`. -/
def read (s : State) (i : Nat) (next : UInt16 → State → State) : State :=
  match s.conns[i]? with
  | none => s
  | some c =>
    match c.readInt16 with
    | none => s
    | some (v, c) => next v { s with conns := s.conns.set i c }

/-- A step of the loop. -/
def loop (s : State) : State :=
  match s.stage with
  | .accepting =>
    if s.count < s.conns.length then { s with count := s.count + 1, stage := .zif s.count } else s
  | .zif i => s.read i fun v s => { s with stage := if v = protoZif then .version i else .accepting }
  | .version i => s.read i fun v s =>
    if v = protoVersion then { s with stage := .accepting, handshakes := s.handshakes ++ [i] }
    else { s with stage := .accepting }

/-- The state after an event. -/
def step (s : State) : Event → State
  | .connect => { s with conns := s.conns ++ [.new] }
  | .send i b => { s with conns := s.conns.modify i (Conn.send b) }
  | .close i => { s with conns := s.conns.modify i Conn.close }
  | .acceptFails => s
  | .loop => s.loop

/-- The number of connections that the loop is done with. -/
def done (s : State) : Nat :=
  match s.stage with
  | .accepting => s.count
  | .zif i | .version i => i

/-- Connection `i` is taken for one of this protocol and version. -/
def accepts (s : State) (i : Nat) : Bool := s.conns[i]?.any Conn.accepted

end State

/-- Nothing happens on the connections up to `i`. -/
def Event.Spares (i : Nat) : Event → Prop
  | .send j _ | .close j => i < j
  | _ => True

end Zif.Proto.Listen
