import Zif.Dht.Discovery
import Zif.Node.LocalPeer
import Zif.Node.Writers

/-!
# Resolving an address

`PeerManager.Resolve` looks for the entry of an address: in the local store first, and then by asking
other peers, beginning with the closest ones that are known. `resolveStep` asks one peer, and is meant
to go on with the peers that one names. All steps of a call share one budget.

The network is a parameter: a state, and what it does when a peer is looked up, connected to or asked.
Nothing is assumed of it; a network of honest peers is `hostNetwork`.
-/

namespace Zif.Node

open Go Dht

/-! ## Messages -/

/-- A message that was read, with what its content decodes to. -/
structure Message (α : Type) where
  header : String
  content : Except String α

/-- `ProtoNo`. -/
def protoNo : String := "no"

/-- `ProtoDhtQuery`. -/
def protoDhtQuery : String := "dht.query"

/-- `ProtoDhtEntries`. -/
def protoDhtEntries : String := "dht.entries"

/-! ## Asking a peer -/

/-- What the network does: its state is of type `σ`, and `π` is a connection to a peer. -/
structure Network (σ π : Type) where
  /-- `GetPeer`: the connection to the peer with this binary address. -/
  getPeer : σ → Bytes → Option π
  /-- `ConnectPeerDirect`: the connection to a public address and port, with the entry received in the
  handshake unless the connection was there already. -/
  connectPeerDirect : σ → Bytes → Int64 → σ × Option (π × Option Entry)
  /-- The first message that comes back for `dht.query`. -/
  sendQuery : σ → π → Address → σ × Except String (Message Entry)
  /-- The message that comes back for `dht.findclosest`. -/
  sendFindClosest : σ → π → Address → σ × Except String (Message (List (Option Entry)))

/-- The network and the local store during a call, with the budget that is left and the arguments of
the steps that were made. -/
structure Search (σ : Type) where
  net : σ
  dht : NetDB
  depth : Nat
  visits : List (Option Entry)

/-- Why there is no entry: `RecursionLimit`, which is told apart from other errors, or a fault. -/
inductive Stop where
  | recursionLimit
  | fault (f : Fault)
  deriving DecidableEq, Repr

variable (P : Prims)

/-- `Client.Query`, from the reply on. -/
def clientQueryReply (reply : Except String (Message Entry)) : Result (Option Entry) :=
  match reply with
  | .error err => .error (.error err)
  | .ok er =>
    if er.header = protoNo then .error (.error "Peer returned no")
    else
      match er.content with
      | .error err => .error (.error err)
      | .ok entry => (clientQuery P entry).map some

/-- `Client.FindClosest`, from the reply on. -/
def clientFindClosest (reply : Except String (Message (List (Option Entry)))) :
    Result (List (Option Entry)) :=
  match reply with
  | .error err => .error (.error err)
  | .ok closest =>
    match closest.content with
    | .error err => .error (.error err)
    | .ok ret => .ok ret

/-! ## The loops -/

/-- The loop of `resolveStep` over the peers it was told of. -/
def tryEach {σ : Type}
    (step : Option Entry → Search σ → Option (Search σ × Except Stop (Option Entry))) :
    List (Option Entry) → Search σ → Option (Search σ × Except Stop (Option Entry))
  | [], s => some (s, .error (.fault (.error "No entries could be found")))
  | i :: rest, s =>
    match step i s with
    | none => none
    | some (s, .error f) => some (s, .error f)
    | some (s, .ok (some result)) => some (s, .ok (some result))
    | some (s, .ok none) => tryEach step rest s

/-- The loop of `Resolve` over the closest peers. An error other than `RecursionLimit` is logged. -/
def resolveEach {σ : Type} (addr : Address)
    (step : Option Entry → Search σ → Option (Search σ × Except Stop (Option Entry))) :
    List (Option Entry) → Search σ → Option (Search σ × Except Stop Entry)
  | [], s => some (s, .error (.fault (.error "Address could not be resolved")))
  | i :: rest, s =>
    match step i s with
    | none => none
    | some (s, .error .recursionLimit) => some (s, .error .recursionLimit)
    | some (s, .error (.fault .panic)) => some (s, .error (.fault .panic))
    | some (s, .error (.fault (.error _))) => resolveEach addr step rest s
    | some (s, .ok none) => resolveEach addr step rest s
    | some (s, .ok (some entry)) =>
      if entry.address.equals addr then
        match dropError (s.dht.insert P entry) with
        | (dht, .error f) => some ({ s with dht }, .error (.fault f))
        | (dht, .ok ()) => some ({ s with dht }, .ok entry)
      else resolveEach addr step rest s

/-- The search that `Resolve` starts with. -/
def Search.start {σ : Type} (net : σ) (dht : NetDB) : Search σ := ⟨net, dht, 6, []⟩

/-- The body of `resolveStep` is entered. -/
def Search.visit {σ : Type} (s : Search σ) (e : Option Entry) : Search σ :=
  { s with depth := s.depth - 1, visits := s.visits ++ [e] }

/-- The local part of `Resolve`: the own entry, or what the store has. `sql.ErrNoRows` is not an error
to it. -/
def LocalPeer.lookup (lp : LocalPeer) (addr : Address) : NetDB × Result (Option Entry) :=
  if addr.equals lp.dht.addr then (lp.dht, .ok (some lp.entry))
  else
    match lp.dht.query P addr with
    | (dht, .ok kv) => (dht, .ok (kv.map Prod.fst))
    | (dht, .error f) =>
      (dht, if f = .error "sql: no rows in result set" then .ok none else .error f)

/-- The entries a peer holds are stored under their own address. -/
structure StoredAsOwn (lp : LocalPeer) : Prop where
  own : lp.entry.address.raw = lp.dht.addr.raw
  rows : ∀ r ∈ lp.dht.db.entries, ∃ raw, r.address = .text (Address.encodeRaw P raw)

namespace Network

variable {σ π : Type} (net : Network σ π)

/-- `Peer.Query`. What it returns is an interface, `none` being nil; an interface that was made from a
pointer is not nil, whatever the pointer is. -/
def query (s : Search σ) (peer : π) (addr : Address) : Search σ × Result (Option (Option Entry)) :=
  let (net', reply) := net.sendQuery s.net peer addr
  ({ s with net := net' }, (clientQueryReply P reply).map some)

/-- `Peer.FindClosest`. -/
def findClosest (s : Search σ) (peer : π) (addr : Address) : Search σ × Result (List (Option Entry)) :=
  let (net', reply) := net.sendFindClosest s.net peer addr
  ({ s with net := net' }, clientFindClosest reply)

/-- The connection to the peer of an entry, made if there is none. `Peer.Connect` puts the entry it
receives into the local store. -/
def reach (s : Search σ) (e : Entry) : Search σ × Result π :=
  match net.getPeer s.net e.address.raw with
  | some peer => (s, .ok peer)
  | none =>
    match net.connectPeerDirect s.net e.publicAddress e.port with
    | (net', none) => ({ s with net := net' }, .error (.error "Peer could not be reached"))
    | (net', some (peer, none)) => ({ s with net := net' }, .ok peer)
    | (net', some (peer, some entry)) =>
      let (dht, res) := dropError (s.dht.insert P entry)
      ({ s with net := net', dht }, res.map fun _ => peer)

/-! ## Resolving -/

/-- `resolveStep`. It calls itself at most `fuel` deep, and the result is `none` if that is not
enough. -/
def resolveStep (addr : Address) :
    (fuel : Nat) → Option Entry → Search σ → Option (Search σ × Except Stop (Option Entry))
  | 0, _, _ => none
  | fuel + 1, e, s =>
    if s.depth = 0 then some (s, .error .recursionLimit)
    else
      match e with
      | none => some (s.visit none, .error (.fault .panic))
      | some e =>
        match net.reach P (s.visit (some e)) e with
        | (s, .error f) => some (s, .error (.fault f))
        | (s, .ok peer) =>
          match net.query P s peer addr with
          | (s, .error f) => some (s, .error (.fault f))
          | (s, .ok (some entry)) => some (s, .ok entry)
          | (s, .ok none) =>
            match net.findClosest s peer addr with
            | (s, .error f) => some (s, .error (.fault f))
            | (s, .ok closest) => tryEach (resolveStep addr fuel) closest s

/-- `Resolve`. -/
def resolve (fuel : Nat) (lp : LocalPeer) (s : σ) (addr : Address) :
    Option (Search σ × Except Stop Entry) :=
  match lp.lookup P addr with
  | (dht, .error f) => some (.start s dht, .error (.fault f))
  | (dht, .ok (some kv)) => some (.start s dht, .ok kv)
  | (dht, .ok none) =>
    match dht.findClosest P addr with
    | (dht, .error f) => some (.start s dht, .error (.fault f))
    | (dht, .ok closest) => resolveEach P addr (net.resolveStep P addr fuel) closest (.start s dht)

/-! ## Searching the network -/

/-- One peer is asked: the connection to it, and its entry for the address if it answers with one that
is valid. -/
def ask (addr : Address) (s : Search σ) (e : Entry) : Search σ × Result (π × Option Entry) :=
  match net.reach P s e with
  | (s, .error f) => (s, .error f)
  | (s, .ok peer) =>
    match net.query P s peer addr with
    | (s, .error .panic) => (s, .error .panic)
    | (s, .ok (some (some entry))) =>
      (s, .ok (peer, if entry.address.equals addr then some entry else none))
    | (s, _) => (s, .ok (peer, none))

/-- The search of at most `n` peers. A peer that has no entry is followed by those that `next` gives
for it, and then by the others. An element that is nil ends the search. -/
def search (next : Search σ → π → Search σ × List (Option Entry)) (addr : Address) :
    (n : Nat) → List (Option Entry) → Search σ → Option Entry
  | 0, _, _ => none
  | _ + 1, [], _ => none
  | _ + 1, none :: _, _ => none
  | n + 1, some e :: stack, s =>
    match net.ask P addr (s.visit (some e)) e with
    | (_, .error .panic) => none
    | (s, .error (.error _)) => search next addr n stack s
    | (_, .ok (_, some entry)) => some entry
    | (s, .ok (peer, none)) => search next addr n ((next s peer).2 ++ stack) (next s peer).1

/-- The peers a peer names as closest to the address; none if it does not answer. -/
def named (addr : Address) (s : Search σ) (peer : π) : Search σ × List (Option Entry) :=
  match net.findClosest s peer addr with
  | (s, .ok closest) => (s, closest)
  | (s, .error _) => (s, [])

/-- The search in depth-first order. -/
def depthFirst : Address → Nat → List (Option Entry) → Search σ → Option Entry :=
  fun addr => net.search P (net.named addr) addr

/-- The search that only asks the peers it is given. -/
def askOnly : Address → Nat → List (Option Entry) → Search σ → Option Entry :=
  net.search P fun s _ => (s, [])

end Network

/-! ## Honest peers -/

namespace LocalPeer

/-- `HandleQuery`: the first message that is written. Without a row that is `no`; the empty entry that
follows it is not read by `Client.Query`. -/
def handleQuery (lp : LocalPeer) (address : Address) : LocalPeer × Result (Message Entry) :=
  if address.equals lp.dht.addr then (lp, .ok ⟨protoDhtQuery, .ok lp.entry⟩)
  else
    match lp.dht.query P address with
    | (dht, .error f) => ({ lp with dht }, .error f)
    | (dht, .ok none) => ({ lp with dht }, .ok ⟨protoNo, .error "Message has no content"⟩)
    | (dht, .ok (some (kv, _))) => ({ lp with dht }, .ok ⟨protoDhtQuery, .ok kv⟩)

/-- `HandleFindClosest`. -/
def handleFindClosest (lp : LocalPeer) (address : Address) :
    LocalPeer × Result (Message (List (Option Entry))) :=
  match lp.dht.findClosest P address with
  | (dht, .error f) => ({ lp with dht }, .error f)
  | (dht, .ok pairs) => ({ lp with dht }, .ok ⟨protoDhtEntries, .ok pairs⟩)

end LocalPeer

/-- The peer with the binary address `raw` handles a request. The stream is closed when it is done, so
after an error the other side reads nothing. -/
def atHost {α : Type} (handle : LocalPeer → LocalPeer × Result α) (raw : Bytes) :
    List LocalPeer → List LocalPeer × Except String α
  | [] => ([], .error "EOF")
  | lp :: hosts =>
    if lp.dht.addr.raw = raw then
      match handle lp with
      | (lp, .ok reply) => (lp :: hosts, .ok reply)
      | (lp, .error _) => (lp :: hosts, .error "EOF")
    else
      let (hosts, reply) := atHost handle raw hosts
      (lp :: hosts, reply)

/-- A network of honest peers: each answers from its own store. There is a connection to every one of
them. -/
def hostNetwork : Network (List LocalPeer) Bytes where
  getPeer hosts raw := if hosts.any fun lp => lp.dht.addr.raw = raw then some raw else none
  connectPeerDirect hosts _ _ := (hosts, none)
  sendQuery hosts raw addr := atHost (fun lp => lp.handleQuery P addr) raw hosts
  sendFindClosest hosts raw addr := atHost (fun lp => lp.handleFindClosest P addr) raw hosts

end Zif.Node
