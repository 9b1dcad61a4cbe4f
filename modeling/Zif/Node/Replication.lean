import Zif.Node.Mirror
import Zif.Node.MirrorCommand

/-!
# Mirrors of mirrors

A node that has mirrored a peer serves its posts on, so that the posts spread from node to node. For a
request it looks for two things: the hash list, in a file under the address of the entry, and the posts, in
`LocalPeer.Databases`. `CommandServer.Mirror` enters the database there under the address of the peer that
was used, which is not that of the entry when a mirror stands in for it. `LocalPeer.Setup` opens the
databases again when the node is started the next time, and goes by their directories, which are named
after the entry.
-/

namespace Zif.Node

open Go Dht Data

/-- A node that mirrors others: what its handlers read, and the databases by the directory they are in. -/
structure Replica where
  server : Server
  files : List (Bytes × Database)

namespace Replica

variable (P : Prims) (grow : Nat → Nat)

/-- The database that is opened in a directory; it is created if it is not there. -/
def opened (n : Replica) (directory : Bytes) : Database := (n.files.lookup directory).getD .new

/-- The store after `Mirror`, which puts the entry into it. -/
def storedEntry (dht : NetDB) (s : Session) : NetDB :=
  match s.ping, s.entry with
  | none, .ok entry => (dht.insert P entry).1
  | _, _ => dht

/-- The files `collection.dat` after `Mirror`. -/
def savedLists (files : List (Bytes × Bytes)) (s : Session) : List (Bytes × Bytes) :=
  match s.entry, savedList P grow s, s.saveCollection with
  | .ok entry, some list, none => (entry.address.string P, list) :: files
  | _, _, _ => files

/-- `CommandServer.Mirror` once there is a peer: `mirroring` is the entry that was resolved, and `peer` the
address of the peer that is used. -/
def mirror (n : Replica) (mirroring : Entry) (peer : Address) (s : Session) : Replica × Result Unit :=
  let directory := mirroring.address.string P
  let out := Node.mirror P grow (n.opened directory) s
  ({ server := { n.server with
        dht := storedEntry P n.server.dht s
        databases := (peer.string P, out.1) :: n.server.databases
        collectionFiles := savedLists P grow n.server.collectionFiles s }
     files := (directory, out.1) :: n.files }, out.2)

/-- `LocalPeer.Setup`, for the databases in directories whose names are words. -/
def restart (n : Replica) : Replica :=
  { n with server := { n.server with
      databases := n.files.filter fun file => file.1 ≠ [] ∧ file.1.all isWord } }

end Replica

/-- A node mirrors the posts of an entry from one of the nodes before it. -/
structure Hop where
  node : Replica
  /-- The place of the node that the posts come from. -/
  source : Nat
  /-- The node is started again before others ask it for the posts. -/
  restarts : Bool

namespace Hop

variable (P : Prims) (grow : Nat → Nat) (entry : Entry)

/-- The node after it has mirrored from `source`. -/
def mirrored (h : Hop) (source : Server) : Replica × Result Unit :=
  h.node.mirror P grow entry source.address (honestSession P source entry)

/-- What its handlers read then. -/
def server (h : Hop) (source : Server) : Server :=
  if h.restarts then (h.mirrored P grow entry source).1.restart.server
  else (h.mirrored P grow entry source).1.server

/-- The nodes that serve the posts, and one more. -/
def step (nodes : List Server) (h : Hop) : List Server :=
  match nodes[h.source]? with
  | none => nodes
  | some source => nodes ++ [h.server P grow entry source]

/-- The posts are found under the address of the entry: they come from the peer of the entry itself, or
the node is started again. -/
def Findable (nodes : List Server) (h : Hop) : Prop :=
  h.restarts = true ∨ ∀ source, nodes[h.source]? = some source →
    source.address.string P = entry.address.string P

end Hop

end Zif.Node
