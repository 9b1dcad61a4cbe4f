import Zif.Dht.Discovery

/-!
# Requests for the closest peers

A message of another peer asks for the entries closest to an address. What it decodes to has a binary
address of any length, and so have the texts that entries of other peers were stored under.
-/

namespace Zif.Node

open Go Dht

variable (P : Prims)

/-- A request for the closest peers, and what becomes of the answer. -/
structure FindClosestRequest where
  /-- What the content of the message decodes to. -/
  content : Result Address
  /-- The error of writing the answer, if that fails. -/
  writeFails : Option String

/-- `HandleFindClosest`; it returns the entries that it has sent. -/
def handleFindClosest (ndb : NetDB) (m : FindClosestRequest) : NetDB × Result (List (Option Entry)) :=
  match m.content with
  | .error f => (ndb, .error f)
  | .ok address =>
    match ndb.findClosest P address with
    | (ndb, .error f) => (ndb, .error f)
    | (ndb, .ok pairs) =>
      match m.writeFails with
      | some msg => (ndb, .error (.error msg))
      | none => (ndb, .ok pairs)

/-- The request for `address` is answered: `FindClosest` returns a result, and the handler returns it
if it can be sent, and the error of sending it otherwise. -/
def Answers (ndb : NetDB) (address : Address) : Prop :=
  ∃ ndb' ret, ndb.findClosest P address = (ndb', .ok ret) ∧
    (handleFindClosest P ndb ⟨.ok address, none⟩).2 = .ok ret ∧
    ∀ msg, (handleFindClosest P ndb ⟨.ok address, some msg⟩).2 = .error (.error msg)

/-- A stored text that a query can meet: it does not make `DecodeAddress` panic, and what it decodes
to has a place in the routing table. -/
def Harmless (c : Cell) : Prop :=
  Address.decodeAddress c.load ≠ .error .panic ∧
    ∀ a, Address.decodeAddress c.load = .ok a → 0 < a.raw.length ∧ a.raw.length ≤ 20

end Zif.Node
