import Zif.Lib.Shuffle
import Zif.Node.Writers

/-!
# Exploring the network

`StartExploring` looks for peers in the background. Every two minutes `ExploreJob` starts a goroutine
that takes an entry from the channel `in`, asks that peer for the peers closest to a random address and to
the own one, and puts those it names into the channel `ret` (`exploreTick`, `explorePeer`). One loop takes
them out again, stores what is new, and puts the new ones into `in`. A goroutine that is done and finds `in`
empty fills it from the store (`seedExplore`): with at most three of the entries that are closest to the
own address and to a random one, shuffled, of which it leaves out its own.

The state has the two channels and the place where each goroutine is. A run interleaves their steps, and
other writers of the store come in between. What a peer answers and the numbers that are drawn belong to
the step that meets them.

A goroutine that is blocked in receiving from `in` gets the next value that is sent, which `len(in)` does
not count. The values that are sent to a channel are numbered. A sender goes on when its value is among the first
ones that were not received, as many as the channel has room for; until then it is blocked. So the values beyond
the capacity of a channel are those of blocked senders, in the order in which they came, and when a value is
received the first of these senders is served.
-/

namespace Zif.Node

open Go Dht

/-- `ExploreBufferSize`. -/
def exploreBufferSize : Nat := 100

/-- Where a goroutine of `ExploreJob` is. -/
inductive Tick where
  /-- Before it receives from `in`. -/
  | ready
  /-- Blocked in receiving from `in`. -/
  | waiting
  /-- In `explorePeer`, before the answer for the random address. -/
  | connecting (peer : Address)
  /-- Before it sends to `ret` what the peer named; the own address is still to be asked for, or not. -/
  | sending (closest : List (Option Entry)) (again : Bool)
  /-- In sending value number `n` to `ret`. -/
  | sent (n : Nat) (closest : List (Option Entry)) (again : Bool)
  /-- Before the answer for the own address. -/
  | asking
  /-- Before it looks whether `in` is empty. -/
  | checking
  /-- In the loop of `seedExplore`. -/
  | seeding (closest : List (Option Entry))
  /-- In sending value number `n` to `in`. -/
  | seeded (n : Nat) (closest : List (Option Entry))
  | returned
  deriving DecidableEq, Repr

/-- Where the loop of `StartExploring` is. -/
inductive ResultLoop where
  | receiving
  /-- Before it sends a new entry to `in`. -/
  | sending (i : Entry)
  /-- In sending value number `n` to `in`. -/
  | sent (n : Nat)
  deriving DecidableEq, Repr

/-- The job, and the store. -/
structure Explorer where
  dht : NetDB
  /-- The values that were sent to `in` and not received. -/
  input : List Entry
  /-- The number of values that were received from `in`. -/
  taken : Nat
  /-- The values that were sent to `ret` and not received. -/
  output : List Entry
  /-- The number of values that were received from `ret`. -/
  handled : Nat
  ticks : List Tick
  loop : ResultLoop
  /-- There was a panic. -/
  crashed : Bool

/-- What a step of a goroutine meets. -/
structure Surroundings where
  /-- What the peer that is explored answers, or why it does not. -/
  reply : Except String (List (Option Entry))
  /-- What `RandomAddress` gives, unless that fails. -/
  random : Option Address
  /-- The numbers that `ShuffleEntries` draws. -/
  draw : Nat → Nat
  /-- The goroutine that gets a value sent to `in`, if one is blocked in receiving. -/
  receiver : Nat

/-- A step of a run. -/
inductive Explorer.Event where
  /-- Two minutes are over. -/
  | spawn
  /-- A step of a goroutine. -/
  | tick (k : Nat) (around : Surroundings)
  /-- A step of the result loop; the goroutine is one that gets a value sent to `in`. -/
  | loop (receiver : Nat)
  /-- Another writer of the store. -/
  | store (e : Node.Event)

variable (P : Prims)

/-- The result loop has inserted the entry as a new one. -/
def discovers (ndb : NetDB) (i : Entry) : Bool :=
  match ndb.query P i.address with
  | (ndb', .ok none) =>
    !i.address.equals ndb'.addr &&
      match (ndb'.insert P i).2 with
      | .ok affected => affected > 0
      | .error _ => false
  | _ => false

/-- An entry of `seedExplore` that is sent: neither nil nor the own one. -/
def otherThan (own : Address) : Option Entry → Bool
  | none => false
  | some i => !i.address.equals own

/-- The entries that `seedExplore` chooses from. The error of the second search is overwritten. -/
def seedNames (dht : NetDB) (random : Option Address) : NetDB × Result (List (Option Entry)) :=
  match dht.findClosest P dht.addr with
  | (dht, .error f) => (dht, .error f)
  | (dht, .ok closest) =>
    match random with
    | none => (dht, .error .panic)
    | some addr =>
      match dht.findClosest P addr with
      | (dht, .error .panic) => (dht, .error .panic)
      | (dht, .error (.error _)) => (dht, .ok closest)
      | (dht, .ok closestRand) => (dht, .ok (closest ++ closestRand))

/-- `seedExplore`, up to its loop: the entries that the loop goes over. -/
def seedExplore (dht : NetDB) (random : Option Address) (draw : Nat → Nat) :
    NetDB × Result (List (Option Entry)) :=
  match seedNames P dht random with
  | (dht, .error f) => (dht, .error f)
  | (dht, .ok closest) =>
    let closest := Shuffle.shuffle draw closest
    if closest.isEmpty then (dht, .error (.error "Failed to seed bootstrap, bootstrap first"))
    else (dht, .ok (closest.take 3))

namespace Explorer

/-- `StartExploring`: there is room for all entries it begins with. -/
def startExploring (dht : NetDB) (random : Option Address) (draw : Nat → Nat) : Result Explorer :=
  match seedExplore P dht random draw with
  | (_, .error f) => .error f
  | (dht, .ok closest) =>
    .ok ⟨dht, (closest.filter (otherThan dht.addr)).reduceOption, 0, [], 0, [.ready], .receiving, false⟩

/-- Goroutine `k` is at another place. -/
def setTick (s : Explorer) (k : Nat) (t : Tick) : Explorer := { s with ticks := s.ticks.set k t }

/-- A panic ends the program. -/
def crash (s : Explorer) : Explorer := { s with crashed := true }

/-- Where a goroutine is that has received an entry from `in`. -/
def received (own : Address) (i : Entry) : Tick :=
  if i.address.equals own then .returned else .connecting i.address

/-- The number of the next value that is sent to `in`. -/
def nextInput (s : Explorer) : Nat := s.taken + s.input.length

/-- The number of the next value that is sent to `ret`. -/
def nextOutput (s : Explorer) : Nat := s.handled + s.output.length

/-- A send to `in`. If goroutines are blocked in receiving, one of them gets the value. -/
def send (s : Explorer) (receiver : Nat) (i : Entry) : Option Explorer :=
  if Tick.waiting ∈ s.ticks then
    if s.ticks[receiver]? = some .waiting then
      some ({ s with taken := s.taken + 1 }.setTick receiver (received s.dht.addr i))
    else none
  else some { s with input := s.input ++ [i] }

/-- The next step of goroutine `k`, which is at the place `t`. -/
def advance (s : Explorer) (k : Nat) (around : Surroundings) (t : Tick) : Explorer :=
  match t with
  | .ready =>
    match s.input with
    | [] => s.setTick k .waiting
    | i :: rest => { s with input := rest, taken := s.taken + 1 }.setTick k (received s.dht.addr i)
  | .waiting => s
  | .connecting _ =>
    match around.reply with
    | .error _ => s.setTick k .checking
    | .ok closest => s.setTick k (.sending closest true)
  | .sending [] again => s.setTick k (if again then .asking else .checking)
  | .sending (none :: _) _ => s.crash
  | .sending (some i :: rest) again =>
    if i.address.equals s.dht.addr then s.setTick k (.sending rest again)
    else { s with output := s.output ++ [i] }.setTick k (.sent s.nextOutput rest again)
  | .sent n rest again =>
    if n < s.handled + exploreBufferSize then s.setTick k (.sending rest again) else s
  | .asking =>
    match around.reply with
    | .error _ => s.setTick k .checking
    | .ok closest => s.setTick k (.sending closest false)
  | .checking =>
    if s.input.isEmpty then
      match seedExplore P s.dht around.random around.draw with
      | (dht, .error .panic) => { s with dht }.crash
      | (dht, .error (.error _)) => { s with dht }.setTick k .returned
      | (dht, .ok closest) => { s with dht }.setTick k (.seeding closest)
    else s.setTick k .returned
  | .seeding [] => s.setTick k .returned
  | .seeding (none :: rest) => s.setTick k (.seeding rest)
  | .seeding (some i :: rest) =>
    if i.address.equals s.dht.addr then s.setTick k (.seeding rest)
    else
      match s.send around.receiver i with
      | some s' => s'.setTick k (.seeded s.nextInput rest)
      | none => s
  | .seeded n rest => if n < s.taken + exploreBufferSize then s.setTick k (.seeding rest) else s
  | .returned => s

/-- The next step of the result loop. -/
def advanceLoop (s : Explorer) (receiver : Nat) : Explorer :=
  match s.loop with
  | .receiving =>
    match s.output with
    | [] => s
    | i :: rest =>
      match explore P s.dht i with
      | (dht, .error _) => { s with dht }.crash
      | (dht, .ok ()) =>
        { s with
          dht
          output := rest
          handled := s.handled + 1
          loop := if discovers P s.dht i then .sending i else .receiving }
  | .sending i =>
    match s.send receiver i with
    | some s' => { s' with loop := .sent s.nextInput }
    | none => s
  | .sent n => if n < s.taken + exploreBufferSize then { s with loop := .receiving } else s

/-- A step. What cannot happen changes nothing. -/
def step (s : Explorer) (e : Event) : Explorer :=
  if s.crashed then s
  else
    match e with
    | .spawn => { s with ticks := s.ticks ++ [.ready] }
    | .tick k around =>
      match s.ticks[k]? with
      | none => s
      | some t => s.advance P k around t
    | .loop receiver => s.advanceLoop P receiver
    | .store e => { s with dht := Node.step P s.dht e }

/-- The event is one of the job itself. -/
def Event.Internal : Event → Prop
  | .store _ => False
  | _ => True

/-! ## The invariant -/

/-- The goroutine is not about to explore the own address. -/
def fine (own : Address) : Tick → Prop
  | .connecting peer => peer.equals own = false
  | _ => True

/-- The own address is never explored, a goroutine only waits for an empty channel, and each value beyond the capacity
of a channel is that of a sender that is blocked. -/
structure Wf (own : Address) (s : Explorer) : Prop where
  addr : s.dht.addr = own
  input : ∀ i ∈ s.input, i.address.equals own = false
  loop : ∀ i, s.loop = .sending i → i.address.equals own = false
  ticks : ∀ t ∈ s.ticks, fine own t
  waits : Tick.waiting ∈ s.ticks → s.input = []
  loopSent : ∀ n, s.loop = .sent n → n < s.nextInput
  sent : ∀ n closest again, Tick.sent n closest again ∈ s.ticks → n < s.nextOutput
  inputRoom : ∀ n, s.taken + exploreBufferSize ≤ n → n < s.nextInput →
    s.loop = .sent n ∨ ∃ closest, Tick.seeded n closest ∈ s.ticks
  outputRoom : ∀ n, s.handled + exploreBufferSize ≤ n → n < s.nextOutput →
    ∃ closest again, Tick.sent n closest again ∈ s.ticks

/-- The goroutine will send nothing and ask no one, unless it receives an entry. -/
def idle (own : Address) : Tick → Bool
  | .ready | .waiting | .returned => true
  | .seeding closest | .seeded _ closest => !closest.any (otherThan own)
  | _ => false

/-- There is an entry to explore, or a goroutine is at work. -/
def Going (s : Explorer) : Prop :=
  s.input ≠ [] ∨ ∃ (k : Nat) (t : Tick), s.ticks[k]? = some t ∧ idle s.dht.addr t = false

/-- There is nothing left to explore, and nothing under way that could lead to a peer. -/
structure Dry (s : Explorer) : Prop where
  input : s.input = []
  output : s.output = []
  loop : s.loop = .receiving
  ticks : ∀ t ∈ s.ticks, idle s.dht.addr t = true

/-- Only goroutine `k` is at work, and it looks whether `in` is empty. -/
structure LastAtWork (s : Explorer) (k : Nat) : Prop where
  runs : s.crashed = false
  checking : s.ticks[k]? = some .checking
  input : s.input = []
  output : s.output = []
  loop : s.loop = .receiving
  others : ∀ (j : Nat) (t : Tick), j ≠ k → s.ticks[j]? = some t → idle s.dht.addr t = true

/-- Among the entries there is another peer, and at most two of them are not sent. -/
def Refills (own : Address) (names : List (Option Entry)) : Prop :=
  (∃ i ∈ names, otherThan own i = true) ∧ (names.filter fun i => !otherThan own i).length ≤ 2

instance (own : Address) (names : List (Option Entry)) : Decidable (Refills own names) :=
  inferInstanceAs (Decidable (_ ∧ _))

/-- When the step fills `in` from the store, the entries it chooses from refill it. -/
def RefillsAt (s : Explorer) : Event → Prop
  | .tick k around => s.ticks[k]? = some .checking → s.input = [] →
      ∃ names, (seedNames P s.dht around.random).2 = .ok names ∧ Refills s.dht.addr names
  | _ => True

end Explorer

end Zif.Node
