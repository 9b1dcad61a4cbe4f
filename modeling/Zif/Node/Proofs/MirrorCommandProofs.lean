import Zif.Dht.Proofs.AddressProofs
import Zif.Lib.Proofs.RunsProofs
import Zif.Node.MirrorCommand
import Zif.Node.Proofs.ConnectProofs

/-!
# Proofs: where mirrors are filed

A Mirror command that uses the peer it was asked for, under the text it was asked for, files the mirror under
that text. A peer that stands in for another gives its own name to the mirror of the other; and the flag that
makes it stand in stays on it when the command fails or finds nothing to do, so that later commands for the
peer itself download the posts of the other.
-/

namespace Zif.Node

open Go Dht Proto Runs

variable {P : Prims} {pm pm' : PeerManager} {own address : Address} {call : MirrorCall} {m : Mirrors}
  {text : Bytes} {e mirroring : Entry} {p : Peer} {id : Nat}

/-! ## The condition -/

/-- The peer has this address, with this text, and stands in for nobody. -/
structure Fits (P : Prims) (text : Bytes) (address : Address) (p : Peer) : Prop where
  raw : p.address.raw = address.raw
  text : p.address.string P = text
  seed : p.seed = false

namespace PeerManager

/-- `ConnectPeer` fails: there is nothing to connect to, or it cannot be reached. -/
def Fails (pm : PeerManager) (own : Address) (resolved : Result Entry) (d : Dial) : Prop :=
  ∀ e, resolved = .ok e →
    e.address.equals own = true ∨ (pm.known e = none ∧ ∃ f, d.opened = .error f)

end PeerManager

/-- A Mirror command for an address and the entry it is resolved to. The text that was given is that of the
address, and the entry has it too. The peer that is used, be it connected, known under what would be dialled,
or the node that answers, fits; and if there is none, then no seed can be reached either. -/
structure Direct (P : Prims) (own : Address) (pm : PeerManager) (call : MirrorCall) (address : Address)
    (mirroring : Entry) : Prop where
  text : Address.encodeRaw P address.raw = call.address
  directory : mirroring.address.string P = call.address
  connected : ∀ id p, pm.getPeer address = some id → pm.objects[id]? = some p →
    Fits P call.address address p
  known : ∀ e id p, pm.getPeer address = none → call.resolvedAgain = .ok e →
    e.address.equals own = false → pm.known e = some id → pm.objects[id]? = some p →
      Fits P call.address address p
  answering : ∀ e pair, pm.getPeer address = none → call.resolvedAgain = .ok e →
    e.address.equals own = false → pm.known e = none → call.dial.opened = .ok pair →
      Fits P call.address address (PeerManager.connected pair)
  seeds : ∀ e f, pm.getPeer address = none → call.resolvedAgain = .ok e →
    e.address.equals own = false → pm.known e = none → call.dial.opened = .error f →
      ∀ seed ∈ (call.shuffle e.seeds).zipIdx, seed.1 ≠ own.raw →
        pm.Fails own (call.atSeed seed.2).1 (call.atSeed seed.2).2

/-! ## The peer that is used -/

namespace PeerManager

theorem connectPeer_fails {resolved : Result Entry} {d : Dial} (h : pm.Fails own resolved d) :
    ∃ o f, pm.connectPeer own resolved d = (pm, o, .error f) := by
  cases resolved with
  | error f => exact ⟨none, f, rfl⟩
  | ok e =>
    by_cases hself : e.address.equals own = true
    · exact ⟨none, _, connectPeer_self hself⟩
    · have hown : e.address.equals own = false := Bool.eq_false_iff.mpr hself
      rcases h e rfl with hown' | ⟨hknown, f, hopened⟩
      · exact absurd hown' hself
      · exact ⟨_, _, connectPeer_unreachable hown hknown hopened⟩

theorem foldl_trySeed_fails {seeds : List (Bytes × Nat)}
    (h : ∀ seed ∈ seeds, seed.1 ≠ own.raw → pm.Fails own (call.atSeed seed.2).1 (call.atSeed seed.2).2) :
    seeds.foldl (trySeed own e call) (pm, none) = (pm, none) := by
  induction seeds with
  | nil => rfl
  | cons seed seeds ih =>
    have hstep : trySeed own e call (pm, none) seed = (pm, none) := by
      unfold trySeed
      split_ifs with hown
      · rfl
      · obtain ⟨o, f, hfail⟩ := connectPeer_fails (h seed List.mem_cons_self hown)
        rw [hfail]
    rw [List.foldl_cons, hstep]
    exact ih fun s hs => h s (List.mem_cons_of_mem _ hs)

theorem object_of_known (h : pm.known e = some id) : ∃ p, pm.objects[id]? = some p := by
  obtain ⟨a, ha⟩ := addressOf_known h
  obtain ⟨p, hp, -⟩ := Option.map_eq_some_iff.mp ha
  exact ⟨p, hp⟩

/-- The node that answers, after it has been registered. -/
theorem object_answered (pair : Entry × Capabilities) (reply : Result Entry) (evicted : List Bytes) :
    ∃ p, ((pm.newPeer (connected pair)).setPeer pm.objects.length reply evicted).objects[pm.objects.length]? =
      some p ∧ p.address = pair.1.address ∧ p.seed = false := by
  have hmap := map_objects_setPeer (g := fun p => (p.address, p.seed)) (fun _ _ => rfl)
    (pm.newPeer (connected pair)) pm.objects.length pm.objects.length reply evicted
  have hnew : (pm.newPeer (connected pair)).objects[pm.objects.length]? = some (connected pair) := by
    simp [newPeer]
  rw [hnew, Option.map_some] at hmap
  obtain ⟨p, hp, heq⟩ := Option.map_eq_some_iff.mp hmap
  injection heq with haddr hseed
  exact ⟨p, hp, haddr, hseed⟩

/-- A peer that is used fits. -/
theorem reach_direct (h : Direct P own pm call address mirroring)
    (hreach : pm.reach own address call = (pm', .ok id)) :
    ∃ p, pm'.objects[id]? = some p ∧ Fits P call.address address p := by
  unfold reach at hreach
  cases hget : pm.getPeer address with
  | some id' =>
    rw [hget] at hreach
    cases hreach
    obtain ⟨p, hp, -⟩ := pm.keyed address.raw id hget
    exact ⟨p, hp, h.connected id p hget hp⟩
  | none =>
    rw [hget] at hreach
    cases hres : call.resolvedAgain with
    | error f =>
      rw [hres] at hreach
      cases hreach
    | ok e =>
      rw [hres] at hreach
      rcases connectPeer_ends pm own e call.dial with ⟨-, heq⟩ |
        ⟨hown, ⟨id', hknown, heq⟩ | ⟨hknown, ⟨f, hopened, heq⟩ | ⟨pair, hopened, heq⟩⟩⟩
      · rw [heq] at hreach
        cases hreach
      · rw [heq] at hreach
        cases hreach
        obtain ⟨p, hp⟩ := object_of_known hknown
        exact ⟨p, hp, h.known e id p hget hres hown hknown hp⟩
      · rw [heq] at hreach
        simp only [foldl_trySeed_fails (h.seeds e f hget hres hown hknown hopened)] at hreach
        split_ifs at hreach <;> cases hreach
      · rw [heq] at hreach
        cases hreach
        obtain ⟨p, hp, haddr, hseed⟩ := object_answered pair call.dial.reply call.dial.evicted
        have hfits := h.answering e pair hget hres hown hknown hopened
        exact ⟨p, hp, by rw [haddr]; exact hfits.raw, by rw [haddr]; exact hfits.text, hseed⟩

end PeerManager

/-! ## Where the mirror is filed -/

theorem postsPath_injective {a b : Bytes} (h : postsPath a = postsPath b) : a = b :=
  List.append_cancel_left (List.append_cancel_right h)

namespace Mirrors

theorem Filed.of_same {m' : Mirrors} (h : m.Filed P) (hdatabases : m'.databases = m.databases)
    (hstored : m'.stored = m.stored) : m'.Filed P :=
  ⟨hdatabases ▸ h.databases, hstored ▸ h.stored⟩

theorem Filed.openDatabase (h : m.Filed P) (key : Bytes) : (m.openDatabase key key).Filed P := by
  refine ⟨fun key' path hpath => ?_, h.stored⟩
  simp only [Mirrors.openDatabase] at hpath
  split_ifs at hpath with heq
  · rw [heq]
    exact (Option.some.inj hpath).symm
  · exact h.databases key' path hpath

theorem Filed.store {raw : Bytes} (h : m.Filed P) :
    (m.store (postsPath (Address.encodeRaw P raw)) raw).Filed P := by
  refine ⟨h.databases, fun key raw' hmem => ?_⟩
  simp only [Mirrors.store] at hmem
  split_ifs at hmem with heq
  · rcases List.mem_append.mp hmem with hmem | hmem
    · exact h.stored key raw' hmem
    · rw [List.mem_singleton.mp hmem]
      exact (postsPath_injective heq).symm
  · exact h.stored key raw' hmem

/-- The posts under a key are those of the peer with that address. -/
theorem Filed.served (h : m.Filed P) {key raw : Bytes} (hmem : raw ∈ m.served key) :
    Address.encodeRaw P raw = key := by
  unfold Mirrors.served at hmem
  cases hkey : m.databases key with
  | none =>
    rw [hkey] at hmem
    cases hmem
  | some path =>
    rw [hkey] at hmem
    obtain rfl := h.databases key path hkey
    exact h.stored key raw hmem

/-- A peer that stands in for nobody gives the posts of its own address. -/
theorem raw_of_mirrored {reply : Result Entry} (hseed : p.seed = false)
    (h : p.mirrored reply = .ok e) : e.address.raw = p.address.raw := by
  cases reply with
  | error f => cases h
  | ok e' =>
    simp only [Peer.mirrored, hseed, bind, Except.bind, Bool.false_or] at h
    split_ifs at h with heq
    cases h
    simpa [Address.equals] using heq

theorem Filed.peerMirror (id : Nat) (call : MirrorCall) (h : m.Filed P)
    (hfits : Fits P (Address.encodeRaw P address.raw) address p) :
    (m.peerMirror id p (postsPath (Address.encodeRaw P address.raw)) call).1.Filed P ∧
      (m.peerMirror id p (postsPath (Address.encodeRaw P address.raw)) call).1.databases = m.databases := by
  unfold Mirrors.peerMirror
  split
  · exact ⟨h, rfl⟩
  · exact ⟨h, rfl⟩
  · rename_i e hmirrored _
    have hraw := (raw_of_mirrored hfits.seed hmirrored).trans hfits.raw
    have hstore : (if call.inserted = true then
        m.store (postsPath (Address.encodeRaw P address.raw)) e.address.raw else m).Filed P := by
      split_ifs
      · rw [hraw]
        exact h.store
      · exact h
    have hsame : (if call.inserted = true then
        m.store (postsPath (Address.encodeRaw P address.raw)) e.address.raw else m).databases =
          m.databases := by
      split_ifs <;> rfl
    by_cases hup : call.upToDate = true
    · rw [if_pos hup]
      exact ⟨h, rfl⟩
    · rw [if_neg hup]
      dsimp only
      cases call.downloaded with
      | error f => exact ⟨hstore, hsame⟩
      | ok u => exact ⟨hstore.of_same rfl rfl, hsame⟩

/-- After a command that succeeds, the text it was given is a key. -/
def KeyAfter (P : Prims) (own : Address) (m : Mirrors) (call : MirrorCall) : Prop :=
  (mirror P own m call).2 = .ok () →
    (mirror P own m call).1.databases call.address = some (postsPath call.address)

theorem Filed.mirror (h : m.Filed P)
    (hdirect : ∀ address mirroring, Address.decodeAddress call.address = .ok address →
      call.resolved = .ok mirroring → Direct P own m.peerManager call address mirroring) :
    (mirror P own m call).1.Filed P ∧ KeyAfter P own m call := by
  unfold KeyAfter Mirrors.mirror
  split
  · exact ⟨h, fun hok => by cases hok⟩
  · exact ⟨h, fun hok => by cases hok⟩
  · rename_i address mirroring hdecode hresolved
    have hd := hdirect address mirroring hdecode hresolved
    split
    · exact ⟨h.of_same rfl rfl, fun hok => by cases hok⟩
    · rename_i pm id hreach
      obtain ⟨p, hp, hfits⟩ := PeerManager.reach_direct hd hreach
      rw [hp]
      dsimp only
      rw [hd.directory, hfits.text]
      rw [← hd.text] at hfits ⊢
      have hm : Filed P { m with peerManager := pm } := h.of_same rfl rfl
      obtain ⟨hfiled, hsame⟩ :=
        (hm.openDatabase (Address.encodeRaw P address.raw)).peerMirror id call hfits
      refine ⟨hfiled, fun _ => ?_⟩
      rw [hsame]
      exact if_pos rfl

/-- The condition on an event. -/
def DirectEvent (P : Prims) (own : Address) (m : Mirrors) : Event → Prop
  | .mirror call => ∀ address mirroring, Address.decodeAddress call.address = .ok address →
      call.resolved = .ok mirroring → Direct P own m.peerManager call address mirroring
  | _ => True

theorem Filed.step (h : m.Filed P) {ev : Event} (hdirect : DirectEvent P own m ev) :
    (step P own m ev).Filed P := by
  cases ev with
  | mirror call => exact (h.mirror hdirect).1
  | connected pair reply evicted => exact h.of_same rfl rfl
  | closed raw => exact h.of_same rfl rfl
  | restart =>
    refine ⟨fun key path hpath => ?_, h.stored⟩
    simp only [Mirrors.step, setup] at hpath
    split_ifs at hpath
    exact (Option.some.inj hpath).symm

/-- **Where mirrors are filed.** In every run whose Mirror commands use the peer they were asked for, each key
has the database of its own directory, what is served under a key are posts of the peer with that address, and
a command that succeeds makes the text it was given a key. -/
theorem run_filed (P : Prims) (own : Address) {m : Mirrors} (h : m.Filed P) (evs : List Event)
    (hdirect : Always (step P own) (DirectEvent P own) m evs) :
    (run (step P own) m evs).Filed P ∧
      (∀ key raw, raw ∈ (run (step P own) m evs).served key → Address.encodeRaw P raw = key) ∧
      Always (step P own) (fun m ev => ∀ call, ev = .mirror call → KeyAfter P own m call) m evs := by
  have hfiled : (run (step P own) m evs).Filed P := hdirect.invariant h fun m ev hm hev => hm.step hev
  refine ⟨hfiled, fun key raw hmem => hfiled.served hmem, ?_⟩
  refine hdirect.of_step h (fun m ev hm hev => hm.step hev) ?_
  rintro m ev hm hev call rfl
  exact (hm.mirror hev).2

/-! ## A seed that stands in -/

/-- A node without mirrors. -/
def sampleMirrors : Mirrors := ⟨.empty, fun _ => none, [], fun _ => []⟩

theorem filed_sampleMirrors : sampleMirrors.Filed P := by
  constructor
  · intro _ _ h
    cases h
  · intro _ _ h
    cases h

/-- The entry of a third node, for which the second one is a seed. -/
def sampleThird : Entry :=
  { sampleHeader 2 with address := { raw := List.replicate 20 3 }, seeds := [List.replicate 20 2] }

/-- A Mirror command for the entry. The second node answers if `opened`, as itself and as a seed. -/
def sampleMirror (e : Entry) (opened : Result (Entry × Capabilities)) : MirrorCall where
  address := Address.encodeRaw .sample e.address.raw
  resolved := .ok e
  resolvedAgain := .ok e
  dial := { PeerManager.sampleDial with opened := opened }
  shuffle seeds := seeds
  atSeed _ := (.ok (sampleHeader 2), PeerManager.sampleDial)
  reply := .ok e
  prepared := .ok ()
  downloaded := .ok ()
  upToDate := false
  inserted := true
  requested := .ok ()

/-- The second node is mirrored directly. -/
theorem run_filed_sample :
    (run (step .sample (sampleHeader 1).address) sampleMirrors
      [.mirror (sampleMirror (sampleHeader 2) (.ok (sampleHeader 2, ⟨[]⟩)))]).Filed .sample := by
  refine (run_filed .sample (sampleHeader 1).address filed_sampleMirrors _ (.cons ?_ always_nil)).1
  intro address mirroring hdecode hresolved
  have hdecoded := Address.decodeAddress_encodeRaw .sample (sampleHeader 2).address.raw
  cases hdecode.symm.trans hdecoded
  cases hresolved
  refine ⟨rfl, rfl, ?_, ?_, ?_, ?_⟩
  · intro id p hget
    cases hget
  · intro e id p _ he _ hknown
    cases he
    cases hknown
  · intro e pair _ _ _ _ hopened
    cases hopened
    exact ⟨rfl, rfl, rfl⟩
  · intro e f _ _ _ _ hopened
    cases hopened

/-- The third node cannot be reached, and the second stands in for it. The command succeeds; the posts are those
of the third node, but under the name of the second, and there is no key for the third. -/
theorem seed_gives_its_name :
    (mirror .sample (sampleHeader 1).address sampleMirrors
        (sampleMirror sampleThird (.error (.error "refused")))).2 = .ok () ∧
      (mirror .sample (sampleHeader 1).address sampleMirrors
        (sampleMirror sampleThird (.error (.error "refused")))).1.served
          (Address.encodeRaw .sample (List.replicate 20 2)) = [List.replicate 20 3] ∧
      (mirror .sample (sampleHeader 1).address sampleMirrors
        (sampleMirror sampleThird (.error (.error "refused")))).1.databases
          (Address.encodeRaw .sample (List.replicate 20 3)) = none := by
  decide +kernel

end Mirrors

end Zif.Node
