import Zif.Lib.Proofs.RunsProofs
import Zif.Node.Listener
import Zif.Node.Proofs.ConnectProofs
import Zif.Node.Writers
import Zif.Proto.Proofs.TalkProofs

/-!
# Proofs: incoming connections

A client whose handshake completes and that is taken on replaces the capabilities of the node by its own, and
no client's capabilities are recorded on its peer. So both hold exactly as long as no client is taken on, and
those that are given a peer object have no capabilities to record.
-/

namespace Zif.Node

open Go Dht Proto Talk

variable {P : Prims} {codec : Codec} {l : Listener} {inc : Incoming} {e : Entry} {caps : Capabilities}

/-! ## The handshake with a client -/

/-- The messages of a client make `handshake` return its entry and its capabilities. -/
def Incoming.Completes (P : Prims) (codec : Codec) (inc : Incoming) (e : Entry) (caps : Capabilities) : Prop :=
  ∃ m₁ m₂ m₃ m₄ m₅ m₆ rest, inc.messages = m₁ :: m₂ :: m₃ :: m₄ :: m₅ :: m₆ :: rest ∧
    Introduces P codec inc.cookie m₁ m₂ m₃ e ∧ m₂.readCapabilities = caps ∧ Acknowledges codec m₄ m₅ m₆

theorem nextMessage_eq_some {ms ms' : List Proto.Message} {m : Proto.Message} :
    nextMessage ms = (some m, ms') ↔ ms = m :: ms' := by
  cases ms <;> simp [nextMessage]

namespace Listener

theorem handshake_eq_ok_iff : l.handshake P codec inc = .ok (e, caps) ↔ inc.Completes P codec e caps := by
  have hreturns : l.handshake P codec inc = .ok (e, caps) ↔ ∃ c s, Returns nextMessage
      (Proto.handshake P codec
        { l.localPeer with cookie := inc.cookie, cookie_length := inc.cookie_length })
      false inc.messages (e, caps) c s := by
    constructor
    · exact fun h => ⟨_, _, Prod.ext h rfl⟩
    · rintro ⟨c, s, h⟩
      exact congrArg Prod.fst h
  rw [hreturns]
  constructor
  · rintro ⟨c, s, h⟩
    obtain ⟨s₃, hrec, hsend⟩ := returns_handshake.mp h
    obtain ⟨-, m₁, s₁, m₂, s₂, m₃, h₁, h₂, h₃, hintro, hcaps⟩ := returns_handshakeRecieve.mp hrec
    obtain ⟨-, m₄, s₄, m₅, s₅, m₆, h₄, h₅, h₆, hack⟩ := returns_handshakeSend.mp hsend
    rw [nextMessage_eq_some] at h₁ h₂ h₃ h₄ h₅ h₆
    subst h₂ h₃ h₄ h₅ h₆
    exact ⟨m₁, m₂, m₃, m₄, m₅, m₆, s, h₁, hintro, hcaps, hack⟩
  · rintro ⟨m₁, m₂, m₃, m₄, m₅, m₆, rest, hms, hintro, hcaps, hack⟩
    refine ⟨false, rest, returns_handshake.mpr ⟨m₄ :: m₅ :: m₆ :: rest, ?_, ?_⟩⟩
    · exact returns_handshakeRecieve.mpr ⟨rfl, m₁, _, m₂, _, m₃, nextMessage_eq_some.mpr hms, rfl, rfl,
        hintro, hcaps⟩
    · exact returns_handshakeSend.mpr ⟨rfl, m₄, _, m₅, _, m₆, rfl, rfl, rfl, hack⟩

/-! ## The peer that is made of it -/

/-- `HandleHandshake` returns without an error: there is a session, and the client answers with the entry
it was introduced by, when `SetPeer` asks for it (which it does not if there is a peer with that address) or
when it is asked again. -/
def TakenOn (pm : PeerManager) (inc : Incoming) (e : Entry) : Prop :=
  inc.session = .ok () ∧
    ((pm.getPeer e.address = none ∧ ∃ e', inc.reply = .ok e' ∧ e'.address.equals e.address = true) ∨
      ∃ e', inc.replyAgain = .ok e' ∧ e'.address.equals e.address = true)

theorem fetchEntry_setTCP {reply : Result Entry} {e' : Entry} :
    (Peer.setTCP e).fetchEntry reply = .ok e' ↔ reply = .ok e' ∧ e'.address.equals e.address = true := by
  cases reply with
  | error f => simp [Peer.fetchEntry, Peer.setTCP, bind, Except.bind]
  | ok e'' =>
    by_cases heq : e''.address.equals e.address = true
    · simp only [Peer.fetchEntry, Peer.setTCP, bind, Except.bind, heq, if_true, Except.ok.injEq]
      exact ⟨fun h => ⟨h, h ▸ heq⟩, fun h => h.1⟩
    · simp only [Peer.fetchEntry, Peer.setTCP, bind, Except.bind, heq, if_false, Bool.false_eq_true,
        reduceCtorEq, false_iff, Except.ok.injEq, not_and]
      rintro rfl
      exact heq

theorem objects_newPeer (pm : PeerManager) (p : Peer) :
    (pm.newPeer p).objects[pm.objects.length]? = some p := by
  simp [PeerManager.newPeer]

/-- What is kept of the new peer's entry by `SetPeer`: the one it answered with, or none. -/
theorem objects_setPeer_newPeer (pm : PeerManager) (p : Peer) (reply : Result Entry)
    (evicted : List Bytes) :
    (∃ e, pm.getPeer p.address = none ∧ p.fetchEntry reply = .ok e ∧
        ((pm.newPeer p).setPeer pm.objects.length reply evicted).objects[pm.objects.length]? =
          some { p with entry := some e }) ∨
      (¬ (pm.getPeer p.address = none ∧ ∃ e, p.fetchEntry reply = .ok e)) ∧
        ((pm.newPeer p).setPeer pm.objects.length reply evicted).objects[pm.objects.length]? = some p := by
  have hnew := objects_newPeer pm p
  have hget : (pm.newPeer p).getPeer p.address = pm.getPeer p.address := rfl
  unfold PeerManager.setPeer
  split
  · rename_i hnone
    rw [hnew] at hnone
    cases hnone
  · rename_i q hq
    rw [hnew] at hq
    cases hq
    rw [hget]
    cases pm.getPeer p.address with
    | some id => exact .inr ⟨fun h => (Option.some_ne_none id h.1).elim, hnew⟩
    | none =>
      cases p.fetchEntry reply with
      | error f =>
        refine .inr ⟨?_, hnew⟩
        rintro ⟨-, e, he⟩
        cases he
      | ok e =>
        refine .inl ⟨e, rfl, rfl, ?_⟩
        simp only [Option.isSome_none, Bool.false_eq_true, if_false, PeerManager.objects_foldl_remove,
          PeerManager.cache, PeerManager.modify, PeerManager.register, List.getElem?_modify, hnew]
        rfl

/-- No field but the entry of the peer objects changes. -/
theorem map_objects_handleHandshake {γ : Type} {g : Peer → γ} (hg : ∀ p e, g { p with entry := e } = g p)
    (pm : PeerManager) (inc : Incoming) (id : Nat) :
    (handleHandshake pm e inc).1.objects[id]?.map g =
      (pm.newPeer (Peer.setTCP e)).objects[id]?.map g := by
  unfold handleHandshake
  split
  · rfl
  · dsimp only
    split
    · rw [PeerManager.map_objects_cache hg, PeerManager.map_objects_setPeer hg]
    · exact PeerManager.map_objects_setPeer hg _ _ _ _ _
    · exact PeerManager.map_objects_setPeer hg _ _ _ _ _

theorem handleHandshake_ok_iff (pm : PeerManager) :
    (∃ pm' id, handleHandshake pm e inc = (pm', .ok id)) ↔ TakenOn pm inc e := by
  unfold handleHandshake TakenOn
  cases inc.session with
  | error f => simp
  | ok u =>
    dsimp only
    rcases objects_setPeer_newPeer pm (Peer.setTCP e) inc.reply inc.evicted with
      ⟨e', hnone, hfetch, hobj⟩ | ⟨hnot, hobj⟩
    · rw [hobj]
      refine ⟨fun _ => ⟨rfl, .inl ⟨hnone, e', fetchEntry_setTCP.mp hfetch⟩⟩, fun _ => ⟨_, _, rfl⟩⟩
    · rw [hobj, Option.map_some]
      cases hagain : (Peer.setTCP e).fetchEntry inc.replyAgain with
      | ok e' => exact ⟨fun _ => ⟨rfl, .inr ⟨e', fetchEntry_setTCP.mp hagain⟩⟩, fun _ => ⟨_, _, rfl⟩⟩
      | error f =>
        constructor
        · rintro ⟨pm', id, heq⟩
          cases heq
        · rintro ⟨-, ⟨hnone, e', hreply⟩ | ⟨e', hreply⟩⟩
          · exact absurd ⟨hnone, e', fetchEntry_setTCP.mpr hreply⟩ hnot
          · rw [fetchEntry_setTCP.mpr hreply] at hagain
            cases hagain

/-- A client whose handshake does not complete, or that has no capabilities and is not taken on. -/
def Harmless (P : Prims) (codec : Codec) (l : Listener) (inc : Incoming) : Prop :=
  ∀ e caps, inc.Completes P codec e caps → caps = ⟨[]⟩ ∧ ¬ TakenOn l.peerManager inc e

/-- The objects of the clients before are as they were, and the new one has no capabilities. -/
theorem recorded_iff {pm pm' : PeerManager} {clients : List (Nat × Capabilities)}
    (h : ∀ c ∈ clients, pm.objects[c.1]?.map Peer.capabilities = some c.2)
    (hpm : ∀ id : Nat, pm'.objects[id]?.map Peer.capabilities =
      (pm.newPeer (Peer.setTCP e)).objects[id]?.map Peer.capabilities) :
    (∀ c ∈ clients ++ [(pm.objects.length, caps)],
        pm'.objects[c.1]?.map Peer.capabilities = some c.2) ↔ caps = ⟨[]⟩ := by
  have hold : ∀ c ∈ clients, pm'.objects[c.1]?.map Peer.capabilities = some c.2 := by
    intro c hc
    obtain ⟨p, hp, -⟩ := Option.map_eq_some_iff.mp (h c hc)
    rw [hpm, PeerManager.newPeer, List.getElem?_append_left (List.getElem?_eq_some_iff.mp hp).1]
    exact h c hc
  have hnew : pm'.objects[pm.objects.length]?.map Peer.capabilities = some ⟨[]⟩ := by
    rw [hpm, objects_newPeer]
    rfl
  constructor
  · intro hall
    have hcaps := hall _ (List.mem_append_right _ (List.mem_singleton.mpr rfl))
    rw [hnew] at hcaps
    exact (Option.some.inj hcaps).symm
  · rintro rfl c hc
    rcases List.mem_append.mp hc with hc | hc
    · exact hold c hc
    · rw [List.mem_singleton.mp hc]
      exact hnew

theorem truthful_accept_iff (h : l.Truthful) :
    (l.accept P codec inc).Truthful ↔ Harmless P codec l inc := by
  cases hshake : l.handshake P codec inc with
  | error f =>
    have haccept : l.accept P codec inc = l := by simp only [accept, hshake]
    rw [haccept]
    refine ⟨fun _ e caps hcomp => ?_, fun _ => h⟩
    rw [handshake_eq_ok_iff.mpr hcomp] at hshake
    cases hshake
  | ok pair =>
    obtain ⟨e, caps⟩ := pair
    have hcomp := handshake_eq_ok_iff.mp hshake
    have hobjects := map_objects_handleHandshake (e := e) (g := Peer.capabilities) (fun _ _ => rfl)
      l.peerManager inc
    cases hres : handleHandshake l.peerManager e inc with
    | mk pm r =>
    rw [hres] at hobjects
    cases r with
    | error f =>
      have haccept : l.accept P codec inc =
          ⟨l.localPeer, pm, l.clients ++ [(l.peerManager.objects.length, caps)]⟩ := by
        simp only [accept, hshake, hres]
      have hnot : ¬ TakenOn l.peerManager inc e := by
        rw [← handleHandshake_ok_iff, hres]
        rintro ⟨pm', id, heq⟩
        cases heq
      rw [haccept]
      constructor
      · intro ht e' caps' hcomp'
        obtain ⟨rfl, rfl⟩ : e = e' ∧ caps = caps' := by
          have := hshake.symm.trans (handshake_eq_ok_iff.mpr hcomp')
          simpa using this
        exact ⟨(recorded_iff h.recorded hobjects).mp ht.recorded, hnot⟩
      · intro hharm
        exact ⟨h.own, (recorded_iff h.recorded hobjects).mpr (hharm e caps hcomp).1⟩
    | ok id =>
      have haccept : l.accept P codec inc = ⟨{ l.localPeer with capabilities := caps },
          pm.setPeer id inc.replyAgain inc.evictedAgain,
          l.clients ++ [(l.peerManager.objects.length, caps)]⟩ := by
        simp only [accept, hshake, hres]
      have htaken : TakenOn l.peerManager inc e := (handleHandshake_ok_iff _).mp ⟨pm, id, hres⟩
      rw [haccept]
      constructor
      · intro ht
        -- the new list would be both empty and that of `Setup`
        have hempty : caps = ⟨[]⟩ := (recorded_iff h.recorded fun id' =>
          (PeerManager.map_objects_setPeer (fun _ _ => rfl) _ _ _ _ _).trans (hobjects id')).mp ht.recorded
        have hown : caps = setupCapabilities := ht.own
        rw [hempty] at hown
        exact absurd hown (by decide)
      · intro hharm
        exact absurd htaken (hharm e caps hcomp).2

/-- **Whose capabilities a node has.** Over every sequence of incoming connections the node announces the list
of `Setup`, and what each client sent is recorded on its peer, exactly as long as the clients are harmless. -/
theorem capabilities_truthful_iff (P : Prims) (codec : Codec) {l : Listener} (h : l.Truthful)
    (clients : List Incoming) :
    (∀ pre post, clients = pre ++ post → (Runs.run (accept P codec) l pre).Truthful) ↔
      Runs.Always (accept P codec) (Harmless P codec) l clients :=
  (Runs.always_iff h fun _ _ => truthful_accept_iff).symm

/-! ## A client with a list of its own -/

/-- The second sample node as `Setup` leaves it. -/
def sampleListener : Listener := ⟨sampleParty 2 setupCapabilities, .empty, []⟩

/-- The first sample node connects with the given capabilities. -/
def sampleIncoming (capabilities : Capabilities) (session : Result Unit) : Incoming where
  messages := [headerMessage sampleCodec (sampleHeader 1), capMessage capabilities,
    sigMessage (Prims.sample.edSign (sampleKey 1) (List.replicate 20 2)), .bare protoOk,
    cookieMessage (List.replicate 20 1), .bare protoOk]
  cookie := some (List.replicate 20 2)
  cookie_length := by simp
  session := session
  reply := .ok (sampleHeader 1)
  replyAgain := .ok (sampleHeader 1)
  evicted := []
  evictedAgain := []

theorem truthful_sampleListener : sampleListener.Truthful := ⟨rfl, fun _ h => by cases h⟩

/-- A client without capabilities, with which no session can be opened. -/
theorem capabilities_truthful_sample :
    (Runs.run (accept .sample sampleCodec) sampleListener
      [sampleIncoming ⟨[]⟩ (.error (.error "refused"))]).Truthful := by
  refine (capabilities_truthful_iff .sample sampleCodec truthful_sampleListener
    [sampleIncoming ⟨[]⟩ (.error (.error "refused"))]).mpr (.cons ?_ Runs.always_nil) _ [] rfl
  rintro e caps ⟨m₁, m₂, m₃, m₄, m₅, m₆, rest, hms, -, rfl, -⟩
  injection hms with _ hms
  injection hms with hm₂
  refine ⟨by rw [← hm₂]; rfl, ?_⟩
  rintro ⟨hsession, -⟩
  cases hsession

/-- A client that offers `lzma` is taken on: the node now announces that list, and the client's peer has no
capabilities. -/
theorem client_capabilities_taken_over :
    sampleListener.Truthful ∧
      (sampleListener.accept .sample sampleCodec
        (sampleIncoming ⟨["lzma".toUTF8.toList]⟩ (.ok ()))).localPeer.capabilities =
          ⟨["lzma".toUTF8.toList]⟩ ∧
      (sampleListener.accept .sample sampleCodec
        (sampleIncoming ⟨["lzma".toUTF8.toList]⟩ (.ok ()))).peerManager.objects.map Peer.capabilities =
          [⟨[]⟩] :=
  ⟨truthful_sampleListener, by decide +kernel, by decide +kernel⟩

end Listener

end Zif.Node
