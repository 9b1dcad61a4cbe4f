import Zif.Go.Proofs.ResultProofs
import Zif.Lib.Proofs.SessionProofs
import Zif.Proto.Handshake

/-!
# Proofs: the handshake

One half of the handshake either ends with the receiver holding what the sender sent, or with the
receiver having closed the connection and the sender having met the end of it (`runs_half_accepted`,
`runs_half_rejected`); which of the two depends on the sender's entry, its key and the lengths of its
messages alone. From that the outcome of the whole handshake follows for one order of the steps, and
since the order does not matter, for every interleaving.

The capabilities are an exception: they are decoded with the error dropped, so a list that is too long
is taken for an empty one.
-/

namespace Zif.Proto

open Go Dht Session

variable {P : Prims} {codec : Codec} {α β γ δ : Type}

/-! ## Programs with what follows them -/

namespace Talk

/-- The program with what follows it. -/
def exec (t : Talk α) (k : Result α → Proc Message γ) : Proc Message γ := t.run.bind k

/-- Goes on with a result, or passes an error on. -/
def cont (f : α → Proc Message γ) (k : Fault → Proc Message γ) : Result α → Proc Message γ
  | .ok a => f a
  | .error e => k e

theorem exec_bind (t : Talk α) (f : α → Talk β) (k : Result β → Proc Message γ) :
    exec (t >>= f) k = exec t (cont (fun a => exec (f a) k) fun e => k (.error e)) := by
  unfold exec
  show (Proc.bind t.run (ExceptT.bindCont f)).bind k = _
  rw [Proc.bind_assoc]
  congr 1
  funext r
  cases r <;> rfl

theorem exec_onError_ok (a : α) (handle : Talk Unit) (f : α → Talk β) (k : Result β → Proc Message γ) :
    exec ((lift (.ok a)).onError handle >>= f) k = exec (f a) k := rfl

theorem exec_onError_error (err : String) (handle : Talk Unit) (f : α → Talk β)
    (k : Result β → Proc Message γ) :
    exec ((lift (.error (.error err))).onError handle >>= f) k =
      exec handle fun _ => k (.error (.error err)) := by
  rw [exec_bind]
  exact Proc.bind_assoc handle.run _ _

theorem exec_read (f : Message → Talk β) (k : Result β → Proc Message γ) :
    exec (readMessage codec >>= f) k = .read fun m => exec (lift (readResult codec m) >>= f) k := rfl

theorem exec_read_onError (handle : Talk Unit) (f : Message → Talk β) (k : Result β → Proc Message γ) :
    exec ((readMessage codec).onError handle >>= f) k =
      .read fun m => exec ((lift (readResult codec m)).onError handle >>= f) k := rfl

theorem exec_write (m : Message) (f : Unit → Talk β) (k : Result β → Proc Message γ) :
    exec (writeMessage m >>= f) k = .write m fun ok => exec (lift (writeResult ok) >>= f) k := rfl

theorem exec_write_onError (m : Message) (handle : Talk Unit) (f : Unit → Talk β)
    (k : Result β → Proc Message γ) :
    exec ((writeMessage m).onError handle >>= f) k =
      .write m fun ok => exec ((lift (writeResult ok)).onError handle >>= f) k := rfl

theorem readResult_some {m : Message} (h : reads codec m = true) : readResult codec (some m) = .ok m :=
  if_pos h

theorem readResult_unread {m : Message} (h : reads codec m ≠ true) :
    readResult codec (some m) = .error (.error "unexpected EOF") :=
  if_neg h

/-- What is done on an error closes the connection. -/
def Closes (handle : Talk Unit) : Prop :=
  ∀ {γ δ : Type} (p : Proc Message γ) (q : Proc Message δ),
    Runs (start p (exec handle fun _ => q)) (ended p q)

theorem closes_closeClient : Closes closeClient := fun _ _ => runs_close

theorem closes_refusing : Closes (do closeClient; writeDropping (.bare protoNo)) := fun _ _ =>
  runs_close.trans runs_ended_write

/-! ## One message -/

variable {f : Message → Talk α} {k : Result α → Proc Message γ} {k' : Result β → Proc Message δ}
  {handle : Talk Unit} {m : Message}

/-- A check of the receiver fails. -/
theorem runs_error (hclose : Closes handle) (err : String) (p : Proc Message γ) (g : α → Talk β) :
    Runs (start p (exec ((lift (.error (.error err))).onError handle >>= g) k'))
      (ended p (k' (.error (.error err)))) := by
  rw [exec_onError_error]
  exact hclose _ _

/-- The sender writes and the receiver reads. -/
theorem runs_sent (hread : reads codec m = true) (f : Unit → Talk α) (g : Message → Talk β) :
    Runs (start (exec (writeMessage m >>= f) k) (exec ((readMessage codec).onError handle >>= g) k'))
      (start (exec (f ()) k) (exec (g m) k')) := by
  rw [exec_write, exec_read_onError]
  refine runs_message_right.trans ?_
  simp only [readResult_some hread]
  exact Runs.refl _

/-- The message of the sender is too long to be read. -/
theorem runs_unread (hclose : Closes handle) (hread : reads codec m ≠ true) (f : Unit → Talk α)
    (g : Message → Talk β) :
    Runs (start (exec (writeMessage m >>= f) k) (exec ((readMessage codec).onError handle >>= g) k'))
      (ended (exec (f ()) k) (k' (.error (.error "unexpected EOF")))) := by
  rw [exec_write, exec_read_onError]
  refine runs_message_right.trans ?_
  simp only [readResult_unread hread]
  exact runs_error hclose _ _ g

/-- The receiver answers. -/
theorem runs_answered (hread : reads codec m = true) (g : Unit → Talk β) :
    Runs (start (exec (readMessage codec >>= f) k) (exec ((writeMessage m).onError handle >>= g) k'))
      (start (exec (f m) k) (exec (g ()) k')) := by
  rw [exec_read, exec_write_onError]
  refine runs_message_left.trans ?_
  simp only [readResult_some hread]
  exact Runs.refl _

theorem runs_answered_dropping (hread : reads codec m = true) (g : Unit → Talk β) :
    Runs (start (exec (readMessage codec >>= f) k) (exec (writeDropping m >>= g) k'))
      (start (exec (f m) k) (exec (g ()) k')) := by
  rw [exec_read]
  refine runs_message_left.trans ?_
  simp only [readResult_some hread]
  exact Runs.refl _

/-- The receiver has closed. -/
theorem runs_ended (q : Proc Message δ) :
    Runs (ended (exec (readMessage codec >>= f) k) q) (ended (k (.error (.error "EOF"))) q) :=
  runs_ended_read

end Talk

open Talk

theorem reads_of_le {m : Message} (h : m.encodedLength ≤ maxMessageSize) : reads codec m = true := by
  simp [reads, h]

theorem encodedString_le (l : Nat) : encodedString l ≤ l + 5 := by
  unfold encodedString
  split
  · omega
  · split
    · omega
    · split <;> omega

theorem encodedBytes_le (l : Nat) : Node.encodedBytes l ≤ l + 5 := by
  unfold Node.encodedBytes
  split
  · omega
  · split <;> omega

theorem reads_bare {header : String} (h : header.utf8ByteSize ≤ 31) :
    reads codec (.bare header) = true := by
  refine reads_of_le ?_
  have hstring := encodedString_le header.utf8ByteSize
  simp only [Message.bare, Message.encodedLength, Node.encodedName, maxMessageSize]
  omega

theorem reads_ofBytes {header : String} {b : Bytes} (h : header.utf8ByteSize ≤ 31)
    (hb : b.length ≤ 64) : reads codec ⟨header, some (Content.ofBytes b)⟩ = true := by
  refine reads_of_le ?_
  have hstring := encodedString_le header.utf8ByteSize
  have hbytes := encodedBytes_le b.length
  have hcontent := encodedBytes_le (Node.encodedBytes b.length)
  simp only [Message.encodedLength, Node.encodedName, Content.ofBytes, maxMessageSize]
  omega

theorem readArray_ofBytes {header : String} {b : Bytes} :
    Message.readArray ⟨header, some (Content.ofBytes b)⟩ b.length = b := by
  simp [Message.readArray, Content.ofBytes, copyInto]

theorem reads_cookieMessage {cookie : Bytes} (h : cookie.length = 20) :
    reads codec (cookieMessage cookie) = true :=
  reads_ofBytes (by decide) (by omega)

theorem readArray_cookieMessage {cookie : Bytes} (h : cookie.length = 20) :
    (cookieMessage cookie).readArray 20 = cookie := by
  rw [← h]
  exact readArray_ofBytes

theorem reads_sigMessage {sig : Bytes} (h : sig.length = signatureSize) :
    reads codec (sigMessage sig) = true :=
  reads_ofBytes (by decide) h.le

theorem readArray_sigMessage {sig : Bytes} (h : sig.length = signatureSize) :
    (sigMessage sig).readArray signatureSize = sig := by
  rw [← h]
  exact readArray_ofBytes

/-! ## One half -/

/-- The receiver accepts the sender: the messages can be read, the entry is valid, and the key is that of
the entry. -/
structure Accepted (P : Prims) (codec : Codec) (sender : Party) (cookie : Option Bytes) : Prop where
  header : reads codec (headerMessage codec sender.entry) = true
  fits : codec.entryLength sender.entry ≤ Node.maxMessageContentSize
  valid : sender.entry.verify P = .ok ()
  caps : reads codec (capMessage sender.capabilities) = true
  sig : ∃ c ∈ cookie, P.edVerify sender.entry.publicKey c (P.edSign sender.key c) = true

theorem readEntry_headerMessage {e : Entry} (h : codec.entryLength e ≤ Node.maxMessageContentSize) :
    (headerMessage codec e).readEntry = .ok e := by
  simp [headerMessage, Message.readEntry, Content.ofEntry, h]

/-- What the receiver takes the capabilities for. -/
def received (c : Capabilities) : Capabilities := (capMessage c).readCapabilities

variable {self : Party} {cookie : Bytes} {k : Result Unit → Proc Message γ}
  {k' : Result (Entry × Capabilities) → Proc Message δ}

/-- What the sender does after its entry was accepted. -/
def sendProof (P : Prims) (codec : Codec) (sender : Party) : Talk Unit := do
  writeMessage (capMessage sender.capabilities)
  let msg ← readMessage codec
  writeMessage (sigMessage (P.edSign sender.key (msg.readArray 20)))
  let msg ← readMessage codec
  if !msg.ok then throw (.error "Peer refused signature")

/-- What the receiver does after it accepted an entry. -/
def recieveProof (P : Prims) (codec : Codec) (cookie : Option Bytes) (entry : Entry) :
    Talk (Entry × Capabilities) := do
  let peerCapsMsg ← checked (readMessage codec)
  let cookie ← checked (lift (cookie.elim (.error (.error "no randomness")) .ok))
  checked (writeMessage (cookieMessage cookie))
  let sig ← checked (readMessage codec)
  let verified ← lift (P.ed25519Verify entry.publicKey cookie (sig.readArray signatureSize))
  if verified then
    writeDropping (.bare protoOk)
    return (entry, peerCapsMsg.readCapabilities)
  else
    writeDropping (.bare protoNo)
    closeClient
    throw (.error "Signature not verified")

/-- The entry of the sender is accepted. -/
theorem runs_half_greeted (cookie : Option Bytes)
    (header : reads codec (headerMessage codec self.entry) = true)
    (fits : codec.entryLength self.entry ≤ Node.maxMessageContentSize)
    (valid : self.entry.verify P = .ok ()) :
    Runs (start (exec (handshakeSend P codec self) k) (exec (handshakeRecieve P codec cookie) k'))
      (start (exec (sendProof P codec self) k) (exec (recieveProof P codec cookie self.entry) k')) := by
  unfold handshakeSend handshakeRecieve
  refine (runs_sent header _ _).trans ?_
  rw [readEntry_headerMessage fits, refusing, exec_onError_ok, valid, refusing, exec_onError_ok]
  refine (runs_answered (reads_bare (by decide)) _).trans ?_
  rw [if_neg (by decide)]
  exact Runs.refl _

/-- The signature of the sender is there. -/
theorem runs_half_signed (hcookie : cookie.length = 20)
    (caps : reads codec (capMessage self.capabilities) = true) :
    Runs (start (exec (sendProof P codec self) k)
        (exec (recieveProof P codec (some cookie) self.entry) k'))
      (start
        (exec (do
          let msg ← readMessage codec
          if !msg.ok then throw (.error "Peer refused signature")) k)
        (exec (do
          if P.edVerify self.entry.publicKey cookie (P.edSign self.key cookie) then
            writeDropping (.bare protoOk)
            return (self.entry, received self.capabilities)
          else
            writeDropping (.bare protoNo)
            closeClient
            throw (.error "Signature not verified")) k')) := by
  unfold sendProof recieveProof
  refine (runs_sent caps _ _).trans ?_
  rw [Option.elim_some, checked, exec_onError_ok]
  refine (runs_answered (reads_cookieMessage hcookie) _).trans ?_
  have hlen : (P.edSign self.key cookie).length = signatureSize := P.edSign_length self.key cookie
  have hverify : P.ed25519Verify self.entry.publicKey cookie (P.edSign self.key cookie) =
      .ok (P.edVerify self.entry.publicKey cookie (P.edSign self.key cookie)) := by
    simp [Prims.ed25519Verify, self.publicKey_length, hlen]
  simp only [readArray_cookieMessage hcookie]
  refine (runs_sent (reads_sigMessage hlen) _ _).trans ?_
  simp only [readArray_sigMessage hlen, hverify]
  exact Runs.refl _

theorem runs_half_accepted (hcookie : cookie.length = 20)
    (h : Accepted P codec self (some cookie)) :
    Runs (start (exec (handshakeSend P codec self) k) (exec (handshakeRecieve P codec (some cookie)) k'))
      (start (k (.ok ())) (k' (.ok (self.entry, received self.capabilities)))) := by
  obtain ⟨c, hc, hsig⟩ := h.sig
  obtain rfl : cookie = c := Option.some.inj hc
  refine (runs_half_greeted _ h.header h.fits h.valid).trans ?_
  refine (runs_half_signed hcookie h.caps).trans ?_
  rw [if_pos hsig]
  refine (runs_answered_dropping (reads_bare (by decide)) _).trans ?_
  rw [if_neg (by decide)]
  exact Runs.refl _

/-! ### Rejections -/

/-- The receiver closes while the sender waits for an answer. -/
theorem Runs.then_ended {s : Session Message γ δ} {f : Message → Talk α} {k : Result α → Proc Message γ}
    {q : Proc Message δ} (h : s.Runs (ended (exec (readMessage codec >>= f) k) q)) :
    s.Runs (ended (k (.error (.error "EOF"))) q) :=
  h.trans (runs_ended q)

/-- An entry with a key of the right size does not make `Verify` panic. -/
theorem verify_cases (P : Prims) {e : Entry} (h : e.publicKey.length = publicKeySize) :
    e.verify P = .ok () ∨ ∃ err, e.verify P = .error (.error err) := by
  have hed : P.ed25519Verify e.publicKey (e.bytes P) e.signature = .ok _ := if_neg (by simp [h])
  cases hv : e.verify P with
  | ok u => exact .inl rfl
  | error f =>
    cases f with
    | error err => exact .inr ⟨err, rfl⟩
    | panic =>
      unfold Entry.verify at hv
      simp only [hed, bind, Except.bind, guard_eq_panic, reduceCtorEq, and_false] at hv

/-- The receiver rejects the sender: it has closed the connection, and both have an error. -/
theorem runs_half_rejected {cookie : Option Bytes} (hcookie : ∀ c ∈ cookie, c.length = 20)
    (h : ¬ Accepted P codec self cookie) :
    ∃ err err', Runs
      (start (exec (handshakeSend P codec self) k) (exec (handshakeRecieve P codec cookie) k'))
      (ended (k (.error (.error err))) (k' (.error (.error err')))) := by
  by_cases hheader : reads codec (headerMessage codec self.entry) = true
  swap
  · refine ⟨"EOF", "unexpected EOF", ?_⟩
    apply Runs.then_ended
    exact runs_unread closes_refusing hheader _ _
  by_cases hfits : codec.entryLength self.entry ≤ Node.maxMessageContentSize
  swap
  · have hread : (headerMessage codec self.entry).readEntry = .error (.error "unexpected EOF") := by
      simp [headerMessage, Message.readEntry, Content.ofEntry, hfits]
    refine ⟨"EOF", "unexpected EOF", ?_⟩
    apply Runs.then_ended
    refine (runs_sent hheader _ _).trans ?_
    rw [hread]
    exact runs_error closes_refusing _ _ _
  rcases verify_cases P self.publicKey_length with hvalid | ⟨err, hinvalid⟩
  swap
  · refine ⟨"EOF", err, ?_⟩
    apply Runs.then_ended
    refine (runs_sent hheader _ _).trans ?_
    rw [readEntry_headerMessage hfits, refusing, exec_onError_ok, hinvalid]
    exact runs_error closes_refusing _ _ _
  have hgreeted : Runs (start (exec (handshakeSend P codec self) k)
      (exec (handshakeRecieve P codec cookie) k')) _ :=
    runs_half_greeted cookie hheader hfits hvalid
  by_cases hcaps : reads codec (capMessage self.capabilities) = true
  swap
  · refine ⟨"EOF", "unexpected EOF", hgreeted.trans ?_⟩
    apply Runs.then_ended
    exact runs_unread closes_closeClient hcaps _ _
  cases cookie with
  | none =>
    refine ⟨"EOF", "no randomness", hgreeted.trans ?_⟩
    apply Runs.then_ended
    refine (runs_sent hcaps _ _).trans ?_
    exact runs_error closes_closeClient _ _ _
  | some cookie =>
    have hsig : ¬ P.edVerify self.entry.publicKey cookie (P.edSign self.key cookie) = true :=
      fun hsig => h ⟨hheader, hfits, hvalid, hcaps, cookie, rfl, hsig⟩
    refine ⟨"Peer refused signature", "Signature not verified", hgreeted.trans ?_⟩
    refine (runs_half_signed (hcookie cookie rfl) hcaps).trans ?_
    rw [if_neg hsig]
    refine (runs_answered_dropping (reads_bare (by decide)) _).trans ?_
    rw [if_pos (by decide)]
    exact runs_close

/-! ## The whole handshake -/

/-- Each accepts the other. -/
def Completes (P : Prims) (codec : Codec) (dialler listener : Party) : Prop :=
  Accepted P codec dialler listener.cookie ∧ Accepted P codec listener dialler.cookie

/-- The two ends of a fresh connection. -/
def connection (P : Prims) (codec : Codec) (dialler listener : Party) :
    Session Message (Result (Option (Entry × Capabilities))) (Result (Entry × Capabilities)) :=
  start (streamHandshake P codec dialler).run (handshake P codec listener).run

variable {dialler listener : Party}

/-- The dialler is rejected: it has no entry and no error, the listener has an error. -/
theorem connection_first_rejected (h : ¬ Accepted P codec dialler listener.cookie) :
    ∃ t f, Runs (connection P codec dialler listener) t ∧ t.Returned (.ok none) (.error f) := by
  obtain ⟨err, err', hruns⟩ := runs_half_rejected listener.cookie_length h
  exact ⟨_, _, hruns.trans (runs_ended_read.trans runs_ended_write), rfl, rfl⟩

/-- The dialler is accepted: it reads the additional `ok`, and the roles are exchanged. -/
theorem connection_first_accepted (h : Accepted P codec dialler listener.cookie) :
    Runs (connection P codec dialler listener)
      (start
        (do
          let server ← handshakeRecieve P codec dialler.cookie
          return some server : Talk (Option (Entry × Capabilities))).run
        (do
          handshakeSend P codec listener
          return (dialler.entry, received dialler.capabilities) : Talk (Entry × Capabilities)).run) := by
  obtain ⟨cookie, hc, -⟩ := h.sig
  have hcookie := listener.cookie_length cookie hc
  unfold connection streamHandshake handshake
  rw [hc] at h ⊢
  refine (runs_half_accepted hcookie h).trans ?_
  refine runs_message_left.trans ?_
  have hread : readResult codec (some (.bare protoOk)) = .ok (.bare protoOk) :=
    readResult_some (reads_bare (by decide))
  show Runs (start (Proc.bind (.done (readResult codec (some (.bare protoOk)))) _) _) _
  rw [hread]
  exact Runs.refl _

/-- The listener is rejected: both have an error. -/
theorem connection_second_rejected (h : Accepted P codec dialler listener.cookie)
    (h' : ¬ Accepted P codec listener dialler.cookie) :
    ∃ t f f', Runs (connection P codec dialler listener) t ∧ t.Returned (.error f) (.error f') := by
  obtain ⟨err, err', hruns⟩ := runs_half_rejected dialler.cookie_length h'
  exact ⟨_, _, _, (connection_first_accepted h).trans hruns.swap, rfl, rfl⟩

/-- Both are accepted: each has the entry of the other, and its capabilities as they were decoded. -/
theorem connection_accepted (h : Completes P codec dialler listener) :
    ∃ t, Runs (connection P codec dialler listener) t ∧
      t.Returned (.ok (some (listener.entry, received listener.capabilities)))
        (.ok (dialler.entry, received dialler.capabilities)) := by
  obtain ⟨cookie, hc, -⟩ := h.2.sig
  have hcookie := dialler.cookie_length cookie hc
  have hfirst := connection_first_accepted h.1
  have hsecond := h.2
  rw [hc] at hfirst hsecond
  exact ⟨_, hfirst.trans (runs_half_accepted hcookie hsecond).swap, rfl, rfl⟩

/-! ## Every interleaving -/

/-- Both ends agree, for one pair of nodes: every interleaving ends, and from every state it leads to both
go on until they have returned; the dialler has an entry exactly when the listener has no error; and then
each holds what the other sent, and has verified a signature over its own cookie under the key in that
entry. -/
structure Agrees (P : Prims) (codec : Codec) (dialler listener : Party) : Prop where
  ends : ∃ bound, ∀ k s, Steps Step k (connection P codec dialler listener) s → k ≤ bound
  neverStuck : ∀ s, Runs (connection P codec dialler listener) s → ∃ t a b, Runs s t ∧ t.Returned a b
  sameOutcome : ∀ t a b, Runs (connection P codec dialler listener) t → t.Returned a b →
    ((∃ server, a = .ok (some server)) ↔ ∃ client, b = .ok client)
  holds : ∀ t server client, Runs (connection P codec dialler listener) t →
    t.Returned (.ok (some server)) (.ok client) →
      server = (listener.entry, listener.capabilities) ∧
      client = (dialler.entry, dialler.capabilities) ∧
      (∃ c ∈ dialler.cookie, P.edVerify server.1.publicKey c (P.edSign listener.key c) = true) ∧
      ∃ c ∈ listener.cookie, P.edVerify client.1.publicKey c (P.edSign dialler.key c) = true

/-- The outcome of the handshake. -/
theorem connection_outcome (P : Prims) (codec : Codec) (dialler listener : Party) :
    ∃ t a b, Runs (connection P codec dialler listener) t ∧ t.Returned a b ∧
      ((Completes P codec dialler listener ∧
          a = .ok (some (listener.entry, received listener.capabilities)) ∧
          b = .ok (dialler.entry, received dialler.capabilities)) ∨
        ¬ Completes P codec dialler listener ∧ (a = .ok none ∨ ∃ f, a = .error f) ∧ ∃ f, b = .error f) := by
  by_cases h : Accepted P codec dialler listener.cookie
  · by_cases h' : Accepted P codec listener dialler.cookie
    · obtain ⟨t, hruns, ht⟩ := connection_accepted ⟨h, h'⟩
      exact ⟨t, _, _, hruns, ht, .inl ⟨⟨h, h'⟩, rfl, rfl⟩⟩
    · obtain ⟨t, f, f', hruns, ht⟩ := connection_second_rejected h h'
      exact ⟨t, _, _, hruns, ht, .inr ⟨fun hc => h' hc.2, .inr ⟨f, rfl⟩, f', rfl⟩⟩
  · obtain ⟨t, f, hruns, ht⟩ := connection_first_rejected h
    exact ⟨t, _, _, hruns, ht, .inr ⟨fun hc => h hc.1, .inl rfl, f, rfl⟩⟩

/-- Capabilities arrive as they were sent exactly when their encoding is within the limit. -/
theorem received_eq_iff (c : Capabilities) :
    received c = c ↔ c.encodedLength ≤ Node.maxMessageContentSize := by
  show (if c.encodedLength ≤ Node.maxMessageContentSize then c else ⟨[]⟩) = c ↔ _
  constructor
  · intro h
    by_contra hlong
    rw [if_neg hlong] at h
    rw [← h] at hlong
    exact hlong (by decide)
  · intro h
    exact if_pos h

/-- **Agreement.** Both ends agree exactly when one of them rejects the other, or the capabilities of both
are within the limit. -/
theorem handshake_agrees_iff (P : Prims) (codec : Codec) (dialler listener : Party) :
    Agrees P codec dialler listener ↔
      ¬ Completes P codec dialler listener ∨
        dialler.capabilities.encodedLength ≤ Node.maxMessageContentSize ∧
          listener.capabilities.encodedLength ≤ Node.maxMessageContentSize := by
  obtain ⟨t, a, b, ⟨n, hn⟩, ht, hout⟩ := connection_outcome P codec dialler listener
  rw [← received_eq_iff, ← received_eq_iff]
  constructor
  · intro h
    rcases hout with ⟨-, rfl, rfl⟩ | ⟨hnot, -⟩
    · obtain ⟨hserver, hclient, -⟩ := h.holds t _ _ ⟨n, hn⟩ ht
      exact .inr ⟨congrArg Prod.snd hclient, congrArg Prod.snd hserver⟩
    · exact .inl hnot
  · intro h
    refine ⟨⟨n, fun k s hs => ?_⟩, ?_, ?_, ?_⟩
    · obtain ⟨m, hm, -⟩ := runs_alike hn ht hs
      omega
    · rintro s ⟨k, hs⟩
      obtain ⟨m, -, hm⟩ := runs_alike hn ht hs
      exact ⟨t, a, b, ⟨m, hm⟩, ht⟩
    · rintro u a' b' ⟨k, hk⟩ hu
      obtain ⟨rfl, rfl⟩ := Returned.unique hn ht hk hu
      rcases hout with ⟨-, rfl, rfl⟩ | ⟨-, ha, f, rfl⟩
      · exact ⟨fun _ => ⟨_, rfl⟩, fun _ => ⟨_, rfl⟩⟩
      · constructor
        · rintro ⟨server, rfl⟩
          rcases ha with heq | ⟨f', heq⟩ <;> cases heq
        · rintro ⟨client, heq⟩
          cases heq
    · rintro u server client ⟨k, hk⟩ hu
      obtain ⟨rfl, rfl⟩ := Returned.unique hn ht hk hu
      rcases hout with ⟨hcomp, ha, hb⟩ | ⟨-, -, f, heq⟩
      · obtain ⟨hd, hl⟩ := h.resolve_left (not_not_intro hcomp)
        cases ha
        cases hb
        rw [hd, hl]
        exact ⟨rfl, rfl, hcomp.2.sig, hcomp.1.sig⟩
      · cases heq

/-! ## Capabilities beyond the limit -/

/-- A codec for which every entry takes 500 bytes. -/
def sampleCodec : Codec := ⟨fun _ => 500, fun _ => false⟩

/-- The private key of the `k`-th node. -/
def sampleKey (k : UInt8) : Bytes := List.replicate 64 k

/-- The entry of the `k`-th node, signed with that key. -/
def sampleHeader (k : UInt8) : Entry :=
  Entry.signedBy .sample (sampleKey k)
    { address := { raw := List.replicate 20 k }, name := [97], desc := [], publicAddress := [98],
      publicKey := [], postCount := 0, updated := 7, signature := [], collectionHash := [],
      port := 5050, seeds := [], seeding := [], seen := 0 }

/-- The `k`-th node, with the given capabilities. -/
def sampleParty (k : UInt8) (capabilities : Capabilities) : Party where
  entry := sampleHeader k
  capabilities := capabilities
  key := sampleKey k
  cookie := some (List.replicate 20 k)
  publicKey_length := Prims.sample.edPublic_length (sampleKey k)
  key_length := List.length_replicate
  cookie_length := by simp

/-- One compression method with a name of `n` bytes. -/
def longCapabilities (n : Nat) : Capabilities := ⟨[List.replicate n 97]⟩

theorem encodedLength_longCapabilities {n : Nat} (hn : 65536 ≤ n) :
    (longCapabilities n).encodedLength = n + 19 := by
  have hstring : encodedString n = n + 5 := by
    unfold encodedString
    split_ifs <;> omega
  have hname : Node.encodedName 11 = 12 := by decide
  have harray : encodedArray 1 = 1 := by decide
  simp only [longCapabilities, Capabilities.encodedLength, List.map_cons, List.map_nil,
    List.length_replicate, List.length_cons, List.length_nil, List.sum_cons, List.sum_nil,
    Nat.zero_add, hstring, hname, harray]
  omega

theorem reads_longCapabilities {n : Nat} (hn : 65536 ≤ n) (hmax : n + 200 ≤ maxMessageSize) :
    reads sampleCodec (capMessage (longCapabilities n)) = true := by
  refine reads_of_le ?_
  have hbytes := encodedBytes_le (n + 19)
  have hstring := encodedString_le protoCap.utf8ByteSize
  have hcap : protoCap.utf8ByteSize = 3 := by decide
  simp only [capMessage, Message.encodedLength, Node.encodedName, Content.ofCapabilities,
    encodedLength_longCapabilities hn]
  omega

/-- The sample nodes accept each other, as far as the capabilities can be read. -/
theorem accepted_sampleParty {k : UInt8} (hk : k = 1 ∨ k = 2) {c : Capabilities} (k' : UInt8)
    (hc : reads sampleCodec (capMessage c) = true) :
    Accepted .sample sampleCodec (sampleParty k c) (some (List.replicate 20 k')) where
  header := by
    refine reads_of_le ?_
    have hstring := encodedString_le protoHeader.utf8ByteSize
    have hheader : protoHeader.utf8ByteSize = 6 := by decide
    have hbytes := encodedBytes_le 500
    simp only [headerMessage, Message.encodedLength, Node.encodedName, Content.ofEntry, sampleCodec,
      maxMessageSize]
    omega
  fits := (by decide : 500 ≤ Node.maxMessageContentSize)
  valid := by
    show (sampleHeader k).verify .sample = .ok ()
    rcases hk with rfl | rfl <;> decide +kernel
  caps := hc
  sig := ⟨_, rfl, Prims.sample.edVerify_sign (sampleKey k) _⟩

/-- A method between the two limits: the handshake completes, and the listener holds an empty list. -/
theorem longCapabilities_lost {n : Nat} (hn : Node.maxMessageContentSize ≤ n)
    (hmax : n + 200 ≤ maxMessageSize) :
    Completes .sample sampleCodec (sampleParty 1 (longCapabilities n)) (sampleParty 2 ⟨[]⟩) ∧
      received (longCapabilities n) = ⟨[]⟩ ∧
      ¬ Agrees .sample sampleCodec (sampleParty 1 (longCapabilities n)) (sampleParty 2 ⟨[]⟩) := by
  have hshort : 65536 ≤ n := le_trans (by decide) hn
  have hlong : ¬ (longCapabilities n).encodedLength ≤ Node.maxMessageContentSize := by
    rw [encodedLength_longCapabilities hshort]
    omega
  have hcomp : Completes .sample sampleCodec (sampleParty 1 (longCapabilities n))
      (sampleParty 2 ⟨[]⟩) :=
    ⟨accepted_sampleParty (.inl rfl) 2 (reads_longCapabilities hshort hmax),
      accepted_sampleParty (.inr rfl) 1 (by decide)⟩
  refine ⟨hcomp, if_neg hlong, fun h => ?_⟩
  obtain ⟨t, hruns, ht⟩ := connection_accepted hcomp
  obtain ⟨-, hclient, -⟩ := h.holds t _ _ hruns ht
  have hcaps : received (longCapabilities n) = longCapabilities n := congrArg Prod.snd hclient
  exact hlong ((received_eq_iff _).mp hcaps)

/-- The dialler offers one method of 4 MiB, the listener none. The handshake completes, and the
listener holds an empty list. -/
theorem long_capabilities_lost :
    Completes .sample sampleCodec (sampleParty 1 (longCapabilities (1024 * 1024 * 4)))
        (sampleParty 2 ⟨[]⟩) ∧
      received (longCapabilities (1024 * 1024 * 4)) = ⟨[]⟩ ∧
      ¬ Agrees .sample sampleCodec (sampleParty 1 (longCapabilities (1024 * 1024 * 4)))
        (sampleParty 2 ⟨[]⟩) :=
  longCapabilities_lost (by decide) (by decide)

end Zif.Proto
