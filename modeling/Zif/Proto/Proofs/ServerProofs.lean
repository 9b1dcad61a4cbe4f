import Zif.Lib.Proofs.BufferedProofs
import Zif.Proto.Server
import Zif.Proto.Proofs.HandshakeProofs
import Zif.Proto.Proofs.TalkProofs

/-!
# Proofs: from the handshake to the session

A listener that returns from the handshake has read six messages. Of the first five nothing stays in the
buffer, since the dialler waits for an answer after each of them and no read can go beyond it. After the
sixth it does not wait. If a read gives the end of it together with what follows, then that stays in the
buffer, and the session never sees it.
-/

namespace Zif.Proto

open Go Dht Buffered Talk

variable {P : Prims} {codec : Codec} {decode : Parse UInt8 Message} {self : Party}
  {client : Entry × Capabilities} {cl cl' : Reader UInt8} {m m' : Message} {pieces : List Bytes}

/-- A message is read. -/
def Reads (decode : Parse UInt8 Message) (cl cl' : Reader UInt8) : Prop :=
  ∃ m, clientRead decode cl = (some m, cl')

/-- A listener that returns has read six messages. -/
theorem serverHandshake_reads (h : (serverHandshake P codec decode self pieces).1 = .ok client) :
    Steps (Reads decode) 6 (newClient pieces) (serverHandshake P codec decode self pieces).2 := by
  obtain ⟨e, caps⟩ := client
  have hreturns : Returns (clientRead decode) (handshake P codec self) false (newClient pieces) (e, caps)
      _ (serverHandshake P codec decode self pieces).2 := Prod.ext h rfl
  obtain ⟨s₃, hrec, hsend⟩ := returns_handshake.mp hreturns
  obtain ⟨-, m₁, s₁, m₂, s₂, m₃, h₁, h₂, h₃, -⟩ := returns_handshakeRecieve.mp hrec
  obtain ⟨-, m₄, s₄, m₅, s₅, m₆, h₄, h₅, h₆, -⟩ := returns_handshakeSend.mp hsend
  exact .cons ⟨m₁, h₁⟩ (.cons ⟨m₂, h₂⟩ (.cons ⟨m₃, h₃⟩ (.cons ⟨m₄, h₄⟩ (.cons ⟨m₅, h₅⟩
    (.cons ⟨m₆, h₆⟩ (.refl _))))))

/-- The buffer is empty, and the pieces are still to come. -/
structure Awaits (pieces : List Bytes) (cl : Reader UInt8) : Prop where
  buf : cl.buf = []
  left : cl.left = maxMessageSize
  src : ∃ read, cl.src = read ++ pieces ∧ read.flatten = []

theorem awaits_newClient (pieces : List Bytes) : Awaits pieces (newClient pieces) :=
  ⟨rfl, rfl, [], rfl, rfl⟩

theorem run_of_clientRead (h : clientRead decode cl = (some m, cl')) :
    ∃ conn, cl.run bufferSize decode = (some m, conn) ∧ cl' = ⟨conn.buf, maxMessageSize, conn.src⟩ := by
  injection h with hm hcl
  exact ⟨_, Prod.ext hm rfl, hcl.symm⟩

/-- Nothing stays in the buffer of a message that ends with a piece. -/
theorem Awaits.read {turn : List Bytes} (h : Awaits (turn ++ pieces) cl)
    (hturn : Encodes decode turn.flatten m) (hread : Reads decode cl cl') : Awaits pieces cl' := by
  obtain ⟨m', hread⟩ := hread
  obtain ⟨conn, hrun, rfl⟩ := run_of_clientRead hread
  obtain ⟨done, hsrc, hdone⟩ := h.src
  have hcut : cl.Cut pieces turn.flatten := by
    refine ⟨done ++ turn, by rw [hsrc, List.append_assoc], ?_⟩
    rw [h.buf, List.flatten_append, hdone, List.nil_append, List.nil_append]
  obtain ⟨-, pre, hpre, hend⟩ := (Reader.kept_cut (by decide) pieces).run hturn hcut hrun
  obtain ⟨hbuf, hflat⟩ := List.append_eq_nil_iff.mp hend
  exact ⟨hbuf, rfl, pre, hpre, hflat⟩

theorem Awaits.turns {turns : List (List Bytes)} (h : Awaits (turns.flatten ++ pieces) cl)
    (hturns : ∀ turn ∈ turns, ∃ m, Encodes decode turn.flatten m)
    (hread : Steps (Reads decode) turns.length cl cl') : Awaits pieces cl' := by
  induction turns generalizing cl with
  | nil =>
    cases hread
    exact h
  | cons turn turns ih =>
    cases hread with
    | cons hfirst hrest =>
      rw [List.flatten_cons, List.append_assoc] at h
      obtain ⟨m, hm⟩ := hturns turn List.mem_cons_self
      exact ih (h.read hm hfirst) (fun t ht => hturns t (List.mem_cons_of_mem _ ht)) hrest

/-- The last message is in the buffer with what follows it, unless a piece ends with it. -/
theorem Awaits.read_iff {final later : Bytes} (h : Awaits pieces cl) (hfinal : Encodes decode final m)
    (hpieces : pieces.flatten = final ++ later) (hpos : final ≠ []) (hshort : final.length < bufferSize)
    (hread : Reads decode cl cl') :
    connectServer cl' = later ↔ ∃ pre post, pieces = pre ++ post ∧ pre.flatten = final := by
  obtain ⟨m', hread⟩ := hread
  obtain ⟨conn, hrun, rfl⟩ := run_of_clientRead hread
  obtain ⟨done, hsrc, hdone⟩ := h.src
  have hflat : cl.src.flatten = final ++ later := by
    rw [hsrc, List.flatten_append, hdone, hpieces, List.nil_append]
  have hleft : final.length < cl.left := by
    rw [h.left]
    exact hshort.trans (by decide)
  refine (Reader.run_src_iff hfinal h.buf hflat hshort hleft hrun).trans ?_
  constructor
  · rintro ⟨pre, post, heq, hpre⟩
    rw [hsrc] at heq
    -- the pieces that are used up are empty, so the message does not end among them
    rcases List.append_eq_append_iff.mp heq with ⟨rest, rfl, rfl⟩ | ⟨rest, rfl, -⟩
    · rw [List.flatten_append, hdone, List.nil_append] at hpre
      exact ⟨rest, post, rfl, hpre⟩
    · rw [List.flatten_append] at hdone
      exact absurd (hpre.symm.trans (List.append_eq_nil_iff.mp hdone).1) hpos
  · rintro ⟨pre, post, rfl, hpre⟩
    refine ⟨done ++ pre, post, by rw [hsrc, List.append_assoc], ?_⟩
    rw [List.flatten_append, hdone, List.nil_append, hpre]

/-- **Handing the connection over.** The dialler sends five messages, each in pieces of its own since it
waits for an answer, and then its last one and what follows it, in any pieces. What follows reaches the
session exactly when a piece ends where the last message ends. -/
theorem connectServer_iff {turns : List (List Bytes)} {last : List Bytes} {final later : Bytes}
    (hcount : turns.length = 5) (hturns : ∀ turn ∈ turns, ∃ m, Encodes decode turn.flatten m)
    (hfinal : Encodes decode final (.bare protoOk))
    (hlength : final.length = (Message.bare protoOk).encodedLength)
    (hlast : last.flatten = final ++ later)
    (hopen : (serverHandshake P codec decode self (turns.flatten ++ last)).1 = .ok client) :
    connectServer (serverHandshake P codec decode self (turns.flatten ++ last)).2 = later ↔
      ∃ pre post, last = pre ++ post ∧ pre.flatten = final := by
  have hsix := serverHandshake_reads hopen
  rw [show 6 = turns.length + 1 by rw [hcount]] at hsix
  obtain ⟨cl, hfirst, hrest⟩ := hsix.split
  have hawaits := (awaits_newClient (turns.flatten ++ last)).turns hturns hfirst
  cases hrest with
  | cons hread hnone =>
    have hlen : (Message.bare protoOk).encodedLength = 55 := by decide
    cases hnone
    exact hawaits.read_iff hfinal hlast (List.ne_nil_of_length_pos (by omega))
      (by rw [hlength, hlen]; decide) hread

/-! ## A read that goes beyond the last message -/

/-- A decoder for the messages of the first sample node, which are told apart by their first byte. The
last one has the length of an encoded `ok`. -/
def sampleDecode : Parse UInt8 Message :=
  .byte fun
    | 0 => .full 54 fun _ => .done (.bare protoOk)
    | 1 => .done (headerMessage sampleCodec (sampleHeader 1))
    | 2 => .done (capMessage ⟨[]⟩)
    | 3 => .done (sigMessage (Prims.sample.edSign (sampleKey 1) (List.replicate 20 2)))
    | 4 => .done (cookieMessage (List.replicate 20 1))
    | _ => .fail

/-- The messages before the last one, each in one piece. -/
def sampleTurns : List (List Bytes) := [[[1]], [[2]], [[3]], [List.replicate 55 0], [[4]]]

theorem encodes_sampleTurns : ∀ turn ∈ sampleTurns, ∃ m, Encodes sampleDecode turn.flatten m := by
  simp only [sampleTurns, List.forall_mem_cons]
  exact ⟨⟨_, rfl⟩, ⟨_, rfl⟩, ⟨_, rfl⟩, ⟨.bare protoOk, rfl⟩, ⟨_, rfl⟩, by simp⟩

theorem encodes_sampleFinal : Encodes sampleDecode (List.replicate 55 0) (.bare protoOk) := rfl

/-- The last message in two pieces, and then two bytes of the session, which reach it. -/
theorem connectServer_sample :
    connectServer (serverHandshake .sample sampleCodec sampleDecode (sampleParty 2 ⟨[]⟩)
      (sampleTurns.flatten ++ [List.replicate 50 0, List.replicate 5 0, [7, 8]])).2 = [7, 8] := by
  have hopen : (serverHandshake .sample sampleCodec sampleDecode (sampleParty 2 ⟨[]⟩)
      (sampleTurns.flatten ++ [List.replicate 50 0, List.replicate 5 0, [7, 8]])).1 =
        .ok (sampleHeader 1, ⟨[]⟩) := by
    decide +kernel
  exact (connectServer_iff rfl encodes_sampleTurns encodes_sampleFinal (by decide) rfl hopen).mpr
    ⟨[List.replicate 50 0, List.replicate 5 0], [[7, 8]], rfl, rfl⟩

/-- One read gives the last message and the two bytes. The listener returns from the handshake, and the
session is given nothing. -/
theorem joined_read_loses_bytes :
    (serverHandshake .sample sampleCodec sampleDecode (sampleParty 2 ⟨[]⟩)
        (sampleTurns.flatten ++ [List.replicate 55 0 ++ [7, 8]])).1 = .ok (sampleHeader 1, ⟨[]⟩) ∧
      connectServer (serverHandshake .sample sampleCodec sampleDecode (sampleParty 2 ⟨[]⟩)
        (sampleTurns.flatten ++ [List.replicate 55 0 ++ [7, 8]])).2 = [] := by
  decide +kernel

end Zif.Proto
