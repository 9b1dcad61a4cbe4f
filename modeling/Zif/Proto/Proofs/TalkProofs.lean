import Zif.Lib.Proofs.SessionProofs
import Zif.Proto.Handshake

/-!
# Proofs: programs that return

For a program that talks over a connection, `Returns` says that it returns a value, given how its reads
are answered. There is one rule for each way of building such a program; with them a do block becomes the
list of what it takes for the block to be run to its end.
-/

namespace Proc

variable {M α β σ : Type} {answer : σ → Option M × σ}

theorem runWith_bind (p : Proc M α) (f : α → Proc M β) (c : Bool) (s : σ) :
    (p.bind f).runWith answer c s =
      (f (p.runWith answer c s).1).runWith answer (p.runWith answer c s).2.1
        (p.runWith answer c s).2.2 := by
  induction p generalizing c s with
  | done a => rfl
  | read next ih => cases c <;> exact ih _ _ _
  | write m next ih => exact ih _ _ _
  | close next ih => exact ih _ _

end Proc

namespace Zif.Proto

open Go Dht

variable {P : Prims} {codec : Codec} {α β σ : Type} {answer : σ → Option Message × σ} {c c' : Bool} {s s' : σ}

namespace Talk

/-- The program returns `a`. Whether the end is closed, and the state of the answers, before and after. -/
def Returns (answer : σ → Option Message × σ) (t : Talk α) (c : Bool) (s : σ) (a : α) (c' : Bool)
    (s' : σ) : Prop :=
  t.run.runWith answer c s = (.ok a, c', s')

@[simp] theorem returns_bind {t : Talk α} {f : α → Talk β} {b : β} :
    Returns answer (t >>= f) c s b c' s' ↔
      ∃ a c₁ s₁, Returns answer t c s a c₁ s₁ ∧ Returns answer (f a) c₁ s₁ b c' s' := by
  unfold Returns
  show (Proc.bind t.run (ExceptT.bindCont f)).runWith answer c s = _ ↔ _
  rw [Proc.runWith_bind]
  obtain ⟨r, c₁, s₁⟩ := t.run.runWith answer c s
  cases r with
  | error e =>
    constructor
    · intro h
      injection h with h
      cases h
    · rintro ⟨a, c₂, s₂, h, -⟩
      injection h with h
      cases h
  | ok a =>
    constructor
    · exact fun h => ⟨a, c₁, s₁, rfl, h⟩
    · rintro ⟨a', c₂, s₂, h, h'⟩
      cases h
      exact h'

@[simp] theorem returns_pure {a b : α} :
    Returns answer (pure a) c s b c' s' ↔ a = b ∧ c = c' ∧ s = s' := by
  show (Except.ok a, c, s) = (Except.ok b, c', s') ↔ _
  simp

@[simp] theorem returns_throw {f : Fault} {a : α} :
    ¬ Returns answer (throw f : Talk α) c s a c' s' := by
  intro h
  have h' : ((Except.error f : Result α), c, s) = (Except.ok a, c', s') := h
  injection h' with h'
  cases h'

/-- `if !b { return err }`. -/
theorem returns_unless {b : Bool} {t t' : Talk α} {a : α} (h : ¬ Returns answer t c s a c' s') :
    Returns answer (if !b then t else t') c s a c' s' ↔ b = true ∧ Returns answer t' c s a c' s' := by
  cases b <;> simp [h]

@[simp] theorem returns_lift {r : Result α} {a : α} :
    Returns answer (lift r) c s a c' s' ↔ r = .ok a ∧ c = c' ∧ s = s' := by
  show (r, c, s) = (Except.ok a, c', s') ↔ _
  simp

@[simp] theorem returns_readMessage {m : Message} :
    Returns answer (readMessage codec) c s m c' s' ↔
      c = false ∧ c' = false ∧ answer s = (some m, s') ∧ reads codec m = true := by
  cases c with
  | true =>
    constructor
    · intro h
      have h' : ((Except.error _ : Result Message), _, _) = (Except.ok m, c', s') := h
      injection h' with h'
      cases h'
    · rintro ⟨h, -⟩
      cases h
  | false =>
    show (readResult codec (answer s).1, false, (answer s).2) = (Except.ok m, c', s') ↔ _
    obtain ⟨r, s₁⟩ := answer s
    cases r with
    | none => simp [readResult]
    | some m' =>
      simp only [readResult]
      split_ifs with h
      · simp only [Prod.mk.injEq, Except.ok.injEq, Option.some.injEq, true_and]
        constructor
        · rintro ⟨rfl, rfl, rfl⟩
          exact ⟨rfl, ⟨rfl, rfl⟩, h⟩
        · rintro ⟨rfl, ⟨rfl, rfl⟩, -⟩
          exact ⟨rfl, rfl, rfl⟩
      · simp only [Prod.mk.injEq, reduceCtorEq, false_and, Option.some.injEq, true_and, false_iff]
        rintro ⟨-, ⟨rfl, -⟩, h'⟩
        exact h h'

@[simp] theorem returns_writeMessage {m : Message} {a : Unit} :
    Returns answer (writeMessage m) c s a c' s' ↔ c = false ∧ c' = false ∧ s = s' := by
  cases c with
  | true =>
    constructor
    · intro h
      have h' : ((Except.error _ : Result Unit), _, _) = (Except.ok a, c', s') := h
      injection h' with h'
      cases h'
    · rintro ⟨h, -⟩
      cases h
  | false =>
    show ((Except.ok () : Result Unit), false, s) = (Except.ok a, c', s') ↔ _
    simp [eq_comm]

@[simp] theorem returns_writeDropping {m : Message} {a : Unit} :
    Returns answer (writeDropping m) c s a c' s' ↔ c = c' ∧ s = s' := by
  show ((Except.ok () : Result Unit), c, s) = (Except.ok a, c', s') ↔ _
  simp

@[simp] theorem returns_onError {t : Talk α} {handle : Talk Unit} {a : α} :
    Returns answer (t.onError handle) c s a c' s' ↔ Returns answer t c s a c' s' := by
  unfold Returns onError
  show (Proc.bind t.run _).runWith answer c s = _ ↔ _
  rw [Proc.runWith_bind]
  obtain ⟨r, c₁, s₁⟩ := t.run.runWith answer c s
  rcases r with (err | _) | b
  · simp only [Proc.runWith_bind]
    constructor
    · intro h
      have h' : ((Except.error (.error err) : Result α), _, _) = (Except.ok a, c', s') := h
      injection h' with h'
      cases h'
    · intro h
      injection h with h
      cases h
  · exact Iff.rfl
  · exact Iff.rfl

@[simp] theorem returns_refusing {t : Talk α} {a : α} :
    Returns answer t.refusing c s a c' s' ↔ Returns answer t c s a c' s' := returns_onError

@[simp] theorem returns_checked {t : Talk α} {a : α} :
    Returns answer t.checked c s a c' s' ↔ Returns answer t c s a c' s' := returns_onError

/-! ### The statements of a do block

What the rest of a block is run with, after a statement on an end that is open. -/

theorem returns_lift_bind {r : Result α} {f : α → Talk β} {b : β} :
    Returns answer (lift r >>= f) c s b c' s' ↔ ∃ a, r = .ok a ∧ Returns answer (f a) c s b c' s' := by
  rw [returns_bind]
  constructor
  · rintro ⟨a, c₁, s₁, h, hrest⟩
    obtain ⟨hr, rfl, rfl⟩ := returns_lift.mp h
    exact ⟨a, hr, hrest⟩
  · rintro ⟨a, hr, hrest⟩
    exact ⟨a, c, s, returns_lift.mpr ⟨hr, rfl, rfl⟩, hrest⟩

theorem returns_readMessage_bind {f : Message → Talk β} {b : β} :
    Returns answer (readMessage codec >>= f) false s b c' s' ↔ ∃ m s₁, answer s = (some m, s₁) ∧
      reads codec m = true ∧ Returns answer (f m) false s₁ b c' s' := by
  rw [returns_bind]
  constructor
  · rintro ⟨m, c₁, s₁, h, hrest⟩
    obtain ⟨-, rfl, hanswer, hreads⟩ := returns_readMessage.mp h
    exact ⟨m, s₁, hanswer, hreads, hrest⟩
  · rintro ⟨m, s₁, hanswer, hreads, hrest⟩
    exact ⟨m, false, s₁, returns_readMessage.mpr ⟨rfl, rfl, hanswer, hreads⟩, hrest⟩

theorem returns_writeMessage_bind {m : Message} {f : Unit → Talk β} {b : β} :
    Returns answer (writeMessage m >>= f) false s b c' s' ↔ Returns answer (f ()) false s b c' s' := by
  rw [returns_bind]
  constructor
  · rintro ⟨_, c₁, s₁, h, hrest⟩
    obtain ⟨-, rfl, rfl⟩ := returns_writeMessage.mp h
    exact hrest
  · intro hrest
    exact ⟨(), false, s, returns_writeMessage.mpr ⟨rfl, rfl, rfl⟩, hrest⟩

theorem returns_writeDropping_bind {m : Message} {f : Unit → Talk β} {b : β} :
    Returns answer (writeDropping m >>= f) c s b c' s' ↔ Returns answer (f ()) c s b c' s' := by
  rw [returns_bind]
  constructor
  · rintro ⟨_, c₁, s₁, h, hrest⟩
    obtain ⟨rfl, rfl⟩ := returns_writeDropping.mp h
    exact hrest
  · intro hrest
    exact ⟨(), c, s, returns_writeDropping.mpr ⟨rfl, rfl⟩, hrest⟩

theorem returns_refusing_bind {t : Talk α} {f : α → Talk β} {b : β} :
    Returns answer (t.refusing >>= f) c s b c' s' ↔ Returns answer (t >>= f) c s b c' s' := by
  simp only [returns_bind, returns_refusing]

theorem returns_checked_bind {t : Talk α} {f : α → Talk β} {b : β} :
    Returns answer (t.checked >>= f) c s b c' s' ↔ Returns answer (t >>= f) c s b c' s' := by
  simp only [returns_bind, returns_checked]

end Talk

open Talk

/-! ## The two halves -/

/-- Three messages make `handshake_recieve` accept the entry. -/
structure Introduces (P : Prims) (codec : Codec) (cookie : Option Bytes) (header caps sig : Message)
    (e : Entry) : Prop where
  readsHeader : reads codec header = true
  readEntry : header.readEntry = .ok e
  valid : e.verify P = .ok ()
  readsCaps : reads codec caps = true
  readsSig : reads codec sig = true
  signed : ∃ k ∈ cookie, P.ed25519Verify e.publicKey k (sig.readArray signatureSize) = .ok true

theorem returns_handshakeRecieve {cookie : Option Bytes} {e : Entry} {caps : Capabilities} :
    Returns answer (handshakeRecieve P codec cookie) false s (e, caps) c' s' ↔
      c' = false ∧ ∃ header s₁ msg s₂ sig, answer s = (some header, s₁) ∧ answer s₁ = (some msg, s₂) ∧
        answer s₂ = (some sig, s') ∧ Introduces P codec cookie header msg sig e ∧
        msg.readCapabilities = caps := by
  unfold handshakeRecieve
  simp only [returns_refusing_bind, returns_checked_bind, returns_readMessage_bind, returns_lift_bind,
    returns_writeMessage_bind]
  constructor
  · rintro ⟨header, s₁, hheader, hreads, e', hentry, _, hvalid, msg, s₂, hmsg, hreads', k, hcookie, sig,
      s₃, hsig, hreads'', verified, hverify, hend⟩
    cases verified with
    | false => simp at hend
    | true =>
      simp only [if_true, returns_writeDropping_bind, returns_pure, Prod.mk.injEq] at hend
      obtain ⟨⟨rfl, hcaps⟩, rfl, rfl⟩ := hend
      refine ⟨rfl, header, s₁, msg, s₂, sig, hheader, hmsg, hsig,
        ⟨hreads, hentry, hvalid, hreads', hreads'', k, ?_, hverify⟩, hcaps⟩
      cases cookie with
      | none => cases hcookie
      | some k' =>
        cases hcookie
        exact rfl
  · rintro ⟨rfl, header, s₁, msg, s₂, sig, hheader, hmsg, hsig, ⟨hreads, hentry, hvalid, hreads', hreads'',
      k, hk, hverify⟩, rfl⟩
    refine ⟨header, s₁, hheader, hreads, e, hentry, (), hvalid, msg, s₂, hmsg, hreads', k,
      by rw [Option.mem_def.mp hk]; rfl, sig, s', hsig, hreads'', true, hverify, ?_⟩
    simp

/-- Three messages make `handshake_send` return without an error. -/
structure Acknowledges (codec : Codec) (header cookie sig : Message) : Prop where
  readsHeader : reads codec header = true
  headerOk : header.ok = true
  readsCookie : reads codec cookie = true
  readsSig : reads codec sig = true
  sigOk : sig.ok = true

theorem returns_handshakeSend {sender : Party} :
    Returns answer (handshakeSend P codec sender) false s () c' s' ↔
      c' = false ∧ ∃ m₁ s₁ m₂ s₂ m₃, answer s = (some m₁, s₁) ∧ answer s₁ = (some m₂, s₂) ∧
        answer s₂ = (some m₃, s') ∧ Acknowledges codec m₁ m₂ m₃ := by
  unfold handshakeSend
  simp only [returns_readMessage_bind, returns_writeMessage_bind]
  constructor
  · rintro ⟨m₁, s₁, h₁, hr₁, h⟩
    obtain ⟨hok₁, h⟩ := (returns_unless (by simp)).mp h
    simp only [returns_readMessage_bind, returns_writeMessage_bind] at h
    obtain ⟨m₂, s₂, h₂, hr₂, m₃, s₃, h₃, hr₃, h⟩ := h
    obtain ⟨hok₃, h⟩ := (returns_unless (by simp)).mp h
    obtain ⟨-, rfl, rfl⟩ := returns_pure.mp h
    exact ⟨rfl, m₁, s₁, m₂, s₂, m₃, h₁, h₂, h₃, hr₁, hok₁, hr₂, hr₃, hok₃⟩
  · rintro ⟨rfl, m₁, s₁, m₂, s₂, m₃, h₁, h₂, h₃, hr₁, hok₁, hr₂, hr₃, hok₃⟩
    refine ⟨m₁, s₁, h₁, hr₁, (returns_unless (by simp)).mpr ⟨hok₁, ?_⟩⟩
    simp only [returns_readMessage_bind, returns_writeMessage_bind]
    exact ⟨m₂, s₂, h₂, hr₂, m₃, s', h₃, hr₃,
      (returns_unless (by simp)).mpr ⟨hok₃, returns_pure.mpr ⟨rfl, rfl, rfl⟩⟩⟩

/-- `handshake` returns when three messages introduce the other side, and three more acknowledge this
one. -/
theorem returns_handshake {self : Party} {e : Entry} {caps : Capabilities} :
    Returns answer (handshake P codec self) false s (e, caps) c' s' ↔
      ∃ s₁, Returns answer (handshakeRecieve P codec self.cookie) false s (e, caps) false s₁ ∧
        Returns answer (handshakeSend P codec self) false s₁ () c' s' := by
  have hrec : ∀ r c₁ s₁, (handshakeRecieve P codec self.cookie).run.runWith answer false s = (r, c₁, s₁) →
      (Returns answer (handshake P codec self) false s (e, caps) c' s' ↔
        r = .ok (e, caps) ∧ Returns answer (handshakeSend P codec self) c₁ s₁ () c' s') := by
    intro r c₁ s₁ h
    unfold handshake Returns
    show (Proc.bind _ _).runWith answer false s = _ ↔ _
    rw [Proc.runWith_bind, h]
    rcases r with f | ⟨e', caps'⟩
    · simp [Proc.runWith_bind, Proc.runWith]
    · show Returns answer (do
          writeDropping (.bare protoOk)
          handshakeSend P codec self
          return (e', caps')) c₁ s₁ (e, caps) c' s' ↔ _
      rw [returns_writeDropping_bind, returns_bind]
      simp only [returns_pure]
      constructor
      · rintro ⟨_, _, _, hsend, heq, rfl, rfl⟩
        exact ⟨congrArg Except.ok heq, hsend⟩
      · rintro ⟨heq, hsend⟩
        cases heq
        exact ⟨(), _, _, hsend, rfl, rfl, rfl⟩
  constructor
  · intro h
    obtain ⟨r, c₁, s₁, hr⟩ : ∃ r c₁ s₁,
        (handshakeRecieve P codec self.cookie).run.runWith answer false s = (r, c₁, s₁) :=
      ⟨_, _, _, rfl⟩
    obtain ⟨rfl, hsend⟩ := (hrec r c₁ s₁ hr).mp h
    obtain ⟨rfl, -⟩ := returns_handshakeRecieve.mp hr
    exact ⟨s₁, hr, hsend⟩
  · rintro ⟨s₁, hr, hsend⟩
    exact (hrec _ _ _ hr).mpr ⟨rfl, hsend⟩

end Zif.Proto
