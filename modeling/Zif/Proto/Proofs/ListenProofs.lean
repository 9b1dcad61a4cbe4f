import Zif.Proto.Listen
import Zif.Lib.Proofs.RunsProofs

/-!
# Proofs: accepting connections

The invariant says of each connection how far it was read, and of those that the loop is done with that
nothing that comes later can change what was decided. From it: the handshakes are begun in the order of the
connections, on those that are accepted and on no other (`handshakes_in_order`), and a connection on which
too little comes holds up all that come after it (`gets_past_iff`).
-/

namespace Zif.Proto.Listen

open Go

/-! ## Two bytes -/

theorem int16_eq_iff {lo hi lo' hi' : UInt8} : int16 lo hi = int16 lo' hi' ↔ [lo, hi] = [lo', hi'] := by
  have hlo := lo.toNat_lt
  have hhi := hi.toNat_lt
  have hlo' := lo'.toNat_lt
  have hhi' := hi'.toNat_lt
  have hn : (int16 lo hi).toNat = lo.toNat + 256 * hi.toNat := by
    rw [int16, UInt16.toNat_ofNat']
    omega
  have hn' : (int16 lo' hi').toNat = lo'.toNat + 256 * hi'.toNat := by
    rw [int16, UInt16.toNat_ofNat']
    omega
  rw [← UInt16.toNat_inj, hn, hn', List.cons.injEq, List.cons.injEq, ← UInt8.toNat_inj, ← UInt8.toNat_inj]
  constructor
  · intro h
    exact ⟨by omega, by omega, rfl⟩
  · rintro ⟨h1, h2, -⟩
    omega

theorem int16_eq_protoZif {lo hi : UInt8} : int16 lo hi = protoZif ↔ [lo, hi] = writeInt16 protoZif :=
  @int16_eq_iff lo hi 0x66 0x7a

theorem int16_eq_protoVersion {lo hi : UInt8} :
    int16 lo hi = protoVersion ↔ [lo, hi] = writeInt16 protoVersion :=
  @int16_eq_iff lo hi 0 0

/-! ## What comes on a connection -/

namespace Conn

/-- What `c` can have become: more may have come, unless it was closed. -/
structure Grows (c c' : Conn) : Prop where
  sent : c.sent <+: c'.sent
  closed : c.closed = true → c'.closed = true ∧ c'.sent = c.sent

theorem Grows.refl (c : Conn) : c.Grows c := ⟨List.prefix_rfl, fun h => ⟨h, rfl⟩⟩

theorem grows_send (b : Bytes) (c : Conn) : c.Grows (c.send b) := by
  unfold send
  by_cases hc : c.closed = true
  · rw [if_pos hc]
    exact .refl c
  · rw [if_neg hc]
    exact ⟨List.prefix_append _ _, fun h => absurd h hc⟩

theorem grows_close (c : Conn) : c.Grows c.close := ⟨List.prefix_rfl, fun _ => ⟨rfl, rfl⟩⟩

theorem taken_send (b : Bytes) (c : Conn) : (c.send b).taken = c.taken := by
  unfold send
  split <;> rfl

variable {c c' : Conn}

theorem accepted_iff : c.accepted = true ↔ c.sent.take 2 = writeInt16 protoZif ∧
    (4 ≤ c.sent.length → (c.sent.drop 2).take 2 = writeInt16 protoVersion) :=
  decide_eq_true_iff

theorem not_accepted (h : c.sent.take 2 ≠ writeInt16 protoZif) : c.accepted ≠ true :=
  fun ha => h (accepted_iff.mp ha).1

theorem Grows.take (h : c.Grows c') {n : Nat} (hn : n ≤ c.sent.length) : c'.sent.take n = c.sent.take n := by
  obtain ⟨more, hmore⟩ := h.sent
  rw [← hmore, List.take_append_of_le_length hn]

/-- What is settled stays settled. -/
theorem Settled.grows (hs : c.Settled) (h : c.Grows c') : c'.Settled := by
  have hlen := h.sent.length_le
  rcases hs with hc | hl | ⟨hl, hne⟩
  · exact .inl (h.closed hc).1
  · exact .inr (.inl (hl.trans hlen))
  · exact .inr (.inr ⟨hl.trans hlen, by rwa [h.take hl]⟩)

/-- What comes after a connection is settled does not change what it is taken for. -/
theorem Settled.accepted_eq (hs : c.Settled) (h : c.Grows c') : c'.accepted = c.accepted := by
  have hlen := h.sent.length_le
  rcases hs with hc | hl | ⟨hl, hne⟩
  · simp only [accepted, (h.closed hc).2]
  · have h2 : (c'.sent.drop 2).take 2 = (c.sent.drop 2).take 2 := by
      rw [List.take_drop, List.take_drop, h.take hl]
    simp only [accepted, h.take (n := 2) (by omega), h2, hl, hl.trans hlen]
  · simp only [accepted, h.take hl, hne, false_and, decide_false]

/-- Both read counts are all there is to read, up to four bytes. -/
theorem Settled.min_eq (hs : c.Settled) (ha : c.accepted = true) (h : c.Grows c') :
    min 4 c'.sent.length = min 4 c.sent.length := by
  have hlen := h.sent.length_le
  rcases hs with hc | hl | ⟨hl, hne⟩
  · rw [(h.closed hc).2]
  · omega
  · exact absurd ha (not_accepted hne)

theorem settled_iff_of_eq (hs : c'.sent = c.sent) (hc : c'.closed = c.closed) : c'.Settled ↔ c.Settled := by
  unfold Settled
  rw [hs, hc]

/-! ## Reading -/

/-- A read waits, finds two bytes, or finds the end of the connection. -/
inductive Reads (c : Conn) : Option (UInt16 × Conn) → Prop
  | waits (hc : c.closed = false) (hlen : c.sent.length < c.taken + 2) : Reads c none
  | bytes (lo hi : UInt8) (hlen : c.taken + 2 ≤ c.sent.length)
      (heq : (c.sent.drop c.taken).take 2 = [lo, hi]) :
      Reads c (some (int16 lo hi, { c with taken := c.taken + 2 }))
  | ends (hc : c.closed = true) (hlen : c.sent.length < c.taken + 2) :
      Reads c (some (0, { c with taken := c.taken + (c.sent.length - c.taken) }))

theorem reads_readInt16 (c : Conn) : c.Reads c.readInt16 := by
  have hdrop : (c.sent.drop c.taken).length = c.sent.length - c.taken := List.length_drop
  unfold readInt16
  split
  next lo hi rest heq =>
    rw [heq] at hdrop
    simp only [List.length_cons] at hdrop
    exact .bytes lo hi (by omega) (by rw [heq]; rfl)
  next rest hrest =>
    have hlen : c.sent.length < c.taken + 2 := by
      rcases hd : c.sent.drop c.taken with _ | ⟨lo, _ | ⟨hi, more⟩⟩
      · rw [hd] at hdrop
        simp only [List.length_nil] at hdrop
        omega
      · rw [hd] at hdrop
        simp only [List.length_cons, List.length_nil] at hdrop
        omega
      · exact absurd hd (hrest lo hi more)
    by_cases hc : c.closed = true
    · rw [if_pos hc, hdrop]
      exact .ends hc hlen
    · rw [if_neg hc]
      exact .waits (by simpa using hc) hlen

end Conn

/-! ## The invariant -/

namespace State

/-- What is known of connection `j`. -/
structure Fine (s : State) (j : Nat) (c : Conn) : Prop where
  settled : j < s.done → c.Settled
  taken : j < s.done → c.accepted = true → c.taken = min 4 c.sent.length
  waiting : s.done ≤ j → s.stage ≠ .version j → c.taken = 0
  version : s.stage = .version j → c.taken = 2 ∧ 2 ≤ c.sent.length ∧ c.sent.take 2 = writeInt16 protoZif

/-- The connection that is read from was the last to be accepted. -/
def AtLast (s : State) : Prop :=
  match s.stage with
  | .accepting => s.count ≤ s.conns.length
  | .zif i | .version i => s.count = i + 1 ∧ i < s.conns.length

/-- What holds in every state of the loop. -/
structure Inv (s : State) : Prop where
  last : s.AtLast
  fine : ∀ j c, s.conns[j]? = some c → s.Fine j c
  handshakes : s.handshakes = (List.range s.done).filter s.accepts

variable {s : State}

theorem inv_start : start.Inv := ⟨Nat.le_refl 0, fun j c h => by simp [start] at h, rfl⟩

theorem Inv.done_le (h : s.Inv) : s.done ≤ s.conns.length := by
  have hlast := h.last
  unfold AtLast at hlast
  unfold done
  cases hstage : s.stage with
  | accepting =>
    rw [hstage] at hlast
    exact hlast
  | zif i =>
    rw [hstage] at hlast
    exact hlast.2.le
  | version i =>
    rw [hstage] at hlast
    exact hlast.2.le

theorem accepts_of_getElem? {j : Nat} {c : Conn} (h : s.conns[j]? = some c) : s.accepts j = c.accepted := by
  simp [accepts, h]

/-- Something comes on the connections, or a new one comes in. -/
theorem Inv.comes (h : s.Inv) (conns : List Conn) (hlen : s.conns.length ≤ conns.length)
    (hold : ∀ (j : Nat) (c : Conn), s.conns[j]? = some c →
      ∃ c', conns[j]? = some c' ∧ c.Grows c' ∧ c'.taken = c.taken)
    (hnew : ∀ (j : Nat) (c : Conn), s.conns.length ≤ j → conns[j]? = some c → c.taken = 0) :
    Inv { s with conns := conns } := by
  refine ⟨?_, ?_, ?_⟩
  · have hlast := h.last
    unfold AtLast at hlast ⊢
    split at hlast
    next heq =>
      rw [heq]
      exact hlast.trans hlen
    next heq =>
      rw [heq]
      exact ⟨hlast.1, hlast.2.trans_le hlen⟩
    next heq =>
      rw [heq]
      exact ⟨hlast.1, hlast.2.trans_le hlen⟩
  · intro j c' hc'
    by_cases hj : j < s.conns.length
    · obtain ⟨c, hc⟩ : ∃ c, s.conns[j]? = some c := ⟨_, List.getElem?_eq_getElem hj⟩
      obtain ⟨c'', hc'', hgrows, htaken⟩ := hold j c hc
      obtain rfl : c'' = c' := Option.some.inj (hc''.symm.trans hc')
      have hfine := h.fine j c hc
      refine ⟨fun hd => (hfine.settled hd).grows hgrows, fun hd ha => ?_, fun hd hv => ?_, fun hv => ?_⟩
      · have hs := hfine.settled hd
        rw [hs.accepted_eq hgrows] at ha
        rw [htaken, hfine.taken hd ha, hs.min_eq ha hgrows]
      · rw [htaken, hfine.waiting hd hv]
      · obtain ⟨h1, h2, h3⟩ := hfine.version hv
        exact ⟨htaken.trans h1, h2.trans hgrows.sent.length_le, by rw [hgrows.take h2, h3]⟩
    · have hj : s.conns.length ≤ j := Nat.le_of_not_lt hj
      have hdone : s.done ≤ j := h.done_le.trans hj
      have hversion : s.stage ≠ .version j := by
        intro hv
        have hlast := h.last
        rw [AtLast, hv] at hlast
        exact absurd hlast.2 (Nat.not_lt.mpr hj)
      exact ⟨fun hd => absurd hd (Nat.not_lt.mpr hdone), fun hd => absurd hd (Nat.not_lt.mpr hdone),
        fun _ _ => hnew j c' hj hc', fun hv => absurd hv hversion⟩
  · refine h.handshakes.trans (List.filter_congr fun j hj => ?_)
    have hj : j < s.done := List.mem_range.mp hj
    obtain ⟨c, hc⟩ : ∃ c, s.conns[j]? = some c := ⟨_, List.getElem?_eq_getElem (hj.trans_le h.done_le)⟩
    obtain ⟨c', hc', hgrows, -⟩ := hold j c hc
    have hc'' : ({ s with conns := conns } : State).conns[j]? = some c' := hc'
    rw [accepts_of_getElem? hc, accepts_of_getElem? hc'', ((h.fine j c hc).settled hj).accepted_eq hgrows]

theorem Inv.modify (h : s.Inv) (i : Nat) (f : Conn → Conn) (hf : ∀ c : Conn, c.Grows (f c))
    (htaken : ∀ c, (f c).taken = c.taken) : Inv { s with conns := s.conns.modify i f } := by
  apply h.comes
  · simp
  · intro j c hc
    rw [List.getElem?_modify, hc]
    by_cases hij : i = j
    · exact ⟨f c, by simp [hij], hf c, htaken c⟩
    · exact ⟨c, by simp [hij], .refl c, rfl⟩
  · intro j c hj hc
    have hlt := (List.getElem?_eq_some_iff.mp hc).1
    simp only [List.length_modify] at hlt
    omega

theorem Inv.connect (h : s.Inv) : Inv { s with conns := s.conns ++ [.new] } := by
  apply h.comes
  · simp
  · intro j c hc
    have hj := (List.getElem?_eq_some_iff.mp hc).1
    exact ⟨c, by rw [List.getElem?_append_left hj, hc], .refl c, rfl⟩
  · intro j c hj hc
    rw [List.getElem?_append_right hj] at hc
    have hmem := List.mem_of_getElem? hc
    rw [List.mem_singleton.mp hmem]
    rfl

/-! ## A step of the loop -/

/-- What a step of the loop can do. -/
inductive Loops (s : State) : State → Prop
  | idle (hstage : s.stage = .accepting) (hnone : s.conns.length ≤ s.count) : Loops s s
  | waits (c : Conn) (hc : s.conns[s.done]? = some c) (hopen : ¬ c.Settled) : Loops s s
  | accepts (hstage : s.stage = .accepting) (hsome : s.count < s.conns.length) :
      Loops s { s with count := s.count + 1, stage := .zif s.count }
  | goesOn (i : Nat) (c : Conn) (hstage : s.stage = .zif i) (hc : s.conns[i]? = some c)
      (hlen : 2 ≤ c.sent.length) (hzif : c.sent.take 2 = writeInt16 protoZif) :
      Loops s { s with conns := s.conns.set i { c with taken := 2 }, stage := .version i }
  | decides (i n : Nat) (c : Conn) (hstage : s.stage = .zif i ∨ s.stage = .version i)
      (hc : s.conns[i]? = some c) (hset : c.Settled) (hn : c.accepted = true → n = min 4 c.sent.length) :
      Loops s { s with
        conns := s.conns.set i { c with taken := n }
        stage := .accepting
        handshakes := s.handshakes ++ if c.accepted = true then [i] else [] }

theorem Inv.last_of_stage (h : s.Inv) {i : Nat} (hstage : s.stage = .zif i ∨ s.stage = .version i) :
    s.count = i + 1 ∧ i < s.conns.length := by
  have hlast := h.last
  unfold AtLast at hlast
  rcases hstage with hstage | hstage
  · rw [hstage] at hlast
    exact hlast
  · rw [hstage] at hlast
    exact hlast

theorem Inv.exists_conn (h : s.Inv) {i : Nat} (hstage : s.stage = .zif i ∨ s.stage = .version i) :
    ∃ c, s.conns[i]? = some c :=
  ⟨_, List.getElem?_eq_getElem (h.last_of_stage hstage).2⟩

/-- The protocol is read from connection `i`. -/
theorem Inv.loops_zif (h : s.Inv) {i : Nat} (hstage : s.stage = .zif i) : Loops s s.loop := by
  obtain ⟨c, hc⟩ := h.exists_conn (.inl hstage)
  have hdone : s.done = i := by rw [done, hstage]
  have htaken : c.taken = 0 := (h.fine i c hc).waiting hdone.le (by rw [hstage]; exact Stage.noConfusion)
  have hloop : s.loop = s.read i fun v s =>
      { s with stage := if v = protoZif then .version i else .accepting } := by
    rw [loop, hstage]
  have hreads := c.reads_readInt16
  simp only [hloop, read, hc]
  generalize c.readInt16 = r at hreads ⊢
  cases hreads with
  | waits hopen hlen =>
    refine .waits c (by rw [hdone, hc]) ?_
    rintro (hclosed | hlong | ⟨hlong, -⟩)
    · rw [hopen] at hclosed
      exact Bool.noConfusion hclosed
    · omega
    · omega
  | bytes lo hi hlen heq =>
    rw [htaken] at hlen heq ⊢
    rw [List.drop_zero] at heq
    by_cases hv : int16 lo hi = protoZif
    · simp only [if_pos hv]
      exact .goesOn i c hstage hc (by omega) (by rw [heq, ← int16_eq_protoZif.mp hv])
    · have hne : c.sent.take 2 ≠ writeInt16 protoZif := by
        rw [heq]
        exact fun heq => hv (int16_eq_protoZif.mpr heq)
      have hno : c.accepted ≠ true := Conn.not_accepted hne
      have := Loops.decides i 2 c (.inl hstage) hc (.inr (.inr ⟨by omega, hne⟩)) fun ha => absurd ha hno
      rw [if_neg hno, List.append_nil] at this
      simp only [if_neg hv]
      exact this
  | ends hclosed hlen =>
    have hne : c.sent.take 2 ≠ writeInt16 protoZif := by
      intro heq
      have := congrArg List.length heq
      rw [List.length_take] at this
      simp only [writeInt16, List.length_cons, List.length_nil] at this
      omega
    have hno : c.accepted ≠ true := Conn.not_accepted hne
    have := Loops.decides i (c.taken + (c.sent.length - c.taken)) c (.inl hstage) hc (.inl hclosed)
      fun ha => absurd ha hno
    rw [if_neg hno, List.append_nil] at this
    exact this

/-- The version is read from connection `i`. -/
theorem Inv.loops_version (h : s.Inv) {i : Nat} (hstage : s.stage = .version i) : Loops s s.loop := by
  obtain ⟨c, hc⟩ := h.exists_conn (.inr hstage)
  have hdone : s.done = i := by rw [done, hstage]
  obtain ⟨htaken, h2, hzif⟩ := (h.fine i c hc).version hstage
  have hloop : s.loop = s.read i fun v s =>
      if v = protoVersion then { s with stage := .accepting, handshakes := s.handshakes ++ [i] }
      else { s with stage := .accepting } := by
    rw [loop, hstage]
  have hreads := c.reads_readInt16
  simp only [hloop, read, hc]
  generalize c.readInt16 = r at hreads ⊢
  cases hreads with
  | waits hopen hlen =>
    refine .waits c (by rw [hdone, hc]) ?_
    rintro (hclosed | hlong | ⟨-, hne⟩)
    · rw [hopen] at hclosed
      exact Bool.noConfusion hclosed
    · omega
    · exact hne hzif
  | bytes lo hi hlen heq =>
    rw [htaken] at hlen heq ⊢
    by_cases hv : int16 lo hi = protoVersion
    · have hyes : c.accepted = true := by
        rw [Conn.accepted_iff]
        exact ⟨hzif, fun _ => by rw [heq, ← int16_eq_protoVersion.mp hv]⟩
      have := Loops.decides i 4 c (.inr hstage) hc (.inr (.inl hlen)) fun _ => by omega
      rw [if_pos hyes] at this
      simp only [if_pos hv]
      exact this
    · have hno : c.accepted ≠ true := by
        intro ha
        have := (Conn.accepted_iff.mp ha).2 hlen
        rw [heq] at this
        exact hv (int16_eq_protoVersion.mpr this)
      have := Loops.decides i 4 c (.inr hstage) hc (.inr (.inl hlen)) fun _ => by omega
      rw [if_neg hno, List.append_nil] at this
      simp only [if_neg hv]
      exact this
  | ends hclosed hlen =>
    have hyes : c.accepted = true := by
      rw [Conn.accepted_iff]
      exact ⟨hzif, fun hlong => by omega⟩
    have := Loops.decides i (c.taken + (c.sent.length - c.taken)) c (.inr hstage) hc (.inl hclosed)
      fun _ => by omega
    rw [if_pos hyes] at this
    exact this

theorem Inv.loops (h : s.Inv) : Loops s s.loop := by
  cases hstage : s.stage with
  | accepting =>
    rw [loop, hstage]
    by_cases hlt : s.count < s.conns.length
    · rw [if_pos hlt]
      exact .accepts hstage hlt
    · rw [if_neg hlt]
      exact .idle hstage (Nat.le_of_not_lt hlt)
  | zif i => exact h.loops_zif hstage
  | version i => exact h.loops_version hstage

theorem done_of_stage {i : Nat} (hstage : s.stage = .zif i ∨ s.stage = .version i) : s.done = i := by
  rcases hstage with hstage | hstage <;> rw [done, hstage]

/-- The loop goes on with the version. -/
theorem Inv.goesOn (h : s.Inv) {i : Nat} {c : Conn} (hstage : s.stage = .zif i) (hc : s.conns[i]? = some c)
    (hlen : 2 ≤ c.sent.length) (hzif : c.sent.take 2 = writeInt16 protoZif) :
    Inv { s with conns := s.conns.set i { c with taken := 2 }, stage := .version i } := by
  have hdone := done_of_stage (.inl hstage)
  have hi := (List.getElem?_eq_some_iff.mp hc).1
  refine ⟨⟨(h.last_of_stage (.inl hstage)).1, by simpa using hi⟩, fun j d hd => ?_, ?_⟩
  · by_cases hij : i = j
    · subst hij
      obtain rfl : { c with taken := 2 } = d := by simpa [hi] using hd
      exact ⟨fun hlt => absurd hlt (Nat.lt_irrefl i), fun hlt => absurd hlt (Nat.lt_irrefl i),
        fun _ hne => absurd rfl hne, fun _ => ⟨rfl, hlen, hzif⟩⟩
    · have hd : s.conns[j]? = some d := by rwa [List.getElem?_set_ne hij] at hd
      have hfine := h.fine j d hd
      rw [← hdone] at *
      exact ⟨hfine.settled, hfine.taken,
        fun hle _ => hfine.waiting hle (by rw [hstage]; exact Stage.noConfusion),
        fun hv => absurd (Stage.version.inj hv) hij⟩
  · refine h.handshakes.trans ?_
    rw [hdone]
    refine List.filter_congr fun j hj => ?_
    have hij : i ≠ j := (List.mem_range.mp hj).ne'
    simp only [accepts, List.getElem?_set_ne hij]

/-- The loop is done with a connection. -/
theorem Inv.decides (h : s.Inv) {i n : Nat} {c : Conn} (hstage : s.stage = .zif i ∨ s.stage = .version i)
    (hc : s.conns[i]? = some c) (hset : c.Settled) (hn : c.accepted = true → n = min 4 c.sent.length) :
    Inv { s with
      conns := s.conns.set i { c with taken := n }
      stage := .accepting
      handshakes := s.handshakes ++ if c.accepted = true then [i] else [] } := by
  have hdone := done_of_stage hstage
  have hcount := (h.last_of_stage hstage).1
  have hi := (List.getElem?_eq_some_iff.mp hc).1
  refine ⟨?_, fun j d hd => ?_, ?_⟩
  · change s.count ≤ (s.conns.set i _).length
    rw [hcount, List.length_set]
    exact hi
  · by_cases hij : i = j
    · subst hij
      obtain rfl : { c with taken := n } = d := by simpa [hi] using hd
      refine ⟨fun _ => hset, fun _ ha => hn ha, fun hle => ?_, Stage.noConfusion⟩
      change s.count ≤ i at hle
      omega
    · have hd : s.conns[j]? = some d := by rwa [List.getElem?_set_ne hij] at hd
      have hfine := h.fine j d hd
      have hver : s.stage ≠ .version j := by
        intro hv
        exact hij (hdone.symm.trans (done_of_stage (.inr hv)))
      refine ⟨fun hlt => hfine.settled ?_, fun hlt => hfine.taken ?_, fun hle _ => hfine.waiting ?_ hver,
        Stage.noConfusion⟩
      · change j < s.count at hlt
        omega
      · change j < s.count at hlt
        omega
      · change s.count ≤ j at hle
        omega
  · change s.handshakes ++ _ = (List.range s.count).filter _
    rw [hcount, List.range_succ, List.filter_append, h.handshakes, hdone]
    congr 1
    · refine List.filter_congr fun j hj => ?_
      have hij : i ≠ j := (List.mem_range.mp hj).ne'
      simp only [accepts, List.getElem?_set_ne hij]
    · rw [List.filter_singleton, accepts, List.getElem?_set_self hi, Option.any_some,
        Bool.cond_eq_ite]
      rfl

theorem Inv.loop (h : s.Inv) : s.loop.Inv := by
  have hloops := h.loops
  generalize s.loop = s' at hloops
  cases hloops with
  | idle => exact h
  | waits => exact h
  | accepts hstage hsome =>
    have hdone : s.done = s.count := by rw [done, hstage]
    refine ⟨⟨rfl, hsome⟩, fun j c hc => ?_, h.handshakes.trans (by rw [hdone]; rfl)⟩
    have hfine := h.fine j c hc
    rw [← hdone]
    exact ⟨hfine.settled, hfine.taken,
      fun hle _ => hfine.waiting hle (by rw [hstage]; exact Stage.noConfusion), Stage.noConfusion⟩
  | goesOn i c hstage hc hlen hzif => exact h.goesOn hstage hc hlen hzif
  | decides i n c hstage hc hset hn => exact h.decides hstage hc hset hn

theorem Inv.step (h : s.Inv) (e : Event) : (s.step e).Inv := by
  cases e with
  | connect => exact h.connect
  | send i b => exact h.modify i _ (Conn.grows_send b) (Conn.taken_send b)
  | close i => exact h.modify i _ Conn.grows_close fun _ => rfl
  | acceptFails => exact h
  | loop => exact h.loop

theorem inv_run (evs : List Event) : (Runs.run step start evs).Inv :=
  Runs.run_invariant inv_start (fun _ e h => h.step e) evs

/-- **Handshakes are begun in order**: after any events they are those of the connections that are
accepted, among those that the loop is done with. Each begins where the preamble ends. -/
theorem handshakes_in_order (evs : List Event) :
    (Runs.run step start evs).handshakes =
      (List.range (Runs.run step start evs).done).filter (Runs.run step start evs).accepts ∧
    ∀ i ∈ (Runs.run step start evs).handshakes, ∀ c, (Runs.run step start evs).conns[i]? = some c →
      c.taken = min 4 c.sent.length ∧ (4 ≤ c.sent.length → preamble <+: c.sent) := by
  have hinv := inv_run evs
  generalize Runs.run step start evs = s at hinv ⊢
  refine ⟨hinv.handshakes, fun i hi c hc => ?_⟩
  rw [hinv.handshakes, List.mem_filter, List.mem_range, accepts_of_getElem? hc] at hi
  obtain ⟨hlt, ha⟩ := hi
  refine ⟨(hinv.fine i c hc).taken hlt ha, fun hlen => ?_⟩
  obtain ⟨hzif, hversion⟩ := Conn.accepted_iff.mp ha
  have heq : preamble = c.sent.take 4 := by
    rw [preamble, ← hzif, ← hversion hlen, ← List.take_add]
  rw [heq]
  exact List.take_prefix 4 c.sent

/-! ## Connections that hold up others -/

/-- Connection `j` has come in, and enough has come on it. -/
def Ready (s : State) (j : Nat) : Prop := ∃ c, s.conns[j]? = some c ∧ c.Settled

theorem ready_set {j i n : Nat} {c : Conn} (hc : s.conns[i]? = some c) :
    (∃ d, (s.conns.set i { c with taken := n })[j]? = some d ∧ d.Settled) ↔ s.Ready j := by
  by_cases hij : i = j
  · subst hij
    have hi := (List.getElem?_eq_some_iff.mp hc).1
    rw [List.getElem?_set_self hi, Ready, hc]
    simp only [Option.some.injEq, exists_eq_left']
    exact Conn.settled_iff_of_eq rfl rfl
  · rw [List.getElem?_set_ne hij]
    rfl

theorem ready_modify {j k : Nat} (f : Conn → Conn) (hne : k ≠ j) :
    (∃ c, (s.conns.modify k f)[j]? = some c ∧ c.Settled) ↔ s.Ready j := by
  have heq : (s.conns.modify k f)[j]? = s.conns[j]? := by simp [hne]
  rw [heq]
  rfl

/-- The loop does not make a connection ready. -/
theorem Inv.ready_loop (h : s.Inv) (j : Nat) : s.loop.Ready j ↔ s.Ready j := by
  have hloops := h.loops
  generalize s.loop = s' at hloops
  cases hloops with
  | idle => rfl
  | waits => rfl
  | accepts => rfl
  | goesOn i c hstage hc => exact ready_set hc
  | decides i n c hstage hc => exact ready_set hc

/-- What spares a connection does not make it ready. -/
theorem Inv.ready_step (h : s.Inv) {i j : Nat} (hj : j ≤ i) {e : Event} (he : e.Spares i) :
    (s.step e).Ready j → s.Ready j := by
  cases e with
  | connect =>
    rintro ⟨c, hc, hset⟩
    by_cases hlt : j < s.conns.length
    · exact ⟨c, by rwa [State.step, List.getElem?_append_left hlt] at hc, hset⟩
    · rw [State.step, List.getElem?_append_right (Nat.le_of_not_lt hlt)] at hc
      rw [List.mem_singleton.mp (List.mem_of_getElem? hc)] at hset
      exact absurd hset (by decide)
  | send k b => exact (ready_modify _ (hj.trans_lt he).ne').mp
  | close k => exact (ready_modify _ (hj.trans_lt he).ne').mp
  | acceptFails => exact id
  | loop => exact (h.ready_loop j).mp

/-- How far the loop is. -/
def progress (s : State) : Nat :=
  match s.stage with
  | .accepting => 3 * s.count
  | .zif i => 3 * i + 1
  | .version i => 3 * i + 2

theorem progress_lt (s : State) : s.progress < 3 * (s.done + 1) := by
  unfold progress done
  cases s.stage <;> simp only <;> omega

/-- The loop does not stand still before a connection that is ready. -/
theorem Inv.progress_loop (h : s.Inv) (hready : s.Ready s.done) : s.progress < s.loop.progress := by
  obtain ⟨c, hc, hset⟩ := hready
  have hloops := h.loops
  generalize s.loop = s' at hloops
  cases hloops with
  | idle hstage hnone =>
    have hi := (List.getElem?_eq_some_iff.mp hc).1
    rw [done, hstage] at hi
    exact absurd hi (Nat.not_lt.mpr hnone)
  | waits d hd hopen =>
    obtain rfl : c = d := Option.some.inj (hc.symm.trans hd)
    exact absurd hset hopen
  | accepts hstage =>
    simp only [progress, hstage]
    omega
  | goesOn i d hstage =>
    simp only [progress, hstage]
    omega
  | decides i n d hstage =>
    have := s.progress_lt
    rw [done_of_stage hstage] at this
    change _ < 3 * s.count
    rwa [(h.last_of_stage hstage).1]

/-- Steps of the loop alone get past the connections that are ready. -/
theorem Inv.gets_past (h : s.Inv) {i : Nat} (hready : ∀ j ≤ i, s.Ready j) (k : Nat)
    (hk : 3 * (i + 1) ≤ s.progress + k) : ∃ n, i < (Runs.run State.step s (List.replicate n .loop)).done := by
  induction k generalizing s with
  | zero =>
    have := s.progress_lt
    exact ⟨0, by rw [List.replicate_zero, Runs.run_nil]; omega⟩
  | succ k ih =>
    by_cases hdone : i < s.done
    · exact ⟨0, hdone⟩
    · have hprogress := h.progress_loop (hready s.done (Nat.le_of_not_lt hdone))
      have hready' : ∀ j ≤ i, s.loop.Ready j := fun j hj => (h.ready_loop j).mpr (hready j hj)
      obtain ⟨n, hn⟩ := ih h.loop hready' (by omega)
      exact ⟨n + 1, by rwa [List.replicate_succ, Runs.run_cons]⟩

/-- **A connection can be held up by each that came before it**: without anything more on the connections
up to `i`, the loop can get past connection `i` exactly when enough has come on all of them. -/
theorem gets_past_iff (before : List Event) (i : Nat) :
    (∃ evs : List Event, (∀ e ∈ evs, e.Spares i) ∧
      i < (Runs.run State.step (Runs.run State.step start before) evs).done) ↔
    ∀ j ≤ i, ∃ c, (Runs.run State.step start before).conns[j]? = some c ∧ c.Settled := by
  have hinv := inv_run before
  generalize Runs.run State.step start before = s at hinv ⊢
  constructor
  · rintro ⟨evs, hspares, hlt⟩ j hj
    -- the loop is done with `j` only when it is ready, and nothing of the run has made it so
    induction evs generalizing s with
    | nil =>
      have hj : j < s.done := hj.trans_lt hlt
      have hc := List.getElem?_eq_getElem (hj.trans_le hinv.done_le)
      exact ⟨_, hc, (hinv.fine j _ hc).settled hj⟩
    | cons e evs ih =>
      obtain ⟨he, hrest⟩ := List.forall_mem_cons.mp hspares
      exact hinv.ready_step hj he (ih (s.step e) (hinv.step e) hrest hlt)
  · intro hready
    obtain ⟨n, hn⟩ := hinv.gets_past hready (3 * (i + 1)) (Nat.le_add_left _ _)
    refine ⟨List.replicate n .loop, fun e he => ?_, hn⟩
    rw [List.eq_of_mem_replicate he]
    trivial

end State

end Zif.Proto.Listen
