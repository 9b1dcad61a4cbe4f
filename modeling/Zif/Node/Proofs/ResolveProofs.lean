import Zif.Dht.Proofs.SeedProofs
import Zif.Node.Proofs.AddPostProofs
import Zif.Node.Proofs.WritersProofs
import Zif.Node.Resolve

/-!
# Proofs: resolving an address

A step enters its body only while there is budget left, and every entry that comes back has passed
`Verify`; both hold for any network, by induction on the depth of the calls (`resolveStep_spec`).

The replies to `FindClosest` are not used: a peer without an entry answers `no`, which is an error to
`resolveStep`, and otherwise `Peer.Query` returns an interface that is not nil. So what is resolved is
what asking the closest peers alone finds (`resolveEach_iff`).
-/

namespace Zif.Node

open Go Dht

variable {P : Prims} {σ π : Type} {s s' : Search σ} {addr : Address}

/-! ## The budget -/

/-- What is taken from the budget is spent on visits. -/
structure BudgetSpent (s s' : Search σ) : Prop where
  le : s'.depth ≤ s.depth
  visits : s'.visits.length + s'.depth = s.visits.length + s.depth

theorem BudgetSpent.refl (s : Search σ) : BudgetSpent s s := ⟨Nat.le_refl _, rfl⟩

theorem BudgetSpent.trans {s₁ s₂ s₃ : Search σ} (h : BudgetSpent s₁ s₂)
    (h' : BudgetSpent s₂ s₃) : BudgetSpent s₁ s₃ :=
  ⟨h'.le.trans h.le, h'.visits.trans h.visits⟩

theorem BudgetSpent.visit (h : s.depth ≠ 0) (e : Option Entry) : BudgetSpent s (s.visit e) := by
  refine ⟨Nat.sub_le _ _, ?_⟩
  simp only [Search.visit, List.length_append, List.length_singleton]
  omega

/-- Neither the budget nor the visits change. -/
def SameBudget (s s' : Search σ) : Prop := s'.depth = s.depth ∧ s'.visits = s.visits

theorem SameBudget.spent (h : SameBudget s s') : BudgetSpent s s' :=
  ⟨h.1.le, by rw [h.1, h.2]⟩

theorem SameBudget.trans {s₁ s₂ s₃ : Search σ} (h : SameBudget s₁ s₂) (h' : SameBudget s₂ s₃) :
    SameBudget s₁ s₃ := ⟨h'.1.trans h.1, h'.2.trans h.2⟩

/-- An entry in the result has passed `Verify`. -/
def Verified (P : Prims) (res : Except Stop (Option Entry)) : Prop :=
  ∀ entry, res = .ok (some entry) → entry.verify P = .ok ()

theorem verified_error (f : Stop) : Verified P (.error f) := by
  intro entry h
  cases h

/-- `Client.Query` returns an entry that passed `Verify`, or an error. -/
theorem clientQueryReply_ok {reply : Except String (Message Entry)} {found : Option Entry}
    (h : clientQueryReply P reply = .ok found) :
    ∃ entry, found = some entry ∧ entry.verify P = .ok () := by
  unfold clientQueryReply at h
  split at h
  · cases h
  · split at h
    · cases h
    · split at h
      · cases h
      · rename_i entry _
        cases hv : entry.verify P with
        | error f => simp [clientQuery, hv, bind, Except.bind, Except.map] at h
        | ok u =>
          simp only [clientQuery, hv, bind, Except.bind, Except.map, Except.ok.injEq] at h
          exact ⟨entry, h.symm, hv⟩

namespace Network

variable (net : Network σ π)

theorem reach_sameBudget (s : Search σ) (e : Entry) : SameBudget s (net.reach P s e).1 := by
  unfold reach
  split
  · exact ⟨rfl, rfl⟩
  · split <;> exact ⟨rfl, rfl⟩

theorem query_sameBudget (s : Search σ) (peer : π) (addr : Address) :
    SameBudget s (net.query P s peer addr).1 := ⟨rfl, rfl⟩

/-- `Peer.Query` does not return nil without an error. -/
theorem query_cases (s : Search σ) (peer : π) (addr : Address) :
    (∃ net' f, net.query P s peer addr = ({ s with net := net' }, .error f)) ∨
      ∃ net' entry, net.query P s peer addr = ({ s with net := net' }, .ok (some (some entry))) ∧
        entry.verify P = .ok () := by
  unfold query
  cases hclient : clientQueryReply P (net.sendQuery s.net peer addr).2 with
  | error f => exact .inl ⟨(net.sendQuery s.net peer addr).1, f, by simp only [hclient]; rfl⟩
  | ok found =>
    obtain ⟨entry, rfl, hv⟩ := clientQueryReply_ok hclient
    exact .inr ⟨(net.sendQuery s.net peer addr).1, entry, by simp only [hclient]; rfl, hv⟩

theorem findClosest_sameBudget (s : Search σ) (peer : π) (addr : Address) :
    SameBudget s (net.findClosest s peer addr).1 := ⟨rfl, rfl⟩

end Network

/-! ## What a step does -/

section Loops

variable {step step' : Option Entry → Search σ → Option (Search σ × Except Stop (Option Entry))}
  {fuel : Nat}

/-- The loop of a step does what its steps do, by induction on the list. -/
theorem tryEach_spec (hstep : ∀ i s, s.depth < fuel → ∃ s' res, step i s = some (s', res) ∧
      BudgetSpent s s' ∧ Verified P res) (l : List (Option Entry)) (hs : s.depth < fuel) :
    ∃ s' res, tryEach step l s = some (s', res) ∧ BudgetSpent s s' ∧ Verified P res := by
  induction l generalizing s with
  | nil => exact ⟨s, _, rfl, .refl s, verified_error _⟩
  | cons i rest ih =>
    obtain ⟨s₁, res, hi, hspent, hver⟩ := hstep i s hs
    rw [tryEach, hi]
    cases res with
    | error f => exact ⟨s₁, _, rfl, hspent, hver⟩
    | ok result =>
      cases result with
      | some entry => exact ⟨s₁, _, rfl, hspent, hver⟩
      | none =>
        obtain ⟨s₂, res, hrest, hspent', hver'⟩ := ih (Nat.lt_of_le_of_lt hspent.le hs)
        exact ⟨s₂, res, hrest, hspent.trans hspent', hver'⟩

/-- The loop of `Resolve` ends as well, and what it returns was checked. -/
theorem resolveEach_spec (hstep : ∀ i s, s.depth < fuel → ∃ s' res, step i s = some (s', res) ∧
      BudgetSpent s s' ∧ Verified P res) (addr : Address) (l : List (Option Entry))
    (hs : s.depth < fuel) :
    ∃ s' res, resolveEach P addr step l s = some (s', res) ∧ BudgetSpent s s' ∧
      ∀ entry, res = .ok entry → entry.address.raw = addr.raw ∧ entry.verify P = .ok () := by
  induction l generalizing s with
  | nil => exact ⟨s, _, rfl, .refl s, fun _ h => by cases h⟩
  | cons i rest ih =>
    obtain ⟨s₁, res, hi, hspent, hver⟩ := hstep i s hs
    obtain ⟨s₂, res₂, hrest, hspent', hgood⟩ := ih (Nat.lt_of_le_of_lt hspent.le hs)
    have hon : ∃ s' res, resolveEach P addr step rest s₁ = some (s', res) ∧ BudgetSpent s s' ∧
        ∀ entry, res = .ok entry → entry.address.raw = addr.raw ∧ entry.verify P = .ok () :=
      ⟨s₂, res₂, hrest, hspent.trans hspent', hgood⟩
    rw [resolveEach, hi]
    cases res with
    | error f =>
      rcases f with _ | (err | _)
      · exact ⟨s₁, _, rfl, hspent, fun _ h => by cases h⟩
      · exact hon
      · exact ⟨s₁, _, rfl, hspent, fun _ h => by cases h⟩
    | ok result =>
      cases result with
      | none => exact hon
      | some entry =>
        by_cases heq : entry.address.equals addr = true
        · simp only [heq, if_true]
          have hsame : ∀ dht, SameBudget s₁ { s₁ with dht } := fun _ => ⟨rfl, rfl⟩
          split
          · exact ⟨_, _, rfl, hspent.trans (hsame _).spent, fun _ h => by cases h⟩
          · refine ⟨_, _, rfl, hspent.trans (hsame _).spent, ?_⟩
            rintro e ⟨⟩
            exact ⟨by simpa [Address.equals] using heq, hver _ rfl⟩
        · simp only [heq]
          exact hon

/-- More steps that end do not change how the loop ends. -/
theorem tryEach_mono (hstep : ∀ i s out, step i s = some out → step' i s = some out)
    {l : List (Option Entry)} {out : Search σ × Except Stop (Option Entry)}
    (h : tryEach step l s = some out) : tryEach step' l s = some out := by
  induction l generalizing s with
  | nil => exact h
  | cons i rest ih =>
    rw [tryEach] at h ⊢
    cases hi : step i s with
    | none =>
      rw [hi] at h
      cases h
    | some r =>
      rw [hi] at h
      rw [hstep i s r hi]
      rcases r with ⟨s₁, f | _ | entry⟩
      · exact h
      · exact ih h
      · exact h

theorem resolveEach_mono (hstep : ∀ i s out, step i s = some out → step' i s = some out)
    {l : List (Option Entry)} {out : Search σ × Except Stop Entry}
    (h : resolveEach P addr step l s = some out) : resolveEach P addr step' l s = some out := by
  induction l generalizing s with
  | nil => exact h
  | cons i rest ih =>
    rw [resolveEach] at h ⊢
    cases hi : step i s with
    | none =>
      rw [hi] at h
      cases h
    | some r =>
      rw [hi] at h
      rw [hstep i s r hi]
      rcases r with ⟨s₁, (_ | _ | _) | _ | entry⟩
      · exact h
      · exact ih h
      · exact h
      · exact ih h
      · by_cases heq : entry.address.equals addr = true
        · simp only [heq, if_true] at h ⊢
          exact h
        · simp only [heq] at h ⊢
          exact ih h

end Loops

namespace Network

variable (net : Network σ π)

/-- A step ends within its budget, for every network. The induction is on the depth of the calls, which
the budget bounds. -/
theorem resolveStep_spec (addr : Address) (fuel : Nat) (e : Option Entry) (hs : s.depth < fuel) :
    ∃ s' res, net.resolveStep P addr fuel e s = some (s', res) ∧ BudgetSpent s s' ∧ Verified P res := by
  induction fuel generalizing e s with
  | zero => exact absurd hs (Nat.not_lt_zero _)
  | succ fuel ih =>
    unfold resolveStep
    by_cases hd : s.depth = 0
    · rw [if_pos hd]
      exact ⟨s, _, rfl, .refl s, verified_error _⟩
    rw [if_neg hd]
    have hvisit := BudgetSpent.visit hd e
    cases e with
    | none => exact ⟨_, _, rfl, hvisit, verified_error _⟩
    | some e =>
      have hreach := net.reach_sameBudget (P := P) (s.visit (some e)) e
      simp only
      split
      · rename_i s₁ f h₁
        rw [h₁] at hreach
        exact ⟨s₁, _, rfl, hvisit.trans hreach.spent, verified_error _⟩
      · rename_i s₁ peer h₁
        rw [h₁] at hreach
        have hquery := net.query_sameBudget (P := P) s₁ peer addr
        split
        · rename_i s₂ f h₂
          rw [h₂] at hquery
          exact ⟨s₂, _, rfl, hvisit.trans (hreach.trans hquery).spent, verified_error _⟩
        · rename_i s₂ entry h₂
          rw [h₂] at hquery
          refine ⟨s₂, _, rfl, hvisit.trans (hreach.trans hquery).spent, ?_⟩
          rcases net.query_cases (P := P) s₁ peer addr with ⟨net', f, h⟩ | ⟨net', found, h, hv⟩
          · rw [h] at h₂
            cases h₂
          · rw [h] at h₂
            cases h₂
            rintro _ ⟨⟩
            exact hv
        · rename_i s₂ h₂
          rw [h₂] at hquery
          have hfind := net.findClosest_sameBudget s₂ peer addr
          have hbudget := hreach.trans hquery
          split
          · rename_i s₃ f h₃
            rw [h₃] at hfind
            exact ⟨s₃, _, rfl, hvisit.trans (hbudget.trans hfind).spent, verified_error _⟩
          · rename_i s₃ closest h₃
            rw [h₃] at hfind
            have hspent := hvisit.trans (hbudget.trans hfind).spent
            have hless : s₃.depth < fuel := by
              have hdepth := (hbudget.trans hfind).1
              simp only [Search.visit] at hdepth
              omega
            obtain ⟨s', res, hrun, hspent', hver⟩ := tryEach_spec (fun i s hs => ih i hs) closest hless
            exact ⟨s', res, hrun, hspent.trans hspent', hver⟩

theorem resolveStep_mono (addr : Address) {fuel : Nat} {e : Option Entry}
    {out : Search σ × Except Stop (Option Entry)} (h : net.resolveStep P addr fuel e s = some out) :
    net.resolveStep P addr (fuel + 1) e s = some out := by
  induction fuel generalizing e s out with
  | zero => cases h
  | succ fuel ih =>
    unfold resolveStep at h ⊢
    split at h
    · rename_i hd
      rw [if_pos hd]
      exact h
    · rename_i hd
      rw [if_neg hd]
      cases e with
      | none => exact h
      | some e =>
        simp only at h ⊢
        split at h
        · exact h
        · split at h
          · exact h
          · exact h
          · split at h
            · exact h
            · exact tryEach_mono (fun _ _ _ => ih) h

theorem resolve_mono {fuel fuel' : Nat} (hle : fuel ≤ fuel') {lp : LocalPeer} {start : σ}
    {out : Search σ × Except Stop Entry} (h : net.resolve P fuel lp start addr = some out) :
    net.resolve P fuel' lp start addr = some out := by
  induction fuel', hle using Nat.le_induction with
  | base => exact h
  | succ fuel' _ ih =>
    unfold resolve at ih ⊢
    split at ih
    · exact ih
    · exact ih
    · split at ih
      · exact ih
      · exact resolveEach_mono (fun _ _ _ => net.resolveStep_mono addr) ih

end Network

/-! ## Sound and bounded -/

theorem query_db_of_ok {ndb : NetDB} {found : Option (Entry × Nat)}
    (h : (ndb.query P addr).2 = .ok found) : ndb.db.query P addr = .ok found := by
  unfold NetDB.query at h
  split at h
  · cases h
  · rename_i hquery
    cases h
    exact hquery
  · rename_i hquery
    split at h
    · cases h
    · cases h
      exact hquery

theorem lookup_some {lp : LocalPeer} {e : Entry} (h : (lp.lookup P addr).2 = .ok (some e)) :
    (addr.equals lp.dht.addr = true ∧ e = lp.entry) ∨
      ∃ id, lp.dht.db.query P addr = .ok (some (e, id)) := by
  unfold LocalPeer.lookup at h
  split at h
  · rename_i heq
    cases h
    exact .inl ⟨heq, rfl⟩
  · split at h
    · rename_i dht kv hquery
      rcases kv with _ | ⟨kv, id⟩
      · cases h
      · cases h
        exact .inr ⟨id, query_db_of_ok (congrArg Prod.snd hquery)⟩
    · simp only at h
      split at h <;> cases h

/-- What the local store gives for an address is an entry of that address. -/
theorem raw_of_lookup {lp : LocalPeer} (henc : addr.encoded = []) (hstored : StoredAsOwn P lp)
    {e : Entry} (h : (lp.lookup P addr).2 = .ok (some e)) : e.address.raw = addr.raw := by
  rcases lookup_some h with ⟨heq, rfl⟩ | ⟨id, hquery⟩
  · rw [hstored.own]
    exact (of_decide_eq_true heq).symm
  · rcases DB.query_eq_ok hquery with ⟨-, hno⟩ | ⟨r, decoded, seeds, seeding, hrow, hd, -, -, hfound⟩
    · cases hno
    · obtain ⟨raw, htext⟩ := hstored.rows r (DB.mem_of_row hrow)
      have haddr := DB.address_of_row hrow
      rw [htext, Address.string, henc] at haddr
      have hraw : Address.encodeRaw P addr.raw = Address.encodeRaw P raw :=
        DB.store_eq_text haddr.symm
      rw [htext, Cell.load, Address.decodeAddress_encodeRaw] at hd
      cases hd
      cases hfound
      exact (Address.encodeRaw_injective P hraw).symm

/-- A peer with the address of `k` and the given entries in its store. -/
def sampleHost (k : UInt8) (es : List Entry) : LocalPeer :=
  { LocalPeer.samplePeer with
    entry := sampleEntry k k 7
    dht := (NetDB.new (sampleAddress k)).insertAll .sample es }

/-- A peer that knows peer 1, and looks for the entry of peer 3. -/
def seeker : LocalPeer := sampleHost 0 [sampleEntry 1 1 7]

/-- The address of peer 3. -/
def sought : Address := { raw := (sampleEntry 3 3 7).address.raw }

/-- Peer 1 has the entry of peer 3. -/
def nearHosts : List LocalPeer := [sampleHost 1 [sampleEntry 3 3 7]]

/-- Peer 1 knows peer 2, which has the entry of peer 3. -/
def farHosts : List LocalPeer := [sampleHost 1 [sampleEntry 2 2 7], sampleHost 2 [sampleEntry 3 3 7]]

/-- The peers the search for the address starts with, and the store afterwards. -/
def seekerClosest : NetDB × Result (List (Option Entry)) :=
  (seeker.lookup .sample sought).1.findClosest .sample sought

/-- `FindClosest` lists peer 1 twice. -/
def seekerRoots : List (Option Entry) := [some (sampleEntry 1 1 7), some (sampleEntry 1 1 7)]

theorem kept_sampleHost (k : UInt8) : NetDB.Kept .sample (sampleHost 0 [sampleEntry k k 7]).dht :=
  (NetDB.kept_new (by rfl)).insert fun _ => .inl rfl

theorem kept_seeker : NetDB.Kept .sample seeker.dht := kept_sampleHost 1

/-- What the searches of this peer come to, when peer 1 has the entry and when it names peer 2. -/
theorem seeker_searches :
    (seeker.entry.address.raw = seeker.dht.addr.raw ∧ (seeker.lookup .sample sought).2 = .ok none ∧
        seekerClosest.2 = .ok seekerRoots) ∧
      ((hostNetwork .sample).depthFirst .sample sought 6 seekerRoots (.start nearHosts seekerClosest.1) =
          some (sampleEntry 3 3 7) ∧
        (hostNetwork .sample).askOnly .sample sought 6 seekerRoots (.start nearHosts seekerClosest.1) =
          some (sampleEntry 3 3 7) ∧
        ((hostNetwork .sample).resolve .sample 7 seeker nearHosts sought).map Prod.snd =
          some (.ok (sampleEntry 3 3 7))) ∧
      (hostNetwork .sample).depthFirst .sample sought 6 seekerRoots (.start farHosts seekerClosest.1) =
          some (sampleEntry 3 3 7) ∧
        ((hostNetwork .sample).resolve .sample 7 seeker farHosts sought).map Prod.snd =
          some (.error (.fault (.error "Address could not be resolved"))) := by
  -- evaluated together, so that the stores are built once
  decide +kernel

theorem storedAsOwn_seeker : StoredAsOwn .sample seeker := by
  refine ⟨seeker_searches.1.1, fun r hr => ?_⟩
  obtain ⟨raw, -, htext⟩ := kept_seeker.wf.canonical r hr
  exact ⟨raw, htext⟩

theorem lookup_seeker : (seeker.lookup .sample sought).2 = .ok none := seeker_searches.1.2.1

theorem seekerClosest_snd : seekerClosest.2 = .ok seekerRoots := seeker_searches.1.2.2

/-- Whatever the network does, `Resolve` ends after at most six steps, and an entry it returns has the
address that was asked for; unless it was in the local store, it has passed `Verify`. -/
theorem resolve_sound_bounded (P : Prims) {σ π : Type} (net : Network σ π) (lp : LocalPeer) (start : σ)
    (addr : Address) (henc : addr.encoded = []) (hstored : StoredAsOwn P lp) :
    ∃ out, (∀ fuel, 7 ≤ fuel → net.resolve P fuel lp start addr = some out) ∧
      out.1.visits.length ≤ 6 ∧
      ∀ e, out.2 = .ok e → e.address.raw = addr.raw ∧
        ((lp.lookup P addr).2 = .ok (some e) ∨ e.verify P = .ok ()) := by
  suffices hrun : ∃ out, net.resolve P 7 lp start addr = some out ∧ out.1.visits.length ≤ 6 ∧
      ∀ e, out.2 = .ok e → e.address.raw = addr.raw ∧
        ((lp.lookup P addr).2 = .ok (some e) ∨ e.verify P = .ok ()) by
    obtain ⟨out, hout, hrest⟩ := hrun
    exact ⟨out, fun fuel hle => net.resolve_mono hle hout, hrest⟩
  unfold Network.resolve
  split
  · exact ⟨_, rfl, Nat.zero_le 6, fun _ h => by cases h⟩
  · rename_i dht kv hlookup
    refine ⟨_, rfl, Nat.zero_le 6, ?_⟩
    rintro e ⟨⟩
    have hheld := congrArg Prod.snd hlookup
    exact ⟨raw_of_lookup henc hstored hheld, .inl hheld⟩
  · split
    · exact ⟨_, rfl, Nat.zero_le 6, fun _ h => by cases h⟩
    · rename_i dht closest _
      obtain ⟨s', res, hrun, hspent, hgood⟩ := resolveEach_spec (s := Search.start start dht)
        (fun i s hs => net.resolveStep_spec addr 7 i hs) addr closest (Nat.lt_succ_self 6)
      refine ⟨(s', res), hrun, ?_, fun e he => ⟨(hgood e he).1, .inr (hgood e he).2⟩⟩
      have hvisits : s'.visits.length + s'.depth = 0 + 6 := hspent.visits
      show s'.visits.length ≤ 6
      omega

/-- The theorem for a peer that knows one other, which has the entry. -/
theorem resolve_sound_bounded_one :
    sought.encoded = [] ∧ StoredAsOwn .sample seeker ∧
      ∃ s', (∀ fuel, 7 ≤ fuel → (hostNetwork .sample).resolve .sample fuel seeker nearHosts sought =
          some (s', .ok (sampleEntry 3 3 7))) ∧
        s'.visits.length ≤ 6 ∧ (sampleEntry 3 3 7).verify .sample = .ok () := by
  obtain ⟨-, ⟨-, -, hres⟩, -⟩ := seeker_searches
  obtain ⟨⟨s', res⟩, hrun, hlen, hgood⟩ := resolve_sound_bounded .sample (hostNetwork .sample) seeker
    nearHosts sought rfl storedAsOwn_seeker
  rw [hrun 7 (Nat.le_refl 7)] at hres
  cases hres
  refine ⟨rfl, storedAsOwn_seeker, s', hrun, hlen, ?_⟩
  rcases (hgood _ rfl).2 with hheld | hv
  · rw [lookup_seeker] at hheld
    cases hheld
  · exact hv

/-! ## What is asked -/

namespace Network

variable (net : Network σ π)

theorem reach_inOrder (h : NetDB.InOrder s.dht) (e : Entry) : NetDB.InOrder (net.reach P s e).1.dht := by
  unfold reach
  split
  · exact h
  · split
    · exact h
    · exact h
    · rename_i entry _
      show NetDB.InOrder (dropError (s.dht.insert P entry)).1
      rw [dropError_fst]
      exact h.insert entry

/-- The outcomes of a step that has budget, beside those of asking the peer: it fails where asking fails
or finds nothing, and any entry that comes back is returned. -/
theorem resolveStep_cases (addr : Address) (hd : s.depth ≠ 0) (hs : NetDB.InOrder s.dht) (fuel : Nat)
    (i : Entry) :
    ∃ s' res, net.resolveStep P addr (fuel + 1) (some i) s = some (s', res) ∧
      s'.depth = s.depth - 1 ∧ NetDB.InOrder s'.dht ∧
      ((∃ f, res = .error (.fault f) ∧ net.ask P addr (s.visit (some i)) i = (s', .error f)) ∨
        (∃ err peer, res = .error (.fault (.error err)) ∧
          net.ask P addr (s.visit (some i)) i = (s', .ok (peer, none))) ∨
        ∃ entry peer, res = .ok (some entry) ∧ entry.verify P = .ok () ∧
          net.ask P addr (s.visit (some i)) i =
            (s', .ok (peer, if entry.address.equals addr then some entry else none))) := by
  have hreach := net.reach_inOrder (P := P) (s := s.visit (some i)) hs i
  have hbudget := (net.reach_sameBudget (P := P) (s.visit (some i)) i).1
  unfold resolveStep ask
  simp only [hd, if_false]
  rcases hr : net.reach P (s.visit (some i)) i with ⟨s₁, f | peer⟩
  · rw [hr] at hreach hbudget
    exact ⟨s₁, _, rfl, hbudget, hreach, .inl ⟨f, rfl, rfl⟩⟩
  · rw [hr] at hreach hbudget
    rcases net.query_cases (P := P) s₁ peer addr with ⟨net', (err | _), hq⟩ | ⟨net', entry, hq, hv⟩
    · simp only [hq]
      exact ⟨_, _, rfl, hbudget, hreach, .inr (.inl ⟨err, peer, rfl, rfl⟩)⟩
    · simp only [hq]
      exact ⟨_, _, rfl, hbudget, hreach, .inl ⟨.panic, rfl, rfl⟩⟩
    · simp only [hq]
      exact ⟨_, _, rfl, hbudget, hreach, .inr (.inr ⟨entry, peer, rfl, hv, rfl⟩)⟩

/-- The loop of `Resolve` returns an entry exactly when asking the peers of the list finds it. -/
theorem resolveEach_iff (fuel : Nat) (l : List (Option Entry)) (e : Entry)
    (hs : NetDB.InOrder s.dht) :
    (∃ s', resolveEach P addr (net.resolveStep P addr (fuel + 1)) l s = some (s', .ok e)) ↔
      net.askOnly P addr s.depth l s = some e := by
  induction l generalizing s with
  | nil =>
    unfold askOnly
    cases s.depth <;> simp [resolveEach, search]
  | cons i rest ih =>
    cases hd : s.depth with
    | zero => simp [resolveEach, resolveStep, hd, askOnly, search]
    | succ n =>
      have hne : s.depth ≠ 0 := by omega
      cases i with
      | none => simp [resolveEach, resolveStep, hd, askOnly, search]
      | some i =>
        obtain ⟨s', res, hstep, hdepth, hs', hcases⟩ :=
          net.resolveStep_cases (P := P) addr hne hs fuel i
        have hn : n = s'.depth := by omega
        rw [resolveEach, hstep, askOnly, search]
        rcases hcases with ⟨f, rfl, hask⟩ | ⟨err, peer, rfl, hask⟩ | ⟨entry, peer, rfl, hv, hask⟩
        · rw [hask]
          cases f with
          | error err =>
            rw [hn]
            exact ih hs'
          | panic => simp
        · rw [hask, hn]
          exact ih hs'
        · rw [hask]
          by_cases heq : entry.address.equals addr = true
          · rcases hins : s'.dht.insert P entry with ⟨dht, (err | _) | n⟩
            · simp [heq, hins, dropError]
            · exact absurd (congrArg Prod.snd hins) (hs'.insert_ne_panic hv)
            · simp [heq, hins, dropError]
          · simp only [heq]
            rw [hn]
            exact ih hs'

end Network

theorem kept_lookup {lp : LocalPeer} (hk : NetDB.Kept P lp.dht) (addr : Address) :
    NetDB.Kept P (lp.lookup P addr).1 := by
  have hquery := hk.query addr
  unfold LocalPeer.lookup
  split
  · exact hk
  · split
    all_goals
      rename_i h
      rw [h] at hquery
      exact hquery

/-- `Resolve` returns the entry in the local store, or else what asking the closest peers finds. -/
theorem resolve_iff (net : Network σ π) {lp : LocalPeer} (hk : NetDB.Kept P lp.dht) (start : σ)
    {dht : NetDB} {roots : List (Option Entry)}
    (hroots : (lp.lookup P addr).1.findClosest P addr = (dht, .ok roots)) (fuel : Nat) (e : Entry) :
    (∃ s', net.resolve P (fuel + 1) lp start addr = some (s', .ok e)) ↔
      (lp.lookup P addr).2 = .ok (some e) ∨
        (lp.lookup P addr).2 = .ok none ∧ net.askOnly P addr 6 roots (.start start dht) = some e := by
  have hdht : NetDB.Kept P dht := by
    have hclosest := (kept_lookup hk addr).findClosest addr
    rwa [hroots] at hclosest
  unfold Network.resolve
  rcases hl : lp.lookup P addr with ⟨dht₁, f | _ | kv⟩
  · simp
  · rw [hl] at hroots
    simp only at hroots
    simp only [hroots, reduceCtorEq, true_and, false_or, Except.ok.injEq]
    exact net.resolveEach_iff (s := .start start dht) fuel roots e hdht.toInOrder
  · simp

/-- When the depth-first search finds an entry within six visits, `Resolve` returns it exactly if the
local store has it, or the local store has none and asking only the first six of the closest peers
finds it. -/
theorem resolve_finds_iff (P : Prims) {σ π : Type} (net : Network σ π) (lp : LocalPeer)
    (hk : NetDB.Kept P lp.dht) (start : σ) (addr : Address) (dht : NetDB) (roots : List (Option Entry))
    (hroots : (lp.lookup P addr).1.findClosest P addr = (dht, .ok roots)) :
    (∀ e, net.depthFirst P addr 6 roots (.start start dht) = some e →
        ∃ s', ∀ fuel, 7 ≤ fuel → net.resolve P fuel lp start addr = some (s', .ok e)) ↔
      ∀ e, net.depthFirst P addr 6 roots (.start start dht) = some e →
        (lp.lookup P addr).2 = .ok (some e) ∨
          (lp.lookup P addr).2 = .ok none ∧ net.askOnly P addr 6 roots (.start start dht) = some e := by
  refine forall₂_congr fun e _ => ?_
  rw [← resolve_iff net hk start hroots 6 e]
  constructor
  · rintro ⟨s', hrun⟩
    exact ⟨s', hrun 7 (Nat.le_refl 7)⟩
  · rintro ⟨s', hrun⟩
    exact ⟨s', fun fuel hle => net.resolve_mono hle hrun⟩

/-- The theorem for a peer that knows one other, which has the entry. -/
theorem resolve_finds_iff_one :
    (hostNetwork .sample).depthFirst .sample sought 6 seekerRoots (.start nearHosts seekerClosest.1) =
        some (sampleEntry 3 3 7) ∧
      ∃ s', ∀ fuel, 7 ≤ fuel → (hostNetwork .sample).resolve .sample fuel seeker nearHosts sought =
        some (s', .ok (sampleEntry 3 3 7)) := by
  obtain ⟨-, ⟨hfind, hask, -⟩, -⟩ := seeker_searches
  have hroots : (seeker.lookup .sample sought).1.findClosest .sample sought =
      (seekerClosest.1, .ok seekerRoots) := by
    rw [← seekerClosest_snd, seekerClosest]
  refine ⟨hfind, (resolve_finds_iff .sample (hostNetwork .sample) seeker kept_seeker nearHosts sought
    seekerClosest.1 seekerRoots hroots).mpr ?_ _ hfind⟩
  intro e he
  rw [hfind] at he
  cases he
  exact .inr ⟨lookup_seeker, hask⟩

/-- Peer 1 does not have the entry, but names peer 2, which does. The depth-first search finds it at
its second visit; `Resolve` gives up after peer 1 has answered `no`. -/
theorem resolve_misses_named_peer :
    (sampleEntry 3 3 7).verify .sample = .ok () ∧ seekerClosest.2 = .ok seekerRoots ∧
      (hostNetwork .sample).depthFirst .sample sought 6 seekerRoots (.start farHosts seekerClosest.1) =
        some (sampleEntry 3 3 7) ∧
      ((hostNetwork .sample).resolve .sample 7 seeker farHosts sought).map Prod.snd =
        some (.error (.fault (.error "Address could not be resolved"))) := by
  obtain ⟨-, -, hfind, hmiss⟩ := seeker_searches
  exact ⟨verify_sampleEntry 3 3 7 [], seekerClosest_snd, hfind, hmiss⟩

end Zif.Node
