import Zif.Node.Proofs.ConnectionsProofs
import Zif.Lib.Pool
import Zif.Lib.Proofs.RunsProofs

/-!
# Proofs: seed managers

A `findSeeds` loop that has received a value on `Close` does not receive another one (`Tracking`). But nobody
takes the seed manager out of `seedManagers`, so that the map is right about who is being tracked only as long
as `HandleCloseConnection` has never found a seed manager to close (`ClosesUntracked`).
-/

namespace Zif.Node.Connections

open Go Runs Pool

variable {s : Connections} {c c' : Call} {raw : Bytes} {i id : Nat}

/-! ## What `AddSeedManager` relies on -/

/-- The seed manager that a call is about to start. -/
def starting : Call → Option Nat
  | .addSeedManager _ (.start id) => some id
  | _ => none

/-- What `AddSeedManager` relies on where it stands. -/
def AddStands (s : Connections) (raw : Bytes) : Adding → Prop
  | .start id => raw ∈ s.seedManagers ∧ ∃ m, s.managers[id]? = some m ∧ m.loop = .created
  | .added => raw ∈ s.seedManagers
  | _ => True

/-- Each seed manager is filed under the address it tracks, has received a value if and only if its loop has
come to an end, and is started by one call at most. -/
structure Tracking (s : Connections) : Prop where
  filed : ∀ raw id, s.seedManagers.lookup raw = some id → ∃ m, s.managers[id]? = some m ∧ m.track = raw
  received : ∀ m ∈ s.managers, m.received = if m.loop = .stopped then 1 else 0
  adding : ∀ raw stage, .addSeedManager raw stage ∈ s.calls → s.AddStands raw stage
  starters : ∀ id, AtMostOne (fun c => starting c = some id) s.calls

theorem starting_of_not_adding (h : c.adding = false) : starting c = none := by
  cases c <;> first | rfl | cases h

/-- Nothing but the calls changes. -/
theorem Tracking.withCalls (h : s.Tracking) {s' : Connections} (hmanagers : s'.managers = s.managers)
    (hfiled : s'.seedManagers = s.seedManagers)
    (hadding : ∀ raw stage, .addSeedManager raw stage ∈ s'.calls → s.AddStands raw stage)
    (hstarters : ∀ id, AtMostOne (fun c => starting c = some id) s'.calls) : s'.Tracking where
  filed := by rw [hmanagers, hfiled]; exact h.filed
  received := by rw [hmanagers]; exact h.received
  adding raw stage hc := by
    have := hadding raw stage hc
    cases stage with
    | start id => simpa only [AddStands, hmanagers, hfiled] using this
    | added => simpa only [AddStands, hfiled] using this
    | _ => trivial
  starters := hstarters

/-- A call starts. -/
theorem Tracking.push (h : s.Tracking) {s' : Connections} (hmanagers : s'.managers = s.managers)
    (hfiled : s'.seedManagers = s.seedManagers) (hcalls : s'.calls = s.calls ++ [c])
    (hnew : ∀ raw stage, c = .addSeedManager raw stage → stage = .has) : s'.Tracking := by
  refine h.withCalls hmanagers hfiled ?_ ?_ <;> rw [hcalls]
  · intro raw stage hc
    rcases List.mem_append.mp hc with hc | hc
    · exact h.adding raw stage hc
    · cases hnew raw stage (List.mem_singleton.mp hc).symm
      trivial
  · intro id
    refine (h.starters id).push fun hc => ?_
    simp only [decide_eq_true_eq] at hc
    cases c with
    | addSeedManager raw stage =>
      cases hnew raw stage rfl
      cases hc
    | _ => cases hc

theorem Tracking.of_same {s' : Connections} (h : s.Tracking) (hmanagers : s'.managers = s.managers)
    (hfiled : s'.seedManagers = s.seedManagers) (hcalls : s'.calls = s.calls) : s'.Tracking := by
  refine h.withCalls hmanagers hfiled ?_ ?_ <;> rw [hcalls]
  · exact h.adding
  · exact h.starters

/-- A call makes a step that leaves the seed managers alone. -/
theorem Tracking.set (h : s.Tracking) (hi : s.calls[i]? = some c)
    (hown : ∀ raw stage, c' = .addSeedManager raw stage → s.AddStands raw stage)
    (hstart : starting c' = none) : Tracking { s with calls := s.calls.set i c' } := by
  refine h.withCalls rfl rfl (fun raw stage hc => ?_) fun id => ?_
  · rcases List.mem_or_eq_of_mem_set hc with hc | hc
    · exact h.adding raw stage hc
    · exact hown raw stage hc.symm
  · exact (h.starters id).set hi (by simp [hstart])

/-! ## What happens to a seed manager -/

section Modify

variable {f : SeedManager → SeedManager}

theorem Tracking.filed_modify (h : s.Tracking) (id : Nat) (htrack : ∀ m, (f m).track = m.track) {raw : Bytes}
    {id' : Nat} (hlookup : s.seedManagers.lookup raw = some id') :
    ∃ m, (s.managers.modify id f)[id']? = some m ∧ m.track = raw := by
  obtain ⟨m, hm, htrack'⟩ := h.filed raw id' hlookup
  rw [List.getElem?_modify, hm]
  by_cases hid : id = id'
  · exact ⟨f m, by simp [hid], by rw [htrack, htrack']⟩
  · exact ⟨m, by simp [hid], htrack'⟩

theorem Tracking.received_modify (h : s.Tracking) (id : Nat)
    (hf : ∀ m, s.managers[id]? = some m → (f m).received = if (f m).loop = .stopped then 1 else 0) :
    ∀ m ∈ s.managers.modify id f, m.received = if m.loop = .stopped then 1 else 0 := by
  intro m' hm'
  obtain ⟨j, hj⟩ := List.mem_iff_getElem?.mp hm'
  rw [List.getElem?_modify] at hj
  split_ifs at hj with hid
  · obtain ⟨m, hm, rfl⟩ := Option.map_eq_some_iff.mp hj
    exact hf m (hid ▸ hm)
  · exact h.received m' (List.mem_of_getElem? (by simpa using hj))

/-- A `findSeeds` loop that has been started goes on. -/
theorem Tracking.modify (h : s.Tracking) (id : Nat) (htrack : ∀ m, (f m).track = m.track)
    (hcreated : ∀ m, s.managers[id]? = some m → m.loop = .created → (f m).loop = .created)
    (hf : ∀ m, s.managers[id]? = some m → (f m).received = if (f m).loop = .stopped then 1 else 0) :
    Tracking { s with managers := s.managers.modify id f } where
  filed _ _ hlookup := h.filed_modify id htrack hlookup
  received := h.received_modify id hf
  adding raw stage hc := by
    have hstands := h.adding raw stage hc
    cases stage with
    | start id' =>
      obtain ⟨hraw, m, hm, hloop⟩ := hstands
      refine ⟨hraw, ?_⟩
      simp only [List.getElem?_modify, hm]
      by_cases hid : id = id'
      · exact ⟨f m, by simp [hid], hcreated m (hid ▸ hm) hloop⟩
      · exact ⟨m, by simp [hid], hloop⟩
    | _ => exact hstands
  starters := h.starters

end Modify

theorem Tracking.proceed (h : s.Tracking) (id : Nat) {source target : Loop} (hsource : source ≠ .created)
    (hstopped : source ≠ .stopped) (htarget : target ≠ .stopped) : (s.proceed id source target).Tracking := by
  refine h.modify id (fun m => ?_) (fun m _ hm => ?_) fun m hm => ?_
  · split_ifs <;> rfl
  · rwa [if_neg (by rw [hm]; exact hsource.symm)]
  · have hreceived := h.received m (List.mem_of_getElem? hm)
    split_ifs with hloop <;> simp_all

/-- A new seed manager is filed. -/
theorem Tracking.file (h : s.Tracking) (hi : s.calls[i]? = some c) :
    Tracking { s with
      seedManagers := s.seedManagers.insert raw s.managers.length
      managers := s.managers ++ [{ track := raw }]
      calls := s.calls.set i (.addSeedManager raw (.start s.managers.length)) } := by
  have hold : ∀ {id : Nat} {m : SeedManager}, s.managers[id]? = some m →
      (s.managers ++ [{ track := raw }])[id]? = some m := by
    intro id m hm
    rw [List.getElem?_append_left (List.getElem?_eq_some_iff.mp hm).1, hm]
  constructor
  · intro raw' id hlookup
    by_cases hraw : raw' = raw
    · subst hraw
      rw [Finmap.lookup_insert] at hlookup
      cases hlookup
      exact ⟨{ track := raw' }, by simp, rfl⟩
    · rw [Finmap.lookup_insert_of_ne _ hraw] at hlookup
      obtain ⟨m, hm, htrack⟩ := h.filed raw' id hlookup
      exact ⟨m, hold hm, htrack⟩
  · intro m hm
    rcases List.mem_append.mp hm with hm | hm
    · exact h.received m hm
    · rw [List.mem_singleton.mp hm]
      simp
  · intro raw' stage hc
    rcases List.mem_or_eq_of_mem_set hc with hc | hc
    · have hstands := h.adding raw' stage hc
      cases stage with
      | start id =>
        obtain ⟨hraw, m, hm, hloop⟩ := hstands
        exact ⟨Finmap.mem_insert.mpr (.inr hraw), m, hold hm, hloop⟩
      | added => exact Finmap.mem_insert.mpr (.inr hstands)
      | _ => trivial
    · cases hc
      exact ⟨Finmap.mem_insert.mpr (.inl rfl), { track := raw }, by simp, rfl⟩
  · intro id
    by_cases hid : id = s.managers.length
    · -- nobody was about to start a seed manager that did not exist
      refine AtMostOne.set_of_none fun d hd => ?_
      cases d with
      | addSeedManager raw' stage =>
        cases stage with
        | start id' =>
          obtain ⟨-, m, hm, -⟩ := h.adding raw' (.start id') hd
          have := (List.getElem?_eq_some_iff.mp hm).1
          simp only [starting, Option.some.injEq, decide_eq_false_iff_not]
          omega
        | _ => simp [starting]
      | _ => simp [starting]
    · exact (h.starters id).set hi (by simp [starting, Ne.symm hid])

/-- A seed manager is started, by the only call that can do so. -/
theorem Tracking.start (h : s.Tracking) (hi : s.calls[i]? = some (.addSeedManager raw (.start id))) :
    Tracking { s with
      managers := s.managers.modify id ({ · with loop := .finding })
      calls := s.calls.set i (.addSeedManager raw .added) } := by
  obtain ⟨hraw, m, hm, hcreated⟩ := h.adding raw _ (List.mem_of_getElem? hi)
  constructor
  · intro raw' id' hlookup
    refine h.filed_modify id ?_ hlookup
    exact fun _ => rfl
  · refine h.received_modify id fun m' hm' => ?_
    cases hm.symm.trans hm'
    simpa [hcreated] using h.received m (List.mem_of_getElem? hm)
  · intro raw' stage hc
    obtain ⟨j, hj⟩ := List.mem_iff_getElem?.mp hc
    rcases getElem?_set_cases hj with hj' | ⟨-, heq⟩
    · have hstands := h.adding raw' stage (List.mem_of_getElem? hj')
      cases stage with
      | start id' =>
        obtain ⟨hraw', m', hm', hloop⟩ := hstands
        refine ⟨hraw', m', ?_, hloop⟩
        have hid : id ≠ id' := by
          rintro rfl
          obtain rfl := h.starters id j i _ _ hj' hi (by simp [starting]) (by simp [starting])
          rw [List.getElem?_set_self (List.getElem?_eq_some_iff.mp hi).1] at hj
          cases hj
        simp [hm', hid]
      | _ => exact hstands
    · cases heq
      exact hraw
  · exact fun id' => (h.starters id').set hi (by simp [starting])

/-! ## Steps -/

/-- A step of `AddSeedManager`. -/
theorem Tracking.addSeedManager (h : s.Tracking) {stage : Adding}
    (hi : s.calls[i]? = some (.addSeedManager raw stage)) (input : Input) :
    Tracking { (s.addSeedManager input raw stage).1 with
      calls := (s.addSeedManager input raw stage).1.calls.set i (s.addSeedManager input raw stage).2 } := by
  have hstage : ∀ stage', starting (.addSeedManager raw stage') = none → s.AddStands raw stage' →
      Tracking { s with calls := s.calls.set i (.addSeedManager raw stage') } := by
    intro stage' hstart hstands
    refine h.set hi (fun raw' stage'' heq => ?_) hstart
    cases heq
    exact hstands
  cases stage with
  | has =>
    by_cases hmem : raw ∈ s.seedManagers
    · simp only [Connections.addSeedManager, if_pos hmem]
      exact hstage .added rfl hmem
    · simp only [Connections.addSeedManager, if_neg hmem]
      exact hstage .load rfl trivial
  | load =>
    cases hok : input.ok
    · simp only [Connections.addSeedManager, hok]
      refine h.set hi (fun raw' stage heq => ?_) rfl
      cases heq
    · simp only [Connections.addSeedManager, hok]
      exact hstage .set rfl trivial
  | set => exact h.file hi
  | start id => exact h.start hi
  | added => exact hstage .added rfl (h.adding raw .added (List.mem_of_getElem? hi))

/-- A step of another call. -/
theorem Tracking.accessOther (h : s.Tracking) (hi : s.calls[i]? = some c) (hc : c.adding = false)
    (input : Input) :
    Tracking { (s.access input c).1 with
      calls := (s.access input c).1.calls.set i (s.access input c).2 } := by
  obtain ⟨hmanagers, hfiled, hadding⟩ := access_of_not_adding s input hc
  have hafter : (s.access input c).1.Tracking := by
    rcases calls_access s input c with heq | ⟨raw, heq⟩
    · exact h.of_same hmanagers hfiled heq
    · refine h.push hmanagers hfiled heq fun raw' stage hcall => ?_
      cases hcall
  obtain ⟨call, hcall⟩ : ∃ call, (s.access input c).1.calls[i]? = some call := by
    have hlt : i < s.calls.length := (List.getElem?_eq_some_iff.mp hi).1
    rcases calls_access s input c with heq | ⟨raw, heq⟩ <;> rw [heq]
    · exact ⟨c, hi⟩
    · exact ⟨c, by rw [List.getElem?_append_left hlt, hi]⟩
  refine hafter.set hcall (fun raw stage heq => ?_) (starting_of_not_adding hadding)
  rw [heq] at hadding
  cases hadding

theorem Tracking.step (h : s.Tracking) (e : Event) : (s.step e).Tracking := by
  cases e with
  | setPeer raw =>
    refine h.push rfl rfl rfl fun raw' stage heq => ?_
    cases heq
  | handleCloseConnection raw =>
    refine h.push rfl rfl rfl fun raw' stage heq => ?_
    cases heq
  | addSeedManager raw =>
    refine h.push rfl rfl rfl fun raw' stage heq => ?_
    cases heq
    rfl
  | updateSeen raw now => exact h.of_same rfl rfl rfl
  | advance i input =>
    cases hi : s.calls[i]? with
    | none => simpa only [Connections.step, hi] using h
    | some c =>
      simp only [Connections.step, hi]
      cases hc : c.adding with
      | false => exact h.accessOther hi hc input
      | true =>
        cases c with
        | addSeedManager raw stage => exact h.addSeedManager hi input
        | _ => cases hc
  | found id => exact h.proceed id (by simp) (by simp) (by simp)
  | tick id => exact h.proceed id (by simp) (by simp) (by simp)
  | receive id i =>
    cases hm : s.managers[id]? with
    | none => simpa only [Connections.step, hm] using h
    | some m =>
      cases hi : s.calls[i]? with
      | none => simpa only [Connections.step, hm, hi] using h
      | some c =>
        simp only [Connections.step, hm, hi]
        split_ifs with hwaits
        · obtain ⟨hloop, hwaits⟩ := hwaits
          obtain ⟨⟨gone, stage⟩, hclosing, -⟩ := Option.map_eq_some_iff.mp hwaits
          have hadding := Call.adding_resume hclosing none
          have hset : Tracking { s with calls := s.calls.set i (c.resume none) } := by
            refine h.set hi (fun raw stage heq => ?_) (starting_of_not_adding hadding)
            rw [heq] at hadding
            cases hadding
          -- the loop waits for a value, so that it has not received one
          refine hset.modify id ?_ (fun m' hm' hcreated => ?_) fun m' hm' => ?_
          · exact fun _ => rfl
          · cases hm.symm.trans hm'
            rw [hloop] at hcreated
            cases hcreated
          · cases hm.symm.trans hm'
            simpa [hloop] using h.received m (List.mem_of_getElem? hm)
        · exact h
  | configure n => exact h.of_same rfl rfl rfl

theorem tracking_empty (maxPeers : Int) : Tracking { maxPeers := maxPeers } where
  filed raw id hlookup := by
    rw [Finmap.lookup_empty] at hlookup
    cases hlookup
  received _ hm := absurd hm List.not_mem_nil
  adding _ _ hc := absurd hc List.not_mem_nil
  starters _ := atMostOne_nil

/-! ## Who is tracked -/

/-- Somebody looks for seeds of the peer with this address, and is found under it. -/
def Tracked (s : Connections) (raw : Bytes) : Prop :=
  ∃ id m, s.seedManagers.lookup raw = some id ∧ s.managers[id]? = some m ∧ m.track = raw ∧ m.loop ≠ .stopped

/-- The map is right, and so was each `AddSeedManager` that returned without an error. -/
structure Truthful (s : Connections) : Prop where
  keys : ∀ raw ∈ s.seedManagers, s.Tracked raw
  added : ∀ raw, .addSeedManager raw .added ∈ s.calls → s.Tracked raw

/-- The condition on an event: `HandleCloseConnection` does not find a seed manager. -/
def ClosesUntracked (s : Connections) : Event → Prop
  | .advance i _ => ∀ c ∈ s.calls[i]?, ∀ p ∈ c.closing, p.2 = .seedManagers → p.1 ∉ s.seedManagers
  | _ => True

/-- Nobody has told a loop to stop, or is about to. -/
structure Untold (s : Connections) : Prop where
  waiting : ∀ c ∈ s.calls, ∀ raw id, c.closing ≠ some (raw, .send id)
  loops : ∀ m ∈ s.managers, m.loop ≠ .stopped

theorem Tracking.truthful (h : s.Tracking) (hu : s.Untold) : s.Truthful := by
  have hkeys : ∀ raw ∈ s.seedManagers, s.Tracked raw := by
    intro raw hraw
    obtain ⟨id, hid⟩ := Finmap.mem_iff.mp hraw
    obtain ⟨m, hm, htrack⟩ := h.filed raw id hid
    exact ⟨id, m, hid, hm, htrack, hu.loops m (List.mem_of_getElem? hm)⟩
  exact ⟨hkeys, fun raw hc => hkeys raw (h.adding raw .added hc)⟩

theorem Untold.push (h : s.Untold) (hc : ∀ raw id, c.closing ≠ some (raw, .send id)) : (s.start c).Untold where
  waiting d hd := by
    rcases List.mem_append.mp hd with hd | hd
    · exact h.waiting d hd
    · rw [List.mem_singleton.mp hd]
      exact hc
  loops := h.loops

theorem Untold.modify (h : s.Untold) (id : Nat) {f : SeedManager → SeedManager}
    (hf : ∀ m, m.loop ≠ .stopped → (f m).loop ≠ .stopped) :
    ∀ m ∈ s.managers.modify id f, m.loop ≠ .stopped := by
  intro m' hm'
  obtain ⟨j, hj⟩ := List.mem_iff_getElem?.mp hm'
  rw [List.getElem?_modify] at hj
  obtain ⟨m, hm, rfl⟩ := Option.map_eq_some_iff.mp hj
  have hloop := h.loops m (List.mem_of_getElem? hm)
  split_ifs
  · exact hf m hloop
  · exact hloop

theorem Untold.proceed (h : s.Untold) (id : Nat) (source : Loop) {target : Loop} (htarget : target ≠ .stopped) :
    (s.proceed id source target).Untold := by
  refine ⟨h.waiting, h.modify id fun m hm => ?_⟩
  split_ifs
  · exact htarget
  · exact hm

/-- No access tells a loop to stop. -/
theorem Untold.managers_access (h : s.Untold) (input : Input) (c : Call) :
    ∀ m ∈ (s.access input c).1.managers, m.loop ≠ .stopped := by
  cases hc : c.adding with
  | false =>
    rw [(access_of_not_adding s input hc).1]
    exact h.loops
  | true =>
    cases c with
    | addSeedManager raw stage =>
      cases stage with
      | set =>
        intro m hm
        rcases List.mem_append.mp hm with hm | hm
        · exact h.loops m hm
        · rw [List.mem_singleton.mp hm]
          simp
      | start id => exact h.modify id (by simp)
      | _ => exact h.loops
    | _ => cases hc

theorem Untold.step (h : s.Untold) {e : Event} (hc : s.ClosesUntracked e) : (s.step e).Untold := by
  cases e with
  | setPeer raw => exact h.push (by simp [Call.closing])
  | handleCloseConnection raw => exact h.push (by simp [Call.closing])
  | addSeedManager raw => exact h.push (by simp [Call.closing])
  | updateSeen raw now => exact ⟨h.waiting, h.loops⟩
  | advance i input =>
    cases hi : s.calls[i]? with
    | none => simpa only [Connections.step, hi] using h
    | some c =>
      simp only [Connections.step, hi]
      refine ⟨fun d hd raw id hclosing => ?_, h.managers_access input c⟩
      rcases List.mem_or_eq_of_mem_set hd with hd | rfl
      · rcases calls_access s input c with heq | ⟨raw', heq⟩ <;> rw [heq] at hd
        · exact h.waiting d hd raw id hclosing
        · rcases List.mem_append.mp hd with hd | hd
          · exact h.waiting d hd raw id hclosing
          · rw [List.mem_singleton.mp hd] at hclosing
            cases hclosing
      · rcases closing_access hclosing with hwaits | ⟨hfinds, hlookup⟩
        · exact h.waiting c (List.mem_of_getElem? hi) raw id hwaits
        · exact hc c hi _ hfinds rfl (Finmap.mem_of_lookup_eq_some hlookup)
  | found id => exact h.proceed id _ (by simp)
  | tick id => exact h.proceed id _ (by simp)
  | receive id i =>
    cases hm : s.managers[id]? with
    | none => simpa only [Connections.step, hm] using h
    | some m =>
      cases hi : s.calls[i]? with
      | none => simpa only [Connections.step, hm, hi] using h
      | some c =>
        simp only [Connections.step, hm, hi]
        split_ifs with hwaits
        · obtain ⟨⟨gone, stage⟩, hclosing, rfl⟩ := Option.map_eq_some_iff.mp hwaits.2
          exact absurd hclosing (h.waiting c (List.mem_of_getElem? hi) gone id)
        · exact h
  | configure n => exact ⟨h.waiting, h.loops⟩

theorem untold_empty (maxPeers : Int) : Untold { maxPeers := maxPeers } where
  waiting _ hc := absurd hc List.not_mem_nil
  loops _ hm := absurd hm List.not_mem_nil

/-- **Who is tracked.** In every run, at most one value is received on the `Close` channel of a seed manager. If
no `HandleCloseConnection` finds a seed manager, then in each state of the run every key of `seedManagers` is
tracked by a loop that has not been told to stop, and so is every address for which `AddSeedManager` has
reported success. -/
theorem seedManagers_truthful (maxPeers : Int) (evs : List Event) :
    (∀ pre post, evs = pre ++ post → ∀ m ∈ (run step { maxPeers := maxPeers } pre).managers, m.received ≤ 1) ∧
      (Always step ClosesUntracked { maxPeers := maxPeers } evs →
        ∀ pre post, evs = pre ++ post → (run step { maxPeers := maxPeers } pre).Truthful) := by
  have htracking : ∀ pre, (run step { maxPeers := maxPeers } pre).Tracking :=
    run_invariant (tracking_empty maxPeers) fun s e h => h.step e
  constructor
  · intro pre post _ m hm
    rw [(htracking pre).received m hm]
    split_ifs <;> simp
  · rintro hclosed pre post rfl
    refine (htracking pre).truthful (hclosed.left.invariant (untold_empty maxPeers) ?_)
    exact fun s e h hc => h.step hc

/-! ## A seed manager that is closed -/

instance (s : Connections) : DecidablePred s.ClosesUntracked
  | .advance i _ =>
    inferInstanceAs (Decidable (∀ c ∈ s.calls[i]?, ∀ p ∈ c.closing, p.2 = .seedManagers → p.1 ∉ s.seedManagers))
  | .setPeer _ | .handleCloseConnection _ | .addSeedManager _ | .updateSeen _ _ | .found _ | .tick _ | .receive _ _
  | .configure _ => isTrue trivial

/-- `AddSeedManager` for an address that has no seed manager yet. -/
def callAddSeedManager (i : Nat) (raw : Bytes) : List Event :=
  .addSeedManager raw :: List.replicate 4 (.advance i {})

/-- A peer is tracked, and the connection of another one is closed. -/
def sampleTracked : List Event :=
  callAddSeedManager 0 [1] ++ [.found 0, .handleCloseConnection [2], .advance 1 {}, .advance 1 {}, .advance 1 {}]

theorem seedManagers_truthful_sample :
    [1] ∈ (run step { maxPeers := 1 } sampleTracked).seedManagers ∧
      (run step { maxPeers := 1 } sampleTracked).Tracked [1] := by
  have hmem : [1] ∈ (run step { maxPeers := 1 } sampleTracked).seedManagers := by decide +kernel
  refine ⟨hmem, ((seedManagers_truthful 1 sampleTracked).2 ?_ sampleTracked [] ?_).keys [1] hmem⟩
  · decide +kernel
  · exact (List.append_nil _).symm

/-- A peer is tracked, its connection is closed, and it is to be tracked again. -/
def sampleClosed : List Event :=
  callAddSeedManager 0 [1] ++ [.found 0, .handleCloseConnection [1], .advance 1 {}, .advance 1 {}, .advance 1 {},
    .receive 0 1, .addSeedManager [1], .advance 2 {}]

/-- The second `AddSeedManager` reports success, but the only seed manager there is has been told to stop. -/
theorem closed_seedManager_stays :
    [1] ∈ (run step { maxPeers := 1 } sampleClosed).seedManagers ∧
      (run step { maxPeers := 1 } sampleClosed).calls[2]? = some (.addSeedManager [1] .added) ∧
      (run step { maxPeers := 1 } sampleClosed).managers = [⟨[1], .stopped, 1⟩] := by
  decide +kernel

end Zif.Node.Connections
