import Zif.Node.Connections

/-!
# Proofs: calls

What the parts of a call have to do with each other: the `HandleCloseConnection` it is in and how it goes on.
-/

namespace Zif.Node

open Go

theorem shard_lt (key : Bytes) : shard key < shardCount := Nat.mod_lt _ (by decide)

namespace Call

variable {call : Call} {gone : Bytes} {stage : Closing}

/-- The callers of `HandleCloseConnection`. -/
theorem closing_eq_some (h : call.closing = some (gone, stage)) :
    (∃ raw, call = setPeer raw (.evict gone stage)) ∨ call = handleCloseConnection gone stage ∨
      call = heartbeatPeer gone (.close stage) ∨ call = heartbeatPeer gone (.deferred stage) := by
  cases call with
  | setPeer raw at' =>
    cases at' <;> cases h
    exact .inl ⟨raw, rfl⟩
  | handleCloseConnection raw at' =>
    cases h
    exact .inr (.inl rfl)
  | heartbeatPeer raw at' =>
    cases at' <;> cases h
    · exact .inr (.inr (.inl rfl))
    · exact .inr (.inr (.inr rfl))
  | addSeedManager raw at' => cases h
  | returned => cases h

theorem closing_resume_some (h : call.closing = some (gone, stage)) (stage' : Closing) :
    (call.resume (some stage')).closing = some (gone, stage') := by
  rcases closing_eq_some h with ⟨raw, rfl⟩ | rfl | rfl | rfl <;> rfl

/-- When `HandleCloseConnection` returns, the call is in no other one or at the start of the next. -/
theorem closing_resume_none (h : call.closing = some (gone, stage)) :
    (call.resume none).closing = none ∨ (call.resume none).closing = some (gone, .peers) := by
  rcases closing_eq_some h with ⟨raw, rfl⟩ | rfl | rfl | rfl
  · exact .inl rfl
  · exact .inl rfl
  · exact .inr rfl
  · exact .inl rfl

theorem setting_resume (h : call.closing = some (gone, stage)) (next : Option Closing) :
    (call.resume next).setting = call.setting := by
  rcases closing_eq_some h with ⟨raw, rfl⟩ | rfl | rfl | rfl <;> cases next <;> rfl

/-- An `AddSeedManager`, under way or successful. -/
def adding : Call → Bool
  | addSeedManager _ _ => true
  | _ => false

theorem adding_resume (h : call.closing = some (gone, stage)) (next : Option Closing) :
    (call.resume next).adding = false := by
  rcases closing_eq_some h with ⟨raw, rfl⟩ | rfl | rfl | rfl <;> cases next <;> rfl

end Call

namespace Connections

variable {s : Connections} {input : Input} {call : Call}

/-- An access leaves the other calls alone, and may start a heartbeat. -/
theorem calls_access (s : Connections) (input : Input) (call : Call) :
    (s.access input call).1.calls = s.calls ∨
      ∃ raw, (s.access input call).1.calls = s.calls ++ [.heartbeatPeer raw .waiting] := by
  unfold access
  split
  · rename_i raw stage _
    cases stage <;> exact .inl rfl
  · split
    · rename_i raw stage _
      cases stage with
      | count next total =>
        simp only [Connections.setPeer]
        split_ifs
        exacts [.inl rfl, .inl rfl, .inr ⟨raw, rfl⟩]
      | scan now unread channel oldestKey =>
        simp only [Connections.setPeer]
        split_ifs <;> exact .inl rfl
      | get oldestKey =>
        simp only [Connections.setPeer]
        split_ifs
        exacts [.inl rfl, .inr ⟨raw, rfl⟩]
      | _ => exact .inl rfl
    · exact .inl rfl
    · rename_i raw stage _
      cases stage <;> exact .inl rfl
    · exact .inl rfl

/-- No call becomes a `SetPeer`. -/
theorem setting_access (h : (s.access input call).2.setting) : call.setting := by
  unfold access at h
  rcases hclosing : call.closing with _ | ⟨gone, stage⟩
  rotate_left
  · rw [hclosing] at h
    rwa [← Call.setting_resume hclosing]
  · rw [hclosing] at h
    cases call with
    | setPeer raw stage => rfl
    | handleCloseConnection raw stage => cases hclosing
    | heartbeatPeer raw stage => cases stage <;> cases h
    | addSeedManager raw stage =>
      exfalso
      cases stage with
      | load =>
        simp only [addSeedManager] at h
        split_ifs at h <;> cases h
      | _ => cases h
    | returned => exact h

/-- Only `AddSeedManager` has to do with the seed managers. -/
theorem access_of_not_adding (s : Connections) (input : Input) (h : call.adding = false) :
    (s.access input call).1.managers = s.managers ∧ (s.access input call).1.seedManagers = s.seedManagers ∧
      (s.access input call).2.adding = false := by
  unfold access
  rcases hclosing : call.closing with _ | ⟨gone, stage⟩
  · cases call with
    | setPeer raw stage =>
      cases stage with
      | has => by_cases hmem : raw ∈ s.peers <;> simp [Connections.setPeer, hmem, Call.adding]
      | entry => cases hok : input.ok <;> simp [Connections.setPeer, hok, Call.adding]
      | count next total =>
        simp only [Connections.setPeer]
        split_ifs <;> exact ⟨rfl, rfl, rfl⟩
      | scan now unread channel oldestKey =>
        simp only [Connections.setPeer]
        split_ifs <;> exact ⟨rfl, rfl, rfl⟩
      | get oldestKey =>
        simp only [Connections.setPeer]
        split_ifs <;> exact ⟨rfl, rfl, rfl⟩
      | _ => exact ⟨rfl, rfl, rfl⟩
    | handleCloseConnection raw stage => cases hclosing
    | heartbeatPeer raw stage => exact ⟨rfl, rfl, by cases stage <;> rfl⟩
    | addSeedManager raw stage => cases h
    | returned => exact ⟨rfl, rfl, rfl⟩
  · refine ⟨?_, ?_, Call.adding_resume hclosing _⟩ <;> cases stage <;> rfl

/-- A call that is in no `HandleCloseConnection` can only be at the start of one after its next access. -/
theorem closing_access_of_none (h : call.closing = none) :
    (s.access input call).2.closing = none ∨ ∃ raw, (s.access input call).2.closing = some (raw, .peers) := by
  unfold access
  rw [h]
  cases call with
  | setPeer raw stage =>
    cases stage with
    | has =>
      left
      by_cases hmem : raw ∈ s.peers <;> simp [Connections.setPeer, hmem, Call.closing]
    | entry =>
      left
      cases hok : input.ok <;> simp [Connections.setPeer, hok, Call.closing]
    | count next total =>
      left
      simp only [Connections.setPeer]
      split_ifs <;> rfl
    | scan now unread channel oldestKey =>
      left
      simp only [Connections.setPeer]
      split_ifs <;> rfl
    | get oldestKey =>
      simp only [Connections.setPeer]
      split_ifs
      · exact .inr ⟨oldestKey, rfl⟩
      · exact .inl rfl
    | evict oldest stage => cases h
    | _ => exact .inl rfl
  | handleCloseConnection raw stage => cases h
  | heartbeatPeer raw stage =>
    cases stage with
    | has => by_cases hmem : raw ∈ s.peers <;> simp [Connections.heartbeatPeer, hmem, Call.closing]
    | ping => cases hok : input.ok <;> simp [Connections.heartbeatPeer, hok, Call.closing]
    | waiting => exact .inl rfl
    | close stage => cases h
    | deferred stage => cases h
  | addSeedManager raw stage =>
    left
    cases stage with
    | load => cases hok : input.ok <;> simp [Connections.addSeedManager, hok, Call.closing]
    | _ => rfl
  | returned => exact .inl rfl

/-- A call waits for a seed manager when it has found it. -/
theorem closing_access {raw : Bytes} {id : Nat} (h : (s.access input call).2.closing = some (raw, .send id)) :
    call.closing = some (raw, .send id) ∨
      call.closing = some (raw, .seedManagers) ∧ s.seedManagers.lookup raw = some id := by
  rcases hclosing : call.closing with _ | ⟨gone, stage⟩
  · rcases closing_access_of_none hclosing with hnone | ⟨raw', hsome⟩
    · cases hnone.symm.trans h
    · cases hsome.symm.trans h
  · unfold access at h
    rw [hclosing] at h
    cases stage with
    | peers => cases (Call.closing_resume_some hclosing _).symm.trans h
    | peerSeen => cases (Call.closing_resume_some hclosing _).symm.trans h
    | seedManagers =>
      rcases hlookup : s.seedManagers.lookup gone with _ | id'
      · simp only [handleCloseConnection, hlookup, Option.map_none] at h
        rcases Call.closing_resume_none hclosing with hnone | hsome
        · cases hnone.symm.trans h
        · cases hsome.symm.trans h
      · simp only [handleCloseConnection, hlookup, Option.map_some] at h
        cases (Call.closing_resume_some hclosing _).symm.trans h
        exact .inr ⟨rfl, hlookup⟩
    | send id' =>
      cases (Call.closing_resume_some hclosing _).symm.trans h
      exact .inl rfl

end Connections

end Zif.Node
