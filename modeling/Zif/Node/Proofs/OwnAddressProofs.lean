import Zif.Node.Writers

/-!
# Proofs: the own address stays

No call changes the address a store belongs to.
-/

namespace Zif.Dht.NetDB

open Go

variable {P : Prims}

theorem insertIntoTable_addr {ndb ndb' : NetDB} {a : Address} (h : ndb.insertIntoTable a = .ok ndb') :
    ndb'.addr = ndb.addr := by
  unfold insertIntoTable at h
  cases ht : Table.insertIntoTable ndb.addr ndb.table a with
  | error f =>
    rw [ht] at h
    cases h
  | ok table =>
    rw [ht] at h
    cases h
    rfl

theorem update_addr {ndb ndb' : NetDB} {e : Entry} {affected : Nat}
    (h : ndb.update P e = .ok (ndb', affected)) : ndb'.addr = ndb.addr := by
  unfold update at h
  cases hv : e.verify P with
  | error f =>
    rw [hv] at h
    cases h
  | ok =>
    rw [hv] at h
    cases hu : ndb.db.updateEntry P (e.address.string P) e with
    | error f =>
      simp only [hu] at h
      cases h
    | ok r =>
      simp only [hu] at h
      cases h
      rfl

theorem insert_addr (ndb : NetDB) (e : Entry) : (ndb.insert P e).1.addr = ndb.addr := by
  unfold insert
  split
  · rfl
  · split
    · rfl
    · next ndb₁ htable =>
      have h₁ := insertIntoTable_addr htable
      split
      · exact h₁
      · next ndb₂ affected hupdate =>
        have h₂ := (update_addr hupdate).trans h₁
        split
        · exact h₂
        · split
          · exact h₂
          · exact h₂

theorem query_addr (ndb : NetDB) (a : Address) : (ndb.query P a).1.addr = ndb.addr := by
  unfold query
  split
  · rfl
  · rfl
  · split
    · rfl
    · next htable => exact insertIntoTable_addr htable

theorem rangeQuery_addr (limit : Option Nat) (as : Slice) (todo n : Nat) (ndb : NetDB)
    (ret : List (Option Entry)) : (rangeQuery P limit as todo n ndb ret).1.addr = ndb.addr := by
  induction todo generalizing n ndb ret with
  | zero => rfl
  | succ todo ih =>
    unfold rangeQuery
    split
    · rfl
    · split
      · rfl
      · next i hi =>
        have hquery := query_addr (P := P) ndb i
        split
        · next h => rwa [h] at hquery
        · next h =>
          rw [h] at hquery
          exact (ih _ _ _).trans hquery
        · next h =>
          rw [h] at hquery
          exact (ih _ _ _).trans hquery

theorem scanBucket_addr (ndb : NetDB) (i : Nat) (ret : List (Option Entry)) :
    (ndb.scanBucket P i ret).1.addr = ndb.addr := by
  unfold scanBucket
  split
  · rfl
  · exact rangeQuery_addr _ _ _ _ _ _

theorem scanStep_addr (bits index i : Nat) (ndb : NetDB) (ret : List (Option Entry)) :
    (ndb.scanStep P bits index i ret).1.addr = ndb.addr := by
  have hleft : (if i ≤ index then ndb.scanBucket P (index - i) ret else (ndb, .ok ret)).1.addr = ndb.addr := by
    split
    · exact scanBucket_addr _ _ _
    · rfl
  unfold scanStep
  simp only
  split
  · next h => rwa [h] at hleft
  · next h =>
    rw [h] at hleft
    split
    · exact (scanBucket_addr _ _ _).trans hleft
    · exact hleft

theorem scan_addr (bits index fuel i : Nat) (ndb : NetDB) (ret : List (Option Entry)) :
    (scan P bits index fuel i ndb ret).1.addr = ndb.addr := by
  induction fuel generalizing i ndb ret with
  | zero => rfl
  | succ fuel ih =>
    unfold scan
    split
    · have hstep := scanStep_addr (P := P) bits index i ndb ret
      split
      · next h => rwa [h] at hstep
      · next h =>
        rw [h] at hstep
        exact (ih _ _ _).trans hstep
    · rfl

theorem findClosest_addr (ndb : NetDB) (a : Address) : (ndb.findClosest P a).1.addr = ndb.addr := by
  unfold findClosest
  split
  · rfl
  · split
    · rfl
    · split
      · exact rangeQuery_addr _ _ _ _ _ _
      · exact scan_addr _ _ _ _ _ _

end Zif.Dht.NetDB

namespace Zif.Node

open Go Dht

variable {P : Prims}

theorem dropError_addr {α : Type} (call : NetDB × Result α) : (dropError call).1.addr = call.1.addr := by
  unfold dropError
  split <;> rfl

theorem explore_addr (ndb : NetDB) (i : Entry) : (explore P ndb i).1.addr = ndb.addr := by
  have hquery := NetDB.query_addr (P := P) ndb i.address
  unfold explore
  split
  · next h => rwa [h] at hquery
  · next h => rwa [h] at hquery
  · next ndb' current h =>
    rw [h] at hquery
    have hinsert : (dropError (ndb'.insert P i)).1.addr = ndb.addr := by
      rw [dropError_addr, NetDB.insert_addr, hquery]
    split
    · exact hquery
    · split
      · exact hinsert
      · split
        · exact hinsert
        · split
          · exact hinsert
          · exact hquery

theorem handleHandshake_addr (ndb : NetDB) (header : Entry) (cookie signature : Bytes) (reply : Entry) :
    (handleHandshake P ndb header cookie signature reply).1.addr = ndb.addr := by
  unfold handleHandshake
  split
  · rfl
  · split
    · rfl
    · rw [dropError_addr, NetDB.insert_addr]

theorem connect_addr (ndb : NetDB) (header : Entry) (cookie signature : Bytes) :
    (connect P ndb header cookie signature).1.addr = ndb.addr := by
  unfold connect
  split
  · rfl
  · rw [dropError_addr, NetDB.insert_addr]

theorem bootstrapPeer_addr (ndb : NetDB) (i : Option Entry) :
    (bootstrapPeer P ndb i).1.addr = ndb.addr := by
  unfold bootstrapPeer
  split
  · rfl
  · next i =>
    have hinsert := NetDB.insert_addr (P := P) ndb i
    split
    · rfl
    · split
      · rfl
      · rfl
      · split
        · next h => rwa [h] at hinsert
        · next h => rwa [h] at hinsert

theorem handleAnnounce_addr (ndb : NetDB) (e : Entry) : (handleAnnounce P ndb e).1.addr = ndb.addr := by
  have hinsert := NetDB.insert_addr (P := P) ndb e
  unfold handleAnnounce
  split
  · next h =>
    rw [h] at hinsert
    split <;> exact hinsert
  · next h => rwa [h] at hinsert
  · next h => rwa [h] at hinsert

theorem step_addr (ndb : NetDB) (ev : Event) : (step P ndb ev).addr = ndb.addr := by
  cases ev with
  | announce e => exact handleAnnounce_addr ndb e
  | handshake header cookie signature reply => exact handleHandshake_addr ndb header cookie signature reply
  | connect header cookie signature => exact connect_addr ndb header cookie signature
  | bootstrap i => exact bootstrapPeer_addr ndb i
  | explore i => exact explore_addr ndb i

end Zif.Node
