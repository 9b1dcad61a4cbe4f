import Zif.Node.Proofs.AddPostProofs

/-!
# Proofs: the count of posts

`AddPost` counts the post before it is inserted, drops the error of the insertion, and takes the last
rowid of the connection for the id of the post. So the entry counts the posts of the database after a
call exactly when `Valid` refused the post or a row was added (`counted_addPost_iff`). With a row added
the id is that of the new row, whatever becomes of the collection and the entry after that.
-/

namespace Zif.Node.LocalPeer

open Go Dht Data

variable {P : Prims} {grow : Nat → Nat} {lp : LocalPeer} {c : AddCall}

/-! ## Posts that are refused -/

theorem valid_cases (p : Post) (now : Int64) :
    (140 < p.title.length ∨ now < p.uploadDate) ∧ (∃ err, p.valid now = .error (.error err)) ∨
      ¬ (140 < p.title.length ∨ now < p.uploadDate) ∧ p.valid now = .ok () := by
  unfold Post.valid
  by_cases htitle : p.title.length > 140
  · rw [if_pos htitle]
    exact .inl ⟨.inl htitle, _, rfl⟩
  · rw [if_neg htitle]
    by_cases hdate : p.uploadDate > now
    · rw [if_pos hdate]
      exact .inl ⟨.inr hdate, _, rfl⟩
    · rw [if_neg hdate]
      exact .inr ⟨not_or.mpr ⟨htitle, hdate⟩, rfl⟩

theorem addPost_of_error {f : Fault} (h : c.post.valid c.checkedAt = .error f) :
    lp.addPost P grow c = (lp, .error f) := by
  rw [addPost, h]

/-! ## Posts that are not -/

theorem indexPost_of_fails {err : String} (hins : c.insertFails = some err) :
    (lp.indexPost P grow c).1.database = lp.database := by
  unfold indexPost Database.insertPost
  rw [hins]
  simp only
  split
  · rfl
  · split <;> rfl

/-- The count is one more, whether there is a row more or not. -/
theorem indexPost_postCount (P : Prims) (grow : Nat → Nat) (lp : LocalPeer) (c : AddCall) :
    (lp.indexPost P grow c).1.entry.postCount = lp.entry.postCount + 1 := by
  unfold indexPost
  split
  simp only
  split
  · rfl
  · split <;> rfl

theorem addPost_result {id : Int64} (hvalid : c.post.valid c.checkedAt = .ok ())
    (h : (lp.addPost P grow c).2 = .ok id) : (lp.indexPost P grow c).2 = .ok id := by
  unfold addPost at h
  rw [hvalid] at h
  rcases hidx : lp.indexPost P grow c with ⟨lp₁, _ | id₁⟩
  · simp [hidx] at h
  · simp only [hidx] at h ⊢
    split at h
    · cases h
    · split at h
      · cases h
      · exact h

/-- The rows after a call that is not refused: one more if the post is new to the database. -/
theorem rows_addPost (grow : Nat → Nat) (lp : LocalPeer) (hvalid : c.post.valid c.checkedAt = .ok ()) :
    (c.insertFails = none ∧ ∀ r ∈ lp.database.rows, r.infoHash ≠ P.store c.post.infoHash) ∧
        (lp.addPost P grow c).1.database.rows =
          lp.database.rows ++ [c.post.toRow P lp.database.nextId] ∨
      ¬ (c.insertFails = none ∧ ∀ r ∈ lp.database.rows, r.infoHash ≠ P.store c.post.infoHash) ∧
        (lp.addPost P grow c).1.database.rows = lp.database.rows := by
  rw [unsigned_database.addPost P grow lp hvalid]
  cases hins : c.insertFails with
  | some err => exact .inr ⟨by simp, by rw [indexPost_of_fails hins]⟩
  | none =>
    rw [indexPost_database P grow lp hins]
    rcases Database.insert_cases P lp.database c.post with ⟨⟨r, hr, heq⟩, hdb⟩ | ⟨hnew, hdb⟩
    · exact .inr ⟨fun h => h.2 r hr heq, by rw [hdb]⟩
    · exact .inl ⟨⟨rfl, hnew⟩, by rw [hdb]⟩

/-- The id that is returned for a new row is the one it has. -/
theorem addPost_id {id : Int64} (hvalid : c.post.valid c.checkedAt = .ok ())
    (hins : c.insertFails = none)
    (hnew : ∀ r ∈ lp.database.rows, r.infoHash ≠ P.store c.post.infoHash)
    (h : (lp.addPost P grow c).2 = .ok id) : id = lp.database.nextId := by
  rw [indexPost_id hins (addPost_result hvalid h), Database.insert_of_not_mem hnew]

/-! ## The count -/

/-- Counting a post is right exactly when there is a row more. -/
theorem counted_addPost_iff (grow : Nat → Nat) (h : lp.Counted) :
    (lp.addPost P grow c).1.Counted ↔ RefusedOrNew P lp c := by
  rcases valid_cases c.post c.checkedAt with ⟨hrefused, err, hvalid⟩ | ⟨hnot, hvalid⟩
  · rw [addPost_of_error hvalid]
    exact ⟨fun _ => .inl hrefused, fun _ => h⟩
  · have hcount : (lp.addPost P grow c).1.entry.postCount = Int64.ofNat lp.database.rows.length + 1 := by
      rw [unsigned_postCount.addPost P grow lp hvalid, indexPost_postCount, h]
    rw [Counted, hcount]
    rcases rows_addPost grow lp hvalid with ⟨hnew, hrows⟩ | ⟨hold, hrows⟩
    · refine ⟨fun _ => .inr hnew, fun _ => ?_⟩
      rw [hrows, List.length_append, Int64.ofNat_add]
      rfl
    · rw [hrows]
      refine ⟨fun heq => absurd heq (by simp), fun hcond => ?_⟩
      exact absurd hcond (not_or.mpr ⟨hnot, hold⟩)

theorem RefusedOrNew.consistent (h : RefusedOrNew P lp c) (grow : Nat → Nat) (hcount : lp.Counted) :
    Consistent P grow lp c := by
  have hcounted := (counted_addPost_iff grow hcount).mpr h
  rcases valid_cases c.post c.checkedAt with ⟨-, err, hvalid⟩ | ⟨hnot, hvalid⟩
  · have hadd : lp.addPost P grow c = (lp, .error (.error err)) := addPost_of_error hvalid
    refine ⟨hcounted, fun _ => ?_, fun id hid => ?_⟩
    · rw [hadd]
      exact ⟨⟨err, rfl⟩, rfl, rfl⟩
    · rw [hadd] at hid
      cases hid
  · obtain ⟨hins, hnew⟩ := h.resolve_left hnot
    have hrows : (lp.addPost P grow c).1.database.rows =
        lp.database.rows ++ [c.post.toRow P lp.database.nextId] := by
      rcases rows_addPost grow lp hvalid with ⟨-, hrows⟩ | ⟨hold, -⟩
      · exact hrows
      · exact absurd ⟨hins, hnew⟩ hold
    refine ⟨hcounted, fun hsame => ?_, fun id hid => ?_⟩
    · rw [hrows] at hsame
      exact absurd hsame (by simp)
    · rw [hrows]
      exact ⟨_, List.mem_append_right _ List.mem_cons_self,
        (addPost_id hvalid hins hnew hid).symm, rfl⟩

/-- A call leaves the count, the entry, the collection and the database consistent exactly when the
post is refused or becomes a new row. -/
theorem addPost_consistent_iff (P : Prims) (grow : Nat → Nat) (lp : LocalPeer) (c : AddCall)
    (h : lp.Counted) : Consistent P grow lp c ↔ RefusedOrNew P lp c :=
  ⟨fun hcons => (counted_addPost_iff grow h).mp hcons.counted, fun hcond => hcond.consistent grow h⟩

/-- The theorem at the first post of a peer. -/
theorem addPost_consistent_iff_first :
    samplePeer.Counted ∧
      (Consistent .sample id samplePeer (sampleCall 0) ↔
        RefusedOrNew .sample samplePeer (sampleCall 0)) :=
  ⟨rfl, addPost_consistent_iff .sample id samplePeer (sampleCall 0) rfl⟩

/-- Two posts are published. Publishing the first of them again returns the id of the second without an
error, and there are three posts by the count. A post the engine fails to insert is counted as well,
and the call panics. -/
theorem unstored_post_counted :
    let two := Runs.run (step .sample id) samplePeer [sampleCall 0, sampleCall 1]
    let fails := { sampleCall 2 with insertFails := some "disk I/O error" }
    two.Counted ∧
      ((two.addPost .sample id (sampleCall 0)).2 = .ok 2 ∧
        (two.addPost .sample id (sampleCall 0)).1.entry.postCount = 3 ∧
        (two.addPost .sample id (sampleCall 0)).1.database = two.database ∧
        two.database.rows.map (fun r => (r.id, r.infoHash)) =
          [(1, Prims.sample.store (sampleCall 0).post.infoHash),
            (2, Prims.sample.store (sampleCall 1).post.infoHash)] ∧
        (sampleCall 0).post.infoHash ≠ (sampleCall 1).post.infoHash) ∧
      ((two.addPost .sample id fails).2 = .error .panic ∧
        (two.addPost .sample id fails).1.entry.postCount = 3 ∧
        (two.addPost .sample id fails).1.database = two.database) ∧
      ¬ Consistent .sample id two (sampleCall 0) ∧ ¬ Consistent .sample id two fails := by
  intro two fails
  have hcounted : two.Counted := by decide +kernel
  have hcond : ¬ RefusedOrNew .sample two (sampleCall 0) ∧ ¬ RefusedOrNew .sample two fails := by
    decide +kernel
  refine ⟨hcounted, by decide +kernel, by decide +kernel, ?_, ?_⟩
  · exact fun h => hcond.1 ((counted_addPost_iff id hcounted).mp h.counted)
  · exact fun h => hcond.2 ((counted_addPost_iff id hcounted).mp h.counted)

end Zif.Node.LocalPeer
