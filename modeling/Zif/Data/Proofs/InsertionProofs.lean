import Zif.Data.Insertion
import Zif.Data.Proofs.HistoryProofs

/-!
# Proofs: storing pieces on an engine that can fail

The loop is left in one of four ways: after the last piece, at an `Exec`, at a `Commit` or at a `Begin`
(`Stops`). Up to there the open transaction has every post that was sent to the engine, and what has been
committed is a number of whole pieces.

The deferred function commits whatever is in the transaction, also the part of a piece in which an `Exec` has
failed, and replaces the error by the result of `GenerateFts`. If a `Begin` between two transactions has
failed there is no transaction to commit, and it panics.
-/

namespace Zif.Data.Insertion

open Go

variable {P : Prims} {eng : Engine} {db : Database} {s s' : Insertion} {posts more : List Post}
  {pieces before : List Piece}

/-! ## A run in which nothing has failed yet -/

/-- No `Begin`, `Commit` or `Exec` has failed. -/
structure Quiet (eng : Engine) (s : Insertion) : Prop where
  beginTx : ∀ k < s.begins, eng.beginTx k = none
  commit : ∀ k < s.commits, eng.commit k = none
  exec : ∀ k < s.execs, eng.exec k = none

/-- The open transaction has the posts that were sent to the engine. -/
structure Going (P : Prims) (eng : Engine) (db : Database) (s : Insertion) (posts : List Post) : Prop where
  tx : s.tx = .active (db.insertAll P posts)
  execs : s.execs = posts.length
  quiet : s.Quiet eng

/-- The last `Exec` has failed. -/
structure ExecFailed (P : Prims) (eng : Engine) (db : Database) (s : Insertion) (posts : List Post) :
    Prop where
  tx : s.tx = .active (db.insertAll P posts)
  execs : s.execs = posts.length + 1
  failed : (eng.exec posts.length).isSome
  beginTx : ∀ k < s.begins, eng.beginTx k = none

theorem forall_lt_succ_of {f : Nat → Option String} {n : Nat} (h : ∀ k < n, f k = none) (hn : f n = none) :
    ∀ k < n + 1, f k = none := by
  intro k hk
  rcases Nat.lt_succ_iff_lt_or_eq.mp hk with hk | rfl
  · exact h k hk
  · exact hn

/-! ## The posts of a piece -/

theorem Going.exec (h : Going P eng db s posts) (post : Post) :
    (∃ s', s.exec P eng post = (s', .ok ()) ∧ Going P eng db s' (posts ++ [post]) ∧
        s'.committed = s.committed) ∨
      ∃ s' err, s.exec P eng post = (s', .error (.error err)) ∧ ExecFailed P eng db s' posts ∧
        s'.committed = s.committed := by
  unfold Insertion.exec
  rw [h.tx]
  cases hexec : eng.exec s.execs with
  | some err =>
    refine .inr ⟨_, err, rfl, ⟨rfl, by rw [h.execs], ?_, h.quiet.beginTx⟩, rfl⟩
    rw [← h.execs, hexec]
    rfl
  | none =>
    refine .inl ⟨_, rfl, ⟨?_, ?_, h.quiet.beginTx, h.quiet.commit, forall_lt_succ_of h.quiet.exec hexec⟩, rfl⟩
    · rw [Database.insertAll_append]
      rfl
    · simp [h.execs]

theorem Going.execAll (h : Going P eng db s posts) (more : List Post) :
    (∃ s', s.execAll P eng more = (s', .ok ()) ∧ Going P eng db s' (posts ++ more) ∧
        s'.committed = s.committed) ∨
      ∃ s' err pre post, s.execAll P eng more = (s', .error (.error err)) ∧ more = pre ++ post ∧
        ExecFailed P eng db s' (posts ++ pre) ∧ s'.committed = s.committed := by
  induction more generalizing s posts with
  | nil => exact .inl ⟨s, rfl, by rwa [List.append_nil], rfl⟩
  | cons p more ih =>
    rw [Insertion.execAll]
    rcases h.exec p with ⟨s₁, hexec, hgoing, hsame⟩ | ⟨s₁, err, hexec, hfailed, hsame⟩
    · rw [hexec]
      rcases ih hgoing with ⟨s', hall, hgoing', hsame'⟩ | ⟨s', err, pre, post, hall, rfl, hfailed, hsame'⟩
      · refine .inl ⟨s', hall, ?_, hsame'.trans hsame⟩
        rwa [List.append_assoc] at hgoing'
      · refine .inr ⟨s', err, p :: pre, post, hall, rfl, ?_, hsame'.trans hsame⟩
        rwa [List.append_assoc] at hfailed
    · rw [hexec]
      exact .inr ⟨s₁, err, [], p :: more, rfl, rfl, by rwa [List.append_nil], hsame⟩

/-! ## Transactions -/

theorem commit_active (eng : Engine) {db : Database} (h : s.tx = .active db) :
    (eng.commit s.commits = none ∧ s.commit eng =
        ({ s with committed := db, tx := .done, commits := s.commits + 1 }, .ok ())) ∨
      ∃ err, eng.commit s.commits = some err ∧
        s.commit eng = ({ s with tx := .done, commits := s.commits + 1 }, .error (.error err)) := by
  unfold commit
  rw [h]
  cases eng.commit s.commits with
  | none => exact .inl ⟨rfl, rfl⟩
  | some err => exact .inr ⟨err, rfl, rfl⟩

/-- How the loop can be left. -/
inductive Stops (P : Prims) (eng : Engine) (db : Database) (pieces : List Piece) (s : Insertion) : Prop where
  | finished (h : Going P eng db s (pieces.flatMap Piece.posts))
  | exec (before : List Piece) (piece : Piece) (after : List Piece) (pre post : List Post)
      (hpieces : pieces = before ++ piece :: after) (hposts : piece.posts = pre ++ post)
      (h : ExecFailed P eng db s (before.flatMap Piece.posts ++ pre))
  | commit (htx : s.tx = .done) (hcommit : ∃ k < s.commits, (eng.commit k).isSome)
      (hbegin : ∀ k < s.begins, eng.beginTx k = none) (hexec : ∀ k < s.execs, eng.exec k = none)
  | beginTx (htx : s.tx = .null) (hbegin : ∃ k < s.begins, (eng.beginTx k).isSome)
      (hexec : ∀ k < s.execs, eng.exec k = none)

/-- Between two pieces: the next one can be received, or the loop is left. What is committed then is what was
committed before, or all posts so far. -/
theorem Going.rollOver (h : Going P eng db s posts) (pieces : List Piece) :
    (∃ s', s.rollOver eng = (s', .ok ()) ∧ Going P eng db s' posts ∧
        (s'.committed = s.committed ∨ s'.committed = db.insertAll P posts)) ∨
      ∃ s' f, s.rollOver eng = (s', .error f) ∧ Stops P eng db pieces s' ∧
        (s'.committed = s.committed ∨ s'.committed = db.insertAll P posts) := by
  unfold Insertion.rollOver
  split_ifs with hn
  · rcases commit_active eng h.tx with ⟨hnone, hcommit⟩ | ⟨err, herr, hcommit⟩
    · rw [hcommit]
      have hcommits := forall_lt_succ_of h.quiet.commit hnone
      simp only [Insertion.beginTx]
      cases hbegin : eng.beginTx s.begins with
      | some err =>
        exact .inr ⟨_, _, rfl, .beginTx rfl ⟨s.begins, Nat.lt_succ_self _, by rw [hbegin]; rfl⟩ h.quiet.exec,
          .inr rfl⟩
      | none =>
        exact .inl ⟨_, rfl, ⟨rfl, h.execs, forall_lt_succ_of h.quiet.beginTx hbegin, hcommits, h.quiet.exec⟩,
          .inr rfl⟩
    · rw [hcommit]
      refine .inr ⟨_, _, rfl, .commit rfl ⟨s.commits, Nat.lt_succ_self _, ?_⟩ h.quiet.beginTx h.quiet.exec,
        .inl rfl⟩
      rw [herr]
      rfl
  · exact .inl ⟨s, rfl, h, .inl rfl⟩

/-! ## The loop -/

theorem wholePieces_before (before after : List Piece) :
    WholePieces P db (before ++ after) (db.insertAll P (before.flatMap Piece.posts)) :=
  ⟨before.length, by rw [List.take_left]⟩

/-- One round: the posts of the piece are in the transaction, or the loop is left. -/
theorem Going.receive {piece : Piece} {after : List Piece} (h : Going P eng db s (before.flatMap Piece.posts))
    (hpieces : pieces = before ++ piece :: after) (hwhole : WholePieces P db pieces s.committed) :
    (∃ s', s.receive P eng piece = (s', .ok ()) ∧
        Going P eng db s' ((before ++ [piece]).flatMap Piece.posts) ∧ WholePieces P db pieces s'.committed) ∨
      ∃ s' f, s.receive P eng piece = (s', .error f) ∧ Stops P eng db pieces s' ∧
        WholePieces P db pieces s'.committed := by
  have hroll : ∀ {s' : Insertion},
      s'.committed = s.committed ∨ s'.committed = db.insertAll P (before.flatMap Piece.posts) →
        WholePieces P db pieces s'.committed := by
    rintro s' (hsame | hall)
    · rwa [hsame]
    · rw [hall, hpieces]
      exact wholePieces_before before _
  unfold Insertion.receive
  rcases h.rollOver pieces with ⟨s₁, heq, hgoing, hcommitted⟩ | ⟨s₁, f, heq, hstops, hcommitted⟩
  · rw [heq]
    rcases hgoing.execAll piece.posts with
      ⟨s₂, hall, hgoing', hsame⟩ | ⟨s₂, err, pre, post, hall, hposts, hfailed, hsame⟩
    · simp only [hall]
      refine .inl ⟨_, rfl, ⟨?_, ?_, hgoing'.quiet.beginTx, hgoing'.quiet.commit, hgoing'.quiet.exec⟩, ?_⟩
      · simpa using hgoing'.tx
      · simpa using hgoing'.execs
      · show WholePieces P db pieces s₂.committed
        rw [hsame]
        exact hroll hcommitted
    · simp only [hall]
      refine .inr ⟨_, _, rfl, .exec before piece after pre post hpieces hposts hfailed, ?_⟩
      rw [hsame]
      exact hroll hcommitted
  · rw [heq]
    exact .inr ⟨s₁, f, rfl, hstops, hroll hcommitted⟩

/-- When the loop is left, whole pieces have been committed. -/
theorem Going.receiveAll (h : Going P eng db s (before.flatMap Piece.posts)) (after : List Piece)
    (hpieces : pieces = before ++ after) (hwhole : WholePieces P db pieces s.committed) :
    Stops P eng db pieces (s.receiveAll P eng after).1 ∧
      WholePieces P db pieces (s.receiveAll P eng after).1.committed := by
  induction after generalizing s before with
  | nil =>
    rw [List.append_nil] at hpieces
    exact ⟨.finished (by rw [hpieces]; exact h), hwhole⟩
  | cons piece after ih =>
    rw [Insertion.receiveAll]
    rcases h.receive hpieces hwhole with ⟨s', heq, hgoing, hwhole'⟩ | ⟨s', f, heq, hstops, hwhole'⟩
    · rw [heq]
      exact ih hgoing (by rw [hpieces, List.append_assoc]; rfl) hwhole'
    · rw [heq]
      exact ⟨hstops, hwhole'⟩

/-! ## Pieces in part -/

theorem length_lt_of_rows_ne (h : (db.insertAll P posts).rows ≠ db.rows) :
    db.rows.length < (db.insertAll P posts).rows.length := by
  obtain ⟨new, hrows⟩ := Database.insertAll_rows_append (P := P) db posts
  rw [hrows, List.length_append, Nat.lt_add_right_iff_pos, List.length_pos_iff]
  rintro rfl
  exact h (by rw [hrows, List.append_nil])

/-- The posts before a place within a piece make whole pieces exactly when those of this piece add nothing,
or there is nothing to be added after them. -/
theorem wholePieces_iff {piece : Piece} {after : List Piece} {pre post : List Post} {base : Database}
    (hpieces : pieces = before ++ piece :: after) (hposts : piece.posts = pre ++ post)
    (hbase : db.insertAll P (before.flatMap Piece.posts) = base) :
    WholePieces P db pieces (db.insertAll P (before.flatMap Piece.posts ++ pre)) ↔
      (base.insertAll P pre).rows = base.rows ∨
        ((base.insertAll P pre).insertAll P post).rows = (base.insertAll P pre).rows := by
  rw [Database.insertAll_append, hbase]
  constructor
  · rintro ⟨k, hrows⟩
    by_contra hneither
    push Not at hneither
    have hpre := length_lt_of_rows_ne hneither.1
    have hpost := length_lt_of_rows_ne hneither.2
    have hlen := congrArg List.length hrows
    rcases Nat.lt_or_ge before.length k with hk | hk
    · -- the pieces are this one and perhaps others after it
      obtain ⟨j, rfl⟩ : ∃ j, k = before.length + (j + 1) := ⟨k - before.length - 1, by omega⟩
      rw [hpieces, List.take_length_add_append, List.take_succ_cons, List.flatMap_append, List.flatMap_cons,
        hposts, Database.insertAll_append, hbase, Database.insertAll_append, Database.insertAll_append] at hlen
      have := Database.length_le_insertAll (P := P) ((base.insertAll P pre).insertAll P post)
        ((after.take j).flatMap Piece.posts)
      omega
    · -- they come before this one
      have hle := Database.length_le_insertAll (P := P) (db.insertAll P ((before.take k).flatMap Piece.posts))
        ((before.drop k).flatMap Piece.posts)
      rw [← Database.insertAll_append, ← List.flatMap_append, List.take_append_drop, hbase] at hle
      rw [hpieces, List.take_append_of_le_length hk] at hlen
      omega
  · rintro (hpre | hpost)
    · refine ⟨before.length, ?_⟩
      rw [hpieces, List.take_left, hbase]
      exact hpre
    · refine ⟨before.length + 1, ?_⟩
      rw [hpieces, List.take_length_add_append, List.flatMap_append, Database.insertAll_append, hbase,
        List.take_succ_cons, List.take_zero, List.flatMap_cons, List.flatMap_nil, List.append_nil, hposts,
        Database.insertAll_append]
      exact hpost.symm

/-- The posts before a place are told by their number. -/
theorem take_flatMap_posts {piece : Piece} {after : List Piece} {pre post : List Post}
    (hpieces : pieces = before ++ piece :: after) (hposts : piece.posts = pre ++ post) :
    (pieces.flatMap Piece.posts).take (before.flatMap Piece.posts ++ pre).length =
      before.flatMap Piece.posts ++ pre := by
  rw [hpieces, List.flatMap_append, List.flatMap_cons, hposts]
  simp only [← List.append_assoc]
  rw [List.append_assoc, List.take_left]

/-- Nothing is left in part when no `Exec` has failed. -/
theorem not_leavesPart_of_exec (h : ∀ k < s.execs, eng.exec k = none) : ¬ LeavesPart P eng db pieces s := by
  rintro ⟨hexec, -, before, piece, after, pre, post, -, -, hexecs, -⟩
  rw [h _ (by omega)] at hexec
  cases hexec

theorem ExecFailed.wholePieces_iff {piece : Piece} {after : List Piece} {pre post : List Post}
    (h : ExecFailed P eng db s (before.flatMap Piece.posts ++ pre))
    (hpieces : pieces = before ++ piece :: after) (hposts : piece.posts = pre ++ post)
    (hexecs : s'.execs = s.execs) (hcommit : eng.commit (s'.commits - 1) = none) :
    WholePieces P db pieces (db.insertAll P (before.flatMap Piece.posts ++ pre)) ↔
      ¬ LeavesPart P eng db pieces s' := by
  have hexecs' := hexecs.trans h.execs
  constructor
  · rintro hwhole ⟨-, -, before', piece', after', pre', post', hpieces', hposts', hnumber, hpre', hpost'⟩
    have hsame : before.flatMap Piece.posts ++ pre = before'.flatMap Piece.posts ++ pre' := by
      rw [← take_flatMap_posts hpieces hposts, ← take_flatMap_posts hpieces' hposts']
      congr 1
      omega
    rw [hsame] at hwhole
    rcases (Insertion.wholePieces_iff hpieces' hposts' rfl).mp hwhole with heq | heq
    · exact hpre' heq
    · exact hpost' heq
  · intro hnot
    by_contra hpart
    refine hnot ⟨?_, hcommit, before, piece, after, pre, post, hpieces, hposts, hexecs', ?_⟩
    · rw [hexecs']
      exact h.failed
    · rw [Insertion.wholePieces_iff hpieces hposts rfl] at hpart
      push Not at hpart
      exact hpart

/-! ## The deferred function -/

theorem generateFts_error_iff : (∃ err, generateFts eng = .error (.error err)) ↔ eng.prepare.isSome := by
  unfold generateFts
  cases eng.prepare with
  | none => simp
  | some err => simp

theorem deferred_active (eng : Engine) {db : Database} (h : s.tx = .active db) :
    (eng.commit s.commits = none ∧ s.deferred eng =
        ({ s with committed := db, tx := .done, commits := s.commits + 1 }, generateFts eng)) ∨
      ((eng.commit s.commits).isSome ∧
        s.deferred eng = ({ s with tx := .done, commits := s.commits + 1 }, generateFts eng)) := by
  unfold deferred
  rcases commit_active eng h with ⟨hnone, hcommit⟩ | ⟨err, herr, hcommit⟩
  · rw [hcommit]
    exact .inl ⟨hnone, rfl⟩
  · rw [hcommit, herr]
    exact .inr ⟨rfl, rfl⟩

theorem deferred_done (eng : Engine) (h : s.tx = .done) : s.deferred eng = (s, generateFts eng) := by
  simp [deferred, commit, h]

theorem deferred_null (h : s.tx = .null) : s.deferred eng = (s, .error .panic) := by
  simp [deferred, commit, h]

/-- The last `Commit` has failed. -/
theorem not_leavesPart_of_commit (h : (eng.commit (s.commits - 1)).isSome) :
    ¬ LeavesPart P eng db pieces s := by
  intro hpart
  rw [hpart.commit] at h
  cases h

/-- What has been committed in the end. -/
theorem Stops.wholePieces_iff (h : Stops P eng db pieces s) (hwhole : WholePieces P db pieces s.committed) :
    WholePieces P db pieces (s.deferred eng).1.committed ↔
      ¬ LeavesPart P eng db pieces (s.deferred eng).1 := by
  cases h with
  | finished h =>
    rcases deferred_active eng h.tx with ⟨-, heq⟩ | ⟨-, heq⟩
    · rw [heq]
      refine iff_of_true ⟨pieces.length, ?_⟩ (not_leavesPart_of_exec h.quiet.exec)
      rw [List.take_length]
    · rw [heq]
      exact iff_of_true hwhole (not_leavesPart_of_exec h.quiet.exec)
  | exec before piece after pre post hpieces hposts h =>
    rcases deferred_active eng h.tx with ⟨hnone, heq⟩ | ⟨hsome, heq⟩
    · rw [heq]
      exact h.wholePieces_iff hpieces hposts rfl hnone
    · rw [heq]
      exact iff_of_true hwhole (not_leavesPart_of_commit hsome)
  | commit htx hcommit hbegin hexec =>
    rw [deferred_done eng htx]
    exact iff_of_true hwhole (not_leavesPart_of_exec hexec)
  | beginTx htx hbegin hexec =>
    rw [deferred_null htx]
    exact iff_of_true hwhole (not_leavesPart_of_exec hexec)

/-- The error that is returned is that of `GenerateFts`, unless there is a panic. -/
theorem Stops.error_iff (h : Stops P eng db pieces s) :
    (∃ err, (s.deferred eng).2 = .error (.error err)) ↔
      eng.prepare.isSome ∧ ∀ k < (s.deferred eng).1.begins, eng.beginTx k = none := by
  have hresult : (s.deferred eng).2 = generateFts eng →
      (∀ k < (s.deferred eng).1.begins, eng.beginTx k = none) →
        ((∃ err, (s.deferred eng).2 = .error (.error err)) ↔
          eng.prepare.isSome ∧ ∀ k < (s.deferred eng).1.begins, eng.beginTx k = none) := by
    intro heq hbegin
    rw [heq, generateFts_error_iff, and_iff_left hbegin]
  cases h with
  | finished h =>
    rcases deferred_active eng h.tx with ⟨-, heq⟩ | ⟨-, heq⟩ <;>
      exact hresult (by rw [heq]) (by rw [heq]; exact h.quiet.beginTx)
  | exec before piece after pre post hpieces hposts h =>
    rcases deferred_active eng h.tx with ⟨-, heq⟩ | ⟨-, heq⟩ <;>
      exact hresult (by rw [heq]) (by rw [heq]; exact h.beginTx)
  | commit htx hcommit hbegin hexec =>
    have heq := deferred_done eng htx
    exact hresult (by rw [heq]) (by rw [heq]; exact hbegin)
  | beginTx htx hbegin hexec =>
    rw [deferred_null htx]
    obtain ⟨k, hk, hsome⟩ := hbegin
    refine iff_of_false (by rintro ⟨err, h⟩; cases h) fun h => ?_
    rw [h.2 k hk] at hsome
    cases hsome

/-! ## The whole call -/

/-- A first `Begin` that succeeds. -/
theorem insertPieces_of_begin (P : Prims) (eng : Engine) (hbegin : eng.beginTx 0 = none) (db : Database)
    (pieces : List Piece) :
    ∃ s, insertPieces P eng db pieces = s.deferred eng ∧ Stops P eng db pieces s ∧
      WholePieces P db pieces s.committed := by
  have hstart : Going P eng db ⟨db, .active db, 0, 1, 0, 0⟩ (([] : List Piece).flatMap Piece.posts) :=
    ⟨rfl, rfl, forall_lt_succ_of (fun k hk => absurd hk (Nat.not_lt_zero k)) hbegin,
      fun k hk => absurd hk (Nat.not_lt_zero k), fun k hk => absurd hk (Nat.not_lt_zero k)⟩
  refine ⟨_, ?_, hstart.receiveAll pieces rfl (wholePieces_before [] pieces)⟩
  simp only [insertPieces, beginTx, hbegin]

/-- **Storing pieces on an engine that can fail.** If a statement fails, an error is returned and no piece is
there in part, exactly when the first `Begin` has failed, or no `Begin` has and the index cannot be prepared
either, and no part of a piece has been committed. -/
theorem insertPieces_reports_iff (P : Prims) (eng : Engine) (db : Database) (pieces : List Piece) :
    Reports P eng db pieces ↔
      ((insertPieces P eng db pieces).1.Failed eng →
        ((eng.beginTx 0).isSome ∨ eng.prepare.isSome ∧
          ∀ k < (insertPieces P eng db pieces).1.begins, eng.beginTx k = none) ∧
        ¬ LeavesPart P eng db pieces (insertPieces P eng db pieces).1) := by
  refine imp_congr_right fun _ => ?_
  cases hbegin : eng.beginTx 0 with
  | some err =>
    have heq : insertPieces P eng db pieces = (⟨db, .null, 0, 1, 0, 0⟩, .error (.error err)) := by
      simp only [insertPieces, beginTx, hbegin]
    rw [heq]
    exact iff_of_true ⟨⟨err, rfl⟩, wholePieces_before [] pieces⟩
      ⟨.inl rfl, not_leavesPart_of_exec fun k hk => absurd hk (Nat.not_lt_zero k)⟩
  | none =>
    obtain ⟨s, heq, hstops, hwhole⟩ := insertPieces_of_begin P eng hbegin db pieces
    rw [heq, hstops.error_iff, hstops.wholePieces_iff hwhole]
    simp

/-- A piece with two posts. -/
def samplePiece : Piece := ⟨0, [(sampleRow 0).scan, (sampleRow 1).scan], []⟩

/-- An engine on which the second `Exec` fails. -/
def secondFails : Engine :=
  { Engine.sound with exec := fun k => if k = 1 then some "disk I/O error" else none }

/-- The second post of a piece cannot be inserted. The first one is committed, and no error is returned. -/
theorem half_piece_committed :
    let out := insertPieces .sample secondFails .new [samplePiece]
    out.1.Failed secondFails ∧ out.2 = .ok () ∧
      out.1.committed.rows.map (fun r => r.scan.infoHash) = [(sampleRow 0).scan.infoHash] ∧
      ¬ Reports .sample secondFails .new [samplePiece] := by
  intro out
  have hfailed : out.1.Failed secondFails := .inr (.inr ⟨1, by decide +kernel, rfl⟩)
  have hok : out.2 = .ok () := by decide +kernel
  refine ⟨hfailed, hok, by decide +kernel, fun h => ?_⟩
  obtain ⟨err, herr⟩ := (h hfailed).1
  rw [show (insertPieces .sample secondFails .new [samplePiece]).2 = .ok () from hok] at herr
  cases herr

/-- On an engine that does not fail, this is the `InsertPieces` that completes. -/
theorem insertPieces_sound (P : Prims) (db : Database) (pieces : List Piece) :
    (insertPieces P .sound db pieces).1.committed = db.insertPieces P pieces ∧
      (insertPieces P .sound db pieces).2 = .ok () := by
  obtain ⟨s, heq, hstops, -⟩ := insertPieces_of_begin P .sound rfl db pieces
  rw [heq, Database.insertPieces_eq]
  cases hstops with
  | finished h =>
    rcases deferred_active .sound h.tx with ⟨-, heq⟩ | ⟨hsome, -⟩
    · rw [heq]
      exact ⟨rfl, rfl⟩
    · cases hsome
  | exec _ _ _ _ _ _ _ h => exact absurd h.failed (by simp [Engine.sound])
  | commit _ hcommit => exact absurd hcommit (by simp [Engine.sound])
  | beginTx _ hbegin => exact absurd hbegin (by simp [Engine.sound])

end Zif.Data.Insertion
