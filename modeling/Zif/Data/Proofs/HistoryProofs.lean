import Zif.Data.Proofs.DatabaseProofs
import Zif.Lib.Proofs.RunsProofs

/-!
# Proofs: histories of a database

Whatever posts are stored, one by one or in pieces, the ids stay `1..n`: a history is one run of the
statement `sql_insert_post` (`run_change`), each insertion keeps the numbering (`insert_numbered`), and
a post that is there already uses up no id. Rows are only ever added at the end, so a full piece keeps
its text (`pieceText_of_full`).
-/

namespace Zif.Data

open Go Paging Runs

variable {P : Prims} {db : Database}

namespace Database

/-! ## Histories as runs of one statement -/

theorem change_eq (db : Database) (c : Change) : db.change P c = db.insertAll P c.posts := by
  match c with
  | .insertPost post none => rfl
  | .insertPost post (some err) => rfl
  | .insertPieces pieces => exact insertPieces_eq db pieces

theorem run_change (db : Database) (changes : List Change) :
    run (change P) db changes = db.insertAll P (changes.flatMap Change.posts) := by
  induction changes generalizing db with
  | nil => rfl
  | cons c changes ih =>
    rw [run_cons, ih, change_eq, List.flatMap_cons, insertAll_append]

/-! ## The ids -/

/-- What the engine promises of a new row: its rowid is the largest id plus one. Only a table that has
the largest rowid there is breaks it. -/
def NextRowid (P : Prims) (db : Database) (post : Post) : Prop :=
  db.insert P post = db ∨ db.nextId.toInt = db.postCount + 1

instance (db : Database) (post : Post) : Decidable (NextRowid P db post) :=
  inferInstanceAs (Decidable (_ ∨ _))

/-- A new row continues the numbering, and a row that is ignored leaves it. -/
theorem insert_numbered {post : Post} (h : db.Numbered) (hid : NextRowid P db post) :
    (db.insert P post).Numbered := by
  rcases insert_cases P db post with ⟨-, heq⟩ | ⟨-, heq⟩
  · rwa [heq]
  · rcases hid with hsame | hnext
    · rwa [hsame]
    · rw [heq]
      refine Paging.numbered_append_singleton.mpr ⟨h, ?_⟩
      rw [h.postCount] at hnext
      show db.nextId.toInt = _
      simpa using hnext

theorem insertAll_numbered {posts : List Post} (h : db.Numbered)
    (hids : Always (Database.insert P) (NextRowid P) db posts) : (db.insertAll P posts).Numbered :=
  hids.invariant h fun _ _ => insert_numbered

theorem Numbered.ids (h : db.Numbered) :
    db.rows.map (fun r => r.id.toInt) = (List.range db.rows.length).map fun i : Nat => (i : Int) + 1 := by
  refine List.ext_getElem (by simp) fun i hi _ => ?_
  have hkey := Paging.Numbered.key_getElem h (by simpa using hi : i < db.rows.length)
  simp only [List.getElem_map, List.getElem_range, hkey]
  push_cast
  omega

/-! ## The pieces -/

/-- The pieces of a numbered database, as `QueryPiece` returns them. -/
def pieces (db : Database) : List Piece :=
  (List.range (count pieceSize db.rows.length)).map fun i =>
    ⟨UInt64.ofNat i, (db.pieceRows i).map Row.scan, db.pieceText i⟩

/-- Pieces that are queried one after the other. -/
theorem Numbered.mapM_queryPiece_of_lt (h : db.Numbered) (is : List Nat) (piece : Nat → Nat)
    (hlt : ∀ i ∈ is, pieceSize * piece i < 2 ^ 63) :
    is.mapM (fun i => db.queryPiece (UInt64.ofNat (piece i)) true) =
      .ok (is.map fun i => ⟨UInt64.ofNat (piece i), (db.pieceRows (piece i)).map Row.scan,
        db.pieceText (piece i)⟩) := by
  induction is with
  | nil => rfl
  | cons i is ih =>
    rw [List.mapM_cons, h.queryPiece (hlt i (by simp)), ih fun j hj => hlt j (by simp [hj])]
    rfl

theorem Numbered.mapM_queryPiece (h : db.Numbered) :
    (List.range (count pieceSize db.rows.length)).mapM
      (fun i => db.queryPiece (UInt64.ofNat i) true) = .ok db.pieces :=
  h.mapM_queryPiece_of_lt _ _ fun _ hi => h.pieceStart_lt (List.mem_range.mp hi)

theorem Numbered.flatMap_pieces (h : db.Numbered) :
    db.pieces.flatMap Piece.posts = db.rows.map Row.scan := by
  have hpages : (List.range (count pieceSize db.rows.length)).flatMap
      (page pieceSize (db.rows.map Row.scan)) = db.rows.map Row.scan := by
    simpa using flatMap_page (by decide : 0 < pieceSize) (db.rows.map Row.scan)
  rw [← hpages, pieces, List.flatMap_map]
  refine List.flatMap_congr fun i _ => ?_
  rw [page_map, ← h.pieceRows]

theorem Numbered.length_posts (h : db.Numbered) {i : Nat} (hi : i < db.pieces.length) :
    db.pieces[i].posts.length = min pieceSize (db.rows.length - pieceSize * i) := by
  simp [pieces, h.pieceRows, page]

/-- A piece with another one after it is full. -/
theorem Numbered.length_posts_of_succ (h : db.Numbered) {i : Nat} (hi : i + 1 < db.pieces.length) :
    db.pieces[i].posts.length = pieceSize := by
  have hcount : i + 1 < count pieceSize db.rows.length := by simpa [pieces] using hi
  have hrows := (lt_count_iff (by decide) _ _).mp hcount
  rw [Nat.mul_succ] at hrows
  rw [h.length_posts]
  omega

/-! ## What later insertions leave as it is -/

theorem insert_rows (db : Database) (post : Post) : ∃ new, (db.insert P post).rows = db.rows ++ new := by
  rcases insert_cases P db post with ⟨-, heq⟩ | ⟨-, heq⟩
  · exact ⟨[], by rw [heq, List.append_nil]⟩
  · exact ⟨_, by rw [heq]⟩

theorem insertAll_rows_append (db : Database) (posts : List Post) :
    ∃ new, (db.insertAll P posts).rows = db.rows ++ new := by
  induction posts generalizing db with
  | nil => exact ⟨[], (List.append_nil _).symm⟩
  | cons post posts ih =>
    obtain ⟨first, hfirst⟩ := insert_rows (P := P) db post
    obtain ⟨rest, hrest⟩ := ih (db.insert P post)
    refine ⟨first ++ rest, ?_⟩
    rw [← List.append_assoc, ← hfirst]
    exact hrest

/-- The text of a piece that is full does not change when rows are added. -/
theorem pieceText_of_full {db' : Database} {new : List Row} {i : Nat} (h : db.Numbered)
    (h' : db'.Numbered) (hrows : db'.rows = db.rows ++ new)
    (hfull : pieceSize * (i + 1) ≤ db.rows.length) : db'.pieceText i = db.pieceText i := by
  have htake : db'.rows.take db.rows.length = db.rows := by rw [hrows, List.take_left]
  have hpage : page pieceSize (db'.rows.take db.rows.length) i = page pieceSize db'.rows i :=
    page_take hfull
  rw [pieceText, pieceText, h.pieceRows, h'.pieceRows, ← hpage, htake]

/-- A full piece has the hash it had, whatever is inserted later. -/
theorem hash_of_full {db' : Database} {new : List Row} {i : Nat} (h : db.Numbered) (h' : db'.Numbered)
    (hrows : db'.rows = db.rows ++ new) (hi : i < db.pieces.length)
    (hfull : db.pieces[i].posts.length = pieceSize) (store : Bool) :
    (db'.queryPiece (UInt64.ofNat i) store).map (Piece.hash P) = .ok (db.pieces[i].hash P) := by
  have hcount : i < count pieceSize db.rows.length := by simpa [pieces] using hi
  have hroom : pieceSize * (i + 1) ≤ db.rows.length := by
    rw [h.length_posts] at hfull
    have hpos : 0 < pieceSize := by decide
    rw [Nat.mul_succ]
    omega
  rw [h'.queryPiece (h.pieceStart_lt hcount)]
  simp [Except.map, Piece.hash, pieces, pieceText_of_full h h' hrows hroom]

/-! ## Every history -/

/-- The posts are numbered and cut into pieces without gaps, after every history of a database that
was empty. -/
theorem history_numbered (P : Prims) (changes more : List Change)
    (hids : Always (Database.insert P) (NextRowid P) .new ((changes ++ more).flatMap Change.posts)) :
    let db := run (change P) .new changes
    let n := db.rows.length
    db.rows.map (fun r => r.id.toInt) = (List.range n).map (fun i : Nat => (i : Int) + 1) ∧
      db.postCount = n ∧
      ∃ pieces : List Piece,
        (List.range (count pieceSize n)).mapM (fun i => db.queryPiece (UInt64.ofNat i) true) =
          .ok pieces ∧
        pieces.flatMap Piece.posts = db.rows.map Row.scan ∧
        (∀ i (hi : i + 1 < pieces.length), pieces[i].posts.length = pieceSize) ∧
        ∀ i (hi : i < pieces.length), pieces[i].posts.length = pieceSize → ∀ store,
          ((run (change P) db more).queryPiece (UInt64.ofNat i) store).map (Piece.hash P) =
            .ok (pieces[i].hash P) := by
  intro db n
  rw [List.flatMap_append] at hids
  have hdb : db = Database.new.insertAll P (changes.flatMap Change.posts) := run_change _ changes
  have h : db.Numbered := by
    rw [hdb]
    exact insertAll_numbered numbered_new hids.left
  have hmore : run (change P) db more = db.insertAll P (more.flatMap Change.posts) := run_change _ more
  have h' : (run (change P) db more).Numbered := by
    rw [hmore]
    refine insertAll_numbered h ?_
    rw [hdb]
    exact hids.right
  obtain ⟨new, hrows⟩ := insertAll_rows_append (P := P) db (more.flatMap Change.posts)
  rw [← hmore] at hrows
  exact ⟨h.ids, h.postCount, db.pieces, h.mapM_queryPiece, h.flatMap_pieces,
    fun i hi => h.length_posts_of_succ hi, fun i hi hfull store => hash_of_full h h' hrows hi hfull store⟩

/-- One post stored, then a piece with the same post and another one. -/
def sampleHistory : List Change :=
  [.insertPost (sampleRow 0).scan none,
    .insertPieces [⟨0, [(sampleRow 0).scan, (sampleRow 1).scan], []⟩]]

/-- The post that comes twice is stored once. -/
theorem history_numbered_sample :
    (run (change .sample) .new sampleHistory).postCount = 2 := by
  have hids : Always (Database.insert .sample) (NextRowid .sample) .new
      ((sampleHistory ++ []).flatMap Change.posts) :=
    .cons (by decide +kernel) (.cons (by decide +kernel) (.cons (by decide +kernel) always_nil))
  have hlen : (run (change .sample) .new sampleHistory).rows.length = 2 := by decide +kernel
  exact (history_numbered .sample sampleHistory [] hids).2.1.trans hlen

end Database

end Zif.Data
