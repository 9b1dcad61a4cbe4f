import Zif.Data.Proofs.InsertionProofs
import Zif.Data.Proofs.QueryProofs

/-!
# Proofs: going on with the posts of another peer

A database has the first posts of a list and is given all pieces from the last one that it may not have in
full. The posts that are there are ignored, and no id is used up for them; so the new ones get the ids that
they have in the list (`insertAll_resume`).

What is read from the database then is the list, as far as its texts are read back as they are. If all posts
of the list are there afterwards, the new rows are those of the new posts, one for each (`rows_insertAll`); so
a text that is not read back as it is leaves another list.
-/

namespace Zif.Data

open Go Paging

variable {P : Prims} {db : Database} {posts ps rest : List Post}

/-! ## Posts that are stored -/

/-- The row has the id and the info hash of the post. -/
structure Post.FoundAs (P : Prims) (p : Post) (r : Row) : Prop where
  id : r.id = p.id
  infoHash : r.infoHash = P.store p.infoHash

theorem Post.StoredAs.foundAs {p : Post} {r : Row} (h : p.StoredAs P r) : p.FoundAs P r := ⟨h.id, h.infoHash⟩

theorem storedAs_toRow (P : Prims) (p : Post) : p.StoredAs P (p.toRow P p.id) :=
  ⟨rfl, rfl, rfl, rfl, rfl, rfl, rfl, rfl⟩

theorem numbered_rows {s : Nat} {rows : List Row} (h : List.Forall₂ (Post.FoundAs P) ps rows)
    (hids : Numbered (fun p : Post => p.id.toInt) s ps) : Numbered (fun r : Row => r.id.toInt) s rows := by
  induction h generalizing s with
  | nil => exact .nil
  | cons hfound _ ih =>
    obtain ⟨hid, hrest⟩ := numbered_cons.mp hids
    refine numbered_cons.mpr ⟨?_, ih hrest⟩
    show Int64.toInt _ = _
    rw [hfound.id]
    exact hid

/-- The info hashes are those of the posts. -/
theorem map_infoHash {rows : List Row} (h : List.Forall₂ (Post.FoundAs P) ps rows) :
    rows.map Row.infoHash = ps.map fun p => P.store p.infoHash := by
  induction h with
  | nil => rfl
  | cons hfound _ ih => rw [List.map_cons, List.map_cons, ih, hfound.infoHash]

/-- A post with the next id and a new info hash. -/
theorem insert_next {p : Post} (h : List.Forall₂ (Post.FoundAs P) ps db.rows)
    (hids : Numbered (fun p : Post => p.id.toInt) 0 (ps ++ [p]))
    (hnew : P.store p.infoHash ∉ ps.map fun p => P.store p.infoHash) :
    (db.insert P p).rows = db.rows ++ [p.toRow P p.id] := by
  obtain ⟨hnum, hid⟩ := numbered_append_singleton.mp hids
  have hdb : db.Numbered := numbered_rows h hnum
  have hlen : db.rows.length = ps.length := h.length_eq.symm
  have hlt := p.id.toInt_lt
  have hnext : db.nextId = p.id := by
    apply Int64.toInt_inj.mp
    rw [hdb.nextId (by omega), hid, hlen]
    simp
  rw [Database.insert_of_not_mem, hnext]
  intro r hr heq
  rw [← map_infoHash h, ← heq] at hnew
  exact hnew (List.mem_map_of_mem hr)

/-- The posts that follow in the list become the rows that follow. -/
theorem insertAll_next (h : List.Forall₂ (Post.FoundAs P) ps db.rows)
    (hids : Numbered (fun p : Post => p.id.toInt) 0 (ps ++ rest))
    (hnodup : ((ps ++ rest).map fun p => P.store p.infoHash).Nodup) :
    (db.insertAll P rest).rows = db.rows ++ rest.map fun p => p.toRow P p.id := by
  induction rest generalizing ps db with
  | nil => simp [Database.insertAll]
  | cons p rest ih =>
    rw [List.append_cons] at hids hnodup
    have hnew : P.store p.infoHash ∉ ps.map fun p => P.store p.infoHash := by
      rw [List.map_append, List.map_append] at hnodup
      have hdisjoint := (List.nodup_append.mp (List.nodup_append.mp hnodup).1).2.2
      exact fun hmem => hdisjoint _ hmem _ (by simp) rfl
    have hids' : Numbered (fun p : Post => p.id.toInt) 0 (ps ++ [p]) := by
      have := hids.take (ps ++ [p]).length
      rwa [List.take_left] at this
    have hrows := insert_next h hids' hnew
    have hfound : List.Forall₂ (Post.FoundAs P) (ps ++ [p]) (db.insert P p).rows := by
      rw [hrows]
      exact List.rel_append h (.cons (storedAs_toRow P p).foundAs .nil)
    show ((db.insert P p).insertAll P rest).rows = _
    rw [ih hfound hids hnodup, hrows, List.map_cons, List.append_assoc]
    rfl

/-- The posts that are there already are skipped. -/
theorem insertAll_drop {m j : Nat} (hj : j ≤ m) (hm : m ≤ posts.length)
    (h : List.Forall₂ (Post.FoundAs P) (posts.take m) db.rows) :
    db.insertAll P (posts.drop j) = db.insertAll P (posts.drop m) := by
  have hsplit : posts.drop j = (posts.take m).drop j ++ posts.drop m := by
    rw [← List.drop_append_of_le_length (by rw [List.length_take]; omega), List.take_append_drop]
  have hold : db.insertAll P ((posts.take m).drop j) = db := by
    refine Database.insertAll_of_mem fun p hp => ?_
    rw [map_infoHash h]
    exact List.mem_map_of_mem (List.mem_of_mem_drop hp)
  rw [hsplit, Database.insertAll_append, hold]

/-- **Resuming.** A database with the first `m` posts is given the posts from the `j`-th on, and the new ones
are added. -/
theorem insertAll_resume {m j : Nat} (hj : j ≤ m) (hm : m ≤ posts.length)
    (hids : Numbered (fun p : Post => p.id.toInt) 0 posts)
    (hnodup : (posts.map fun p => P.store p.infoHash).Nodup)
    (h : List.Forall₂ (Post.FoundAs P) (posts.take m) db.rows) :
    (db.insertAll P (posts.drop j)).rows = db.rows ++ (posts.drop m).map fun p => p.toRow P p.id := by
  rw [insertAll_drop hj hm h]
  refine insertAll_next h ?_ ?_ <;> rwa [List.take_append_drop]

/-! ## Texts that are read back -/

/-- The texts of the post have been written to the row. -/
def Post.WrittenTo (P : Prims) (p : Post) (r : Row) : Prop := r.texts = p.texts.map P.store

theorem Post.StoredAs.writtenTo {p : Post} {r : Row} (h : p.StoredAs P r) : p.WrittenTo P r := by
  simp [Post.WrittenTo, Row.texts, Post.texts, h.infoHash, h.title, h.tags, h.metadata]

/-- When each post adds a row, the new rows are those of the posts. -/
theorem rows_insertAll (hlen : (db.insertAll P ps).rows.length = db.rows.length + ps.length) :
    ∃ new, (db.insertAll P ps).rows = db.rows ++ new ∧ List.Forall₂ (Post.WrittenTo P) ps new := by
  induction ps generalizing db with
  | nil => exact ⟨[], (List.append_nil _).symm, .nil⟩
  | cons p ps ih =>
    rw [List.length_cons] at hlen
    change ((db.insert P p).insertAll P ps).rows.length = _ at hlen
    show ∃ new, ((db.insert P p).insertAll P ps).rows = _ ∧ _
    have hle := Database.length_insertAll_le (P := P) (db.insert P p) ps
    rcases Database.insert_cases P db p with ⟨-, heq⟩ | ⟨-, heq⟩
    · -- a post that is skipped leaves too few rows
      rw [heq] at hle hlen
      omega
    · have hone : (db.insert P p).rows = db.rows ++ [p.toRow P db.nextId] := by rw [heq]
      obtain ⟨new, hrows, hnew⟩ := ih (by rw [hlen, hone, List.length_append, List.length_singleton]; omega)
      exact ⟨p.toRow P db.nextId :: new, by rw [hrows, hone, List.append_assoc]; rfl, .cons rfl hnew⟩

theorem Post.SameData.texts {p q : Post} (h : p.SameData q) : p.texts = q.texts := by
  obtain ⟨-, hhash, htitle, -, -, -, htags, hmeta⟩ := h
  simp [Post.texts, hhash, htitle, htags, hmeta]

/-- A post that is read from the row it was written to. -/
theorem Post.WrittenTo.readsBack {p : Post} {r : Row} (h : p.WrittenTo P r) (hsame : p.SameData r.scan) :
    ∀ text ∈ p.texts, P.ReadsBack text := by
  have hload : p.texts.map (fun text => (P.store text).load) = p.texts.map fun text => text := by
    rw [List.map_id']
    refine Eq.trans ?_ hsame.texts.symm
    show _ = r.texts.map Cell.load
    rw [h, List.map_map]
    rfl
  exact List.map_inj_left.mp hload

theorem Post.StoredAs.sameData {p : Post} {r : Row} (h : p.StoredAs P r)
    (hback : ∀ text ∈ p.texts, P.ReadsBack text) : p.SameData r.scan := by
  have hload : ∀ {text : Bytes} {cell : Cell}, text ∈ p.texts → cell = P.store text → text = cell.load := by
    rintro text cell htext rfl
    exact (hback text htext).symm
  exact ⟨h.id.symm, hload (by simp [Post.texts]) h.infoHash, hload (by simp [Post.texts]) h.title,
    h.size.symm, h.fileCount.symm, h.uploadDate.symm, hload (by simp [Post.texts]) h.tags,
    hload (by simp [Post.texts]) h.metadata⟩

/-! ## All pieces from one on -/

theorem flatMap_posts_cut (posts : List Post) (k : Nat) :
    ((Piece.cut posts).drop k).flatMap Piece.posts = posts.drop (pieceSize * k) := by
  have hfirst : ((Piece.cut posts).take k).flatMap Piece.posts = posts.take (pieceSize * k) := by
    rw [Piece.cut, ← List.map_take, List.take_range, List.flatMap_map]
    show (List.range (min k _)).flatMap (page pieceSize posts) = _
    rw [take_eq_flatMap_page]
    have hall := le_size_mul_count (by decide : 0 < pieceSize) posts.length
    rcases Nat.le_total k (count pieceSize posts.length) with hk | hk
    · rw [Nat.min_eq_left hk]
    · rw [Nat.min_eq_right hk, List.take_of_length_le hall,
        List.take_of_length_le (hall.trans (Nat.mul_le_mul_left _ hk))]
  have hall : (Piece.cut posts).flatMap Piece.posts = posts := by
    rw [Piece.cut, List.flatMap_map]
    exact flatMap_page (by decide) posts
  have hboth : ((Piece.cut posts).take k).flatMap Piece.posts ++
      ((Piece.cut posts).drop k).flatMap Piece.posts = posts := by
    rw [← List.flatMap_append, List.take_append_drop, hall]
  rw [hfirst] at hboth
  exact List.append_cancel_left (hboth.trans (List.take_append_drop (pieceSize * k) posts).symm)

/-- Once all posts have been given to a database, giving it any of them changes nothing. -/
theorem insertPieces_again {m j : Nat} (hj : j ≤ m) (h : List.Forall₂ (Post.FoundAs P) (posts.take m) db.rows)
    (k : Nat) :
    (db.insertAll P (posts.drop j)).insertPieces P ((Piece.cut posts).drop k) =
      db.insertAll P (posts.drop j) := by
  rw [Database.insertPieces_eq, flatMap_posts_cut]
  refine Database.insertAll_of_mem fun p hp => ?_
  rw [Database.mem_infoHashes_insertAll, map_infoHash h]
  have hmem : p ∈ posts.take m ++ posts.drop m := by
    rw [List.take_append_drop]
    exact List.mem_of_mem_drop hp
  refine (List.mem_append.mp hmem).imp List.mem_map_of_mem fun hnew => ?_
  obtain ⟨i, rfl⟩ : ∃ i, m = j + i := ⟨m - j, by omega⟩
  rw [← List.drop_drop] at hnew
  exact List.mem_map_of_mem (List.mem_of_mem_drop hnew)

theorem nodup_store_infoHash (hnodup : (posts.map Post.infoHash).Nodup)
    (hback : ∀ p ∈ posts, ∀ text ∈ p.texts, P.ReadsBack text) :
    (posts.map fun p => P.store p.infoHash).Nodup := by
  have hhash : ∀ hash ∈ posts.map Post.infoHash, P.ReadsBack hash := by
    intro hash hmem
    obtain ⟨p, hp, rfl⟩ := List.mem_map.mp hmem
    exact hback p hp p.infoHash (by simp [Post.texts])
  have := hnodup.map_on fun s hs t ht => (hhash s hs).store_inj (hhash t ht)
  rwa [List.map_map] at this

/-- The database after the new posts have been added. -/
theorem storedAs_resume {m j : Nat} (hj : j ≤ m) (hm : m ≤ posts.length)
    (hids : Numbered (fun p : Post => p.id.toInt) 0 posts)
    (hnodup : (posts.map fun p => P.store p.infoHash).Nodup)
    (h : List.Forall₂ (Post.StoredAs P) (posts.take m) db.rows) :
    List.Forall₂ (Post.StoredAs P) posts (db.insertAll P (posts.drop j)).rows := by
  have hnew : List.Forall₂ (Post.StoredAs P) (posts.drop m)
      ((posts.drop m).map fun p => p.toRow P p.id) :=
    List.forall₂_map_right_iff.mpr (List.forall₂_same.mpr fun p _ => storedAs_toRow P p)
  have hall : List.Forall₂ (Post.StoredAs P) (posts.take m ++ posts.drop m)
      (db.rows ++ (posts.drop m).map fun p => p.toRow P p.id) := List.rel_append h hnew
  rw [insertAll_resume hj hm hids hnodup (h.imp fun _ _ => Post.StoredAs.foundAs)]
  rwa [List.take_append_drop] at hall

/-- If the list is read from the database afterwards, each of its posts has been written to its row. -/
theorem writtenTo_resume {m j : Nat} (hj : j ≤ m) (hm : m ≤ posts.length)
    (h : List.Forall₂ (Post.StoredAs P) (posts.take m) db.rows)
    (hlen : (db.insertAll P (posts.drop j)).rows.length = posts.length) :
    List.Forall₂ (Post.WrittenTo P) posts (db.insertAll P (posts.drop j)).rows := by
  rw [insertAll_drop hj hm (h.imp fun _ _ => Post.StoredAs.foundAs)] at hlen ⊢
  have hdb : db.rows.length = m := by
    rw [← h.length_eq, List.length_take, Nat.min_eq_left hm]
  have hnew : (db.insertAll P (posts.drop m)).rows.length = db.rows.length + (posts.drop m).length := by
    rw [hlen, hdb, List.length_drop]
    omega
  obtain ⟨new, hrows, hnew⟩ := rows_insertAll hnew
  have hall : List.Forall₂ (Post.WrittenTo P) (posts.take m ++ posts.drop m) (db.rows ++ new) :=
    List.rel_append (h.imp fun _ _ => Post.StoredAs.writtenTo) hnew
  rwa [List.take_append_drop, ← hrows] at hall

/-- **Resumed insertion.** A database with the first `m` posts of a list is given all pieces from the last one
it may not have in full. It then has the posts of the list, and the same again changes nothing, exactly when
the texts of the posts are read back as they are. -/
theorem insertPieces_resumed_iff (P : Prims) {posts : List Post}
    (hids : Numbered (fun p : Post => p.id.toInt) 0 posts) (hnodup : (posts.map Post.infoHash).Nodup)
    {m : Nat} (hm : m ≤ posts.length) {db : Database}
    (hdb : List.Forall₂ (Post.StoredAs P) (posts.take m) db.rows) :
    let out := Insertion.insertPieces P .sound db ((Piece.cut posts).drop (count pieceSize m - 1))
    (out.2 = .ok () ∧ List.Forall₂ Post.SameData posts (out.1.committed.rows.map Row.scan) ∧
        ∀ k, (Insertion.insertPieces P .sound out.1.committed ((Piece.cut posts).drop k)).1.committed =
          out.1.committed) ↔
      ∀ p ∈ posts, ∀ text ∈ p.texts, P.ReadsBack text := by
  intro out
  have hj : pieceSize * (count pieceSize m - 1) ≤ m := by
    have hlt := lt_count_iff (by decide : 0 < pieceSize) m (count pieceSize m - 1)
    rcases Nat.eq_zero_or_pos (count pieceSize m) with hzero | hpos
    · rw [hzero]
      exact Nat.zero_le m
    · exact (hlt.mp (by omega)).le
  obtain ⟨hcommitted, hok⟩ :=
    Insertion.insertPieces_sound P db ((Piece.cut posts).drop (count pieceSize m - 1))
  rw [Database.insertPieces_eq, flatMap_posts_cut] at hcommitted
  change out.1.committed = _ at hcommitted
  rw [hcommitted]
  constructor
  · rintro ⟨-, hsame, -⟩
    have hrel := List.forall₂_map_right_iff.mp hsame
    have hwritten := writtenTo_resume hj hm hdb hrel.length_eq.symm
    intro p hp
    obtain ⟨i, hi, rfl⟩ := List.mem_iff_getElem.mp hp
    have hrow := hrel.length_eq ▸ hi
    exact (hwritten.get hi hrow).readsBack (hrel.get hi hrow)
  · intro hback
    refine ⟨hok, List.forall₂_map_right_iff.mpr ?_, fun k => ?_⟩
    · have hstored := storedAs_resume hj hm hids (nodup_store_infoHash hnodup hback) hdb
      exact ((List.forall₂_and_left _ _).mpr ⟨hback, hstored⟩).imp fun p r h => h.2.sameData h.1
    · rw [(Insertion.insertPieces_sound _ _ _).1]
      exact insertPieces_again hj (hdb.imp fun _ _ => Post.StoredAs.foundAs) k

/-- The theorem at three posts, of which the first is there. -/
theorem insertPieces_resumed_sample :
    let posts := [(sampleRow 0).scan, (sampleRow 1).scan, (sampleRow 2).scan]
    let out := Insertion.insertPieces .sample .sound (sampleDatabase 1)
      ((Piece.cut posts).drop (count pieceSize 1 - 1))
    List.Forall₂ Post.SameData posts (out.1.committed.rows.map Row.scan) := by
  intro posts
  have hids : Numbered (fun p : Post => p.id.toInt) 0 posts := .cons rfl (.cons rfl (.cons rfl .nil))
  have hdb : List.Forall₂ (Post.StoredAs .sample) (posts.take 1) (sampleDatabase 1).rows :=
    .cons ⟨rfl, rfl, rfl, rfl, rfl, rfl, rfl, rfl⟩ .nil
  exact ((insertPieces_resumed_iff .sample hids (by decide) (by decide) hdb).mpr (by decide)).2.1

/-- A list with one post, whose info hash is `007`, is inserted into an empty database, and read back with the
info hash `7`. -/
theorem inserted_number_differs :
    let posts := [{ Database.samplePost [48, 48, 55] with id := 1 }]
    (Insertion.insertPieces .sampleNumeric .sound .new (Piece.cut posts)).1.committed.rows.map Row.scan =
      [{ Database.samplePost [55] with id := 1 }] := by
  decide +kernel

end Zif.Data
