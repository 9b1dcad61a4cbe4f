import Zif.Data.Database
import Zif.Lib.Proofs.PagingProofs

/-!
# Proofs: the database of posts

On a database whose ids are `1..n`, `QueryPiece` returns the posts of the piece it is asked for
(`Numbered.queryPiece`), the count is `n`, and a post with a new info hash gets the id `n + 1`.
-/

namespace Zif.Data

open Go Paging

variable {P : Prims} {db : Database}

/-! ## Pieces -/

/-- Adding posts never fills a piece as long as no more than `pieceSize + 1` of them are stored. -/
theorem Piece.foldl_addDropping {store : Bool} {posts : List Post} {p : Piece}
    (h : store = true → p.posts.length + posts.length ≤ pieceSize + 1)
    (h0 : p.posts.length ≤ pieceSize) :
    posts.foldl (addDropping store) p =
      ⟨p.id, if store then p.posts ++ posts else p.posts, p.written ++ posts.flatMap textOf⟩ := by
  induction posts generalizing p with
  | nil => cases store <;> simp
  | cons post posts ih =>
    have hadd : p.addDropping store post =
        ⟨p.id, if store then p.posts ++ [post] else p.posts, p.written ++ textOf post⟩ := by
      simp [addDropping, add, Nat.not_lt.mpr h0]
    rw [List.foldl_cons, hadd]
    cases store with
    | false =>
      rw [ih (by simp) (by simpa using h0)]
      simp
    | true =>
      have hroom := h rfl
      simp only [List.length_cons] at hroom
      by_cases hnil : posts = []
      · subst hnil
        simp
      · have hpos := List.length_pos_iff.mpr hnil
        rw [ih (by intro _; simp; omega) (by simp; omega)]
        simp

namespace Database

/-! ## Paging by id -/

theorem toNat_ofNat_pieceSize : (UInt64.ofNat pieceSize).toNat = pieceSize := by decide

/-- The rows after the `k`-th, as many as asked for. -/
theorem Numbered.pagedPost (h : db.Numbered) {id limit : Int64} {k : Nat} (hid : id.toInt = k)
    (hlimit : 0 ≤ limit.toInt) :
    db.pagedPost id limit = (db.rows.drop k).take limit.toInt.toNat := by
  have hfilter := Paging.Numbered.filter_lt h k
  have hneg : ¬ limit < 0 := by
    rw [Int64.lt_iff_toInt_lt]
    simpa using hlimit
  have hkey : (fun r : Row => decide (id < r.id)) = fun r : Row => decide ((0 + k : Int) < r.id.toInt) := by
    funext r
    simp only [Int64.lt_iff_toInt_lt, hid, Int.zero_add]
  rw [Database.pagedPost, if_neg hneg, hkey]
  exact congrArg (List.take limit.toInt.toNat) hfilter

theorem Numbered.pieceRows (h : db.Numbered) (i : Nat) : db.pieceRows i = page pieceSize db.rows i :=
  Paging.Numbered.filter_page h i

/-- The first id `QueryPiece` leaves out, when it does not overflow. -/
theorem pieceStart {i : Nat} (hi : pieceSize * i < 2 ^ 63) :
    (UInt64.ofNat i * UInt64.ofNat pieceSize).toNat = pieceSize * i := by
  have hpos : i < 2 ^ 64 := by
    have : i ≤ pieceSize * i := Nat.le_mul_of_pos_left i (by decide)
    omega
  rw [UInt64.toNat_mul, toNat_ofNat_pieceSize, UInt64.toNat_ofNat', Nat.mod_eq_of_lt hpos,
    Nat.mod_eq_of_lt (by rw [Nat.mul_comm]; omega), Nat.mul_comm]

theorem toInt_pieceStart {i : Nat} (hi : pieceSize * i < 2 ^ 63) :
    (UInt64.ofNat i * UInt64.ofNat pieceSize).toInt64.toInt = ((pieceSize * i : Nat) : Int) := by
  have hnat := pieceStart hi
  rw [← UInt64.ofNat_toNat (x := UInt64.ofNat i * UInt64.ofNat pieceSize), hnat,
    UInt64.toInt64_ofNat', Int64.toInt_ofNat_of_lt hi]

/-- The rows `QueryPiece` reads. -/
def queriedRows (db : Database) (id : UInt64) : List Row :=
  db.pagedPost (id * UInt64.ofNat pieceSize).toInt64 (Int64.ofNat pieceSize)

/-- The query is for at most as many rows as a piece takes, so none is dropped. -/
theorem queryPiece_eq (db : Database) (id : UInt64) (store : Bool) :
    db.queryPiece id store = .ok ⟨id, if store then (db.queriedRows id).map Row.scan else [],
      (db.queriedRows id).flatMap fun r => Piece.textOf r.scan⟩ := by
  have hlimit : (Int64.ofNat pieceSize).toInt.toNat = pieceSize := by decide
  have hlen : ((db.queriedRows id).map Row.scan).length ≤ pieceSize := by
    rw [List.length_map, queriedRows, pagedPost, if_neg (by decide), hlimit]
    exact List.length_take_le _ _
  show Except.ok (((db.queriedRows id).map Row.scan).foldl _ _) = _
  rw [Piece.foldl_addDropping (by intro _; show 0 + _ ≤ _; omega) (by show 0 ≤ _; omega)]
  simp [Piece.setup, List.flatMap_map]

/-- `QueryPiece` on a database with the ids `1..n`. -/
theorem Numbered.queryPiece (h : db.Numbered) {i : Nat} (hi : pieceSize * i < 2 ^ 63) (store : Bool) :
    db.queryPiece (UInt64.ofNat i) store = .ok ⟨UInt64.ofNat i,
      if store then (db.pieceRows i).map Row.scan else [], db.pieceText i⟩ := by
  have hlimit : (Int64.ofNat pieceSize).toInt.toNat = pieceSize := by decide
  have hrows : db.queriedRows (UInt64.ofNat i) = db.pieceRows i := by
    rw [queriedRows, h.pagedPost (toInt_pieceStart hi) (by decide), hlimit, h.pieceRows]
    rfl
  rw [queryPiece_eq, hrows]
  rfl

/-- `QueryPiecePosts` on a database with the ids `1..n`: the posts from piece `s` on, `s` more of them
than `l` pieces have. -/
theorem Numbered.queryPiecePosts (h : db.Numbered) {start length : Int64} {s l : Nat}
    (hs : start.toInt = s) (hl : length.toInt = l) (hstart : pieceSize * s < 2 ^ 63)
    (hend : s + pieceSize * l < 2 ^ 63) :
    db.queryPiecePosts start length =
      ((db.rows.drop (pieceSize * s)).take (s + pieceSize * l)).map Row.scan := by
  have hofNat : ∀ {x : Int64} {n : Nat}, x.toInt = n → x = Int64.ofNat n := by
    intro x n hx
    have hlt := x.toInt_lt
    rw [← Int64.toInt_inj, Int64.toInt_ofNat_of_lt (by omega), hx]
  have hid : start * Int64.ofNat pieceSize = Int64.ofNat (pieceSize * s) := by
    rw [hofNat hs, Nat.mul_comm, Int64.ofNat_mul]
  have hlimit : start + Int64.ofNat pieceSize * length = Int64.ofNat (s + pieceSize * l) := by
    rw [hofNat hs, hofNat hl, Int64.ofNat_add, Int64.ofNat_mul]
  rw [Database.queryPiecePosts, hid, hlimit,
    h.pagedPost (Int64.toInt_ofNat_of_lt hstart) (by rw [Int64.toInt_ofNat_of_lt hend]; omega),
    Int64.toInt_ofNat_of_lt hend, Int.toNat_natCast]

/-! ## Counting and inserting -/

theorem numbered_new : new.Numbered := Paging.Numbered.nil

/-- The first posts of a numbered database are numbered. -/
theorem Numbered.of_take (h : db.Numbered) {db' : Database} {k : Nat}
    (hrows : db'.rows = db.rows.take k) : db'.Numbered := by
  rw [Database.Numbered, hrows]
  exact Paging.Numbered.take h k

theorem Numbered.getLast? (h : db.Numbered) :
    (db.rows = [] ∧ db.rows.getLast? = none) ∨
      ∃ r, db.rows.getLast? = some r ∧ r.id.toInt = db.rows.length := by
  by_cases hnil : db.rows = []
  · exact .inl ⟨hnil, by rw [hnil]; rfl⟩
  · refine .inr ⟨db.rows.getLast hnil, List.getLast?_eq_some_getLast hnil, ?_⟩
    simpa using Paging.Numbered.key_getLast h hnil

theorem Numbered.postCount (h : db.Numbered) : db.postCount = db.rows.length := by
  rcases h.getLast? with ⟨hnil, hlast⟩ | ⟨r, hlast, hr⟩
  · rw [Database.postCount, hlast, hnil]
    rfl
  · rw [Database.postCount, hlast]
    show r.id.toInt.toNat = _
    omega

theorem Numbered.length_lt (h : db.Numbered) : db.rows.length < 2 ^ 63 := by
  rcases h.getLast? with ⟨hnil, -⟩ | ⟨r, -, hr⟩
  · rw [hnil]
    decide
  · have := r.id.toInt_lt
    omega

/-- Each piece of a database starts below the range of an id. -/
theorem Numbered.pieceStart_lt (h : db.Numbered) {i : Nat}
    (hi : i < count pieceSize db.rows.length) : pieceSize * i < 2 ^ 63 := by
  have hrows := (lt_count_iff (by decide) _ _).mp hi
  have hlt := h.length_lt
  omega

theorem Numbered.nextId (h : db.Numbered) (hn : db.rows.length + 1 < 2 ^ 63) :
    db.nextId.toInt = db.rows.length + 1 := by
  rcases h.getLast? with ⟨hnil, hlast⟩ | ⟨r, hlast, hr⟩
  · rw [Database.nextId, hlast, hnil]
    decide
  · rw [Database.nextId, hlast]
    show (r.id + 1).toInt = _
    rw [Int64.toInt_add, hr, Int64.toInt_one, Int.bmod_eq_of_le] <;> omega

theorem insert_of_mem {post : Post} (h : ∃ r ∈ db.rows, r.infoHash = P.store post.infoHash) :
    db.insert P post = db := by
  rw [insert, if_pos]
  simpa using h

theorem insert_of_not_mem {post : Post} (h : ∀ r ∈ db.rows, r.infoHash ≠ P.store post.infoHash) :
    db.insert P post = ⟨db.rows ++ [post.toRow P db.nextId], db.nextId⟩ := by
  rw [insert, if_neg]
  simpa using h

/-- The two outcomes of an insertion. -/
theorem insert_cases (P : Prims) (db : Database) (post : Post) :
    ((∃ r ∈ db.rows, r.infoHash = P.store post.infoHash) ∧ db.insert P post = db) ∨
      (∀ r ∈ db.rows, r.infoHash ≠ P.store post.infoHash) ∧
        db.insert P post = ⟨db.rows ++ [post.toRow P db.nextId], db.nextId⟩ := by
  by_cases hmem : ∃ r ∈ db.rows, r.infoHash = P.store post.infoHash
  · exact .inl ⟨hmem, insert_of_mem hmem⟩
  · push Not at hmem
    exact .inr ⟨hmem, insert_of_not_mem hmem⟩

/-- A post with a new info hash is added with the next id. -/
theorem Numbered.insert (h : db.Numbered) (hn : db.rows.length + 1 < 2 ^ 63) (post : Post) :
    (db.insert P post).Numbered := by
  rcases insert_cases P db post with ⟨-, heq⟩ | ⟨-, heq⟩
  · rwa [heq]
  · rw [heq]
    refine Paging.numbered_append_singleton.mpr ⟨h, ?_⟩
    show db.nextId.toInt = _
    rw [h.nextId hn]
    simp

/-! ## Changing rows -/

/-- The databases have the same pieces, up to what is not hashed. -/
def SameTexts (db db' : Database) : Prop :=
  db'.postCount = db.postCount ∧ ∀ id,
    (db'.queriedRows id).flatMap (fun r => Piece.textOf r.scan) =
      (db.queriedRows id).flatMap fun r => Piece.textOf r.scan

theorem SameTexts.refl (db : Database) : SameTexts db db := ⟨rfl, fun _ => rfl⟩

theorem SameTexts.trans {db' db'' : Database} (h : SameTexts db db') (h' : SameTexts db' db'') :
    SameTexts db db'' :=
  ⟨h'.1.trans h.1, fun id => (h'.2 id).trans (h.2 id)⟩

/-- A change that keeps the id and the text of the rows it is made to. -/
theorem sameTexts_updateWhere {id : Int64} {set : Row → Row} (hid : ∀ r, (set r).id = r.id)
    (htext : ∀ r ∈ db.rows, r.id = id → Piece.textOf (set r).scan = Piece.textOf r.scan) :
    SameTexts db (db.updateWhere id set) := by
  set f := fun r : Row => if r.id = id then set r else r with hf
  have hfid : ∀ r, (f r).id = r.id := by
    intro r
    by_cases h : r.id = id <;> simp [hf, h, hid]
  have hftext : ∀ r ∈ db.rows, Piece.textOf (f r).scan = Piece.textOf r.scan := by
    intro r hr
    by_cases h : r.id = id
    · simpa [hf, h] using htext r hr h
    · simp [hf, h]
  have hrows : (db.updateWhere id set).rows = db.rows.map f := rfl
  refine ⟨?_, fun piece => ?_⟩
  · unfold postCount
    rw [hrows, List.getLast?_map]
    cases db.rows.getLast? with
    | none => rfl
    | some r => simp [hfid]
  · have hpaged : (db.updateWhere id set).queriedRows piece = (db.queriedRows piece).map f := by
      simp only [queriedRows, pagedPost, hrows, List.filter_map, Function.comp_def, hfid]
      rw [if_neg (by decide), if_neg (by decide), List.map_take]
    rw [hpaged, List.flatMap_map]
    refine List.flatMap_congr fun r hr => hftext r ?_
    rw [queriedRows, pagedPost, if_neg (by decide)] at hr
    exact List.mem_of_mem_filter (List.mem_of_mem_take hr)

theorem sameTexts_execUpdate {id : Int64} {set : Row → Row} (fails : Option String)
    (hid : ∀ r, (set r).id = r.id)
    (htext : ∀ r ∈ db.rows, r.id = id → Piece.textOf (set r).scan = Piece.textOf r.scan) :
    SameTexts db (db.execUpdate id set fails).1 := by
  cases fails with
  | some err => exact SameTexts.refl db
  | none => exact sameTexts_updateWhere hid htext

/-- Counts that are not hashed. -/
theorem sameTexts_execCount {id count : UInt64} {set : Int64 → Row → Row} (fails : Option String)
    (hid : ∀ n r, (set n r).id = r.id)
    (htext : ∀ n r, Piece.textOf (set n r).scan = Piece.textOf r.scan) :
    SameTexts db (db.execCount id count set fails).1 :=
  sameTexts_execUpdate fails (hid _) fun r _ _ => htext _ r

theorem sameTexts_setSeeders (db : Database) (id n : UInt64) (fails : Option String) :
    SameTexts db (db.setSeeders id n fails).1 :=
  sameTexts_execCount fails (fun _ _ => rfl) fun _ _ => by simp [Piece.textOf, Post.write, Row.scan]

theorem sameTexts_setLeechers (db : Database) (id n : UInt64) (fails : Option String) :
    SameTexts db (db.setLeechers id n fails).1 :=
  sameTexts_execCount fails (fun _ _ => rfl) fun _ _ => by simp [Piece.textOf, Post.write, Row.scan]

/-- Metadata that reads as it did. -/
theorem sameTexts_addMeta {pid : Int64} {value : Bytes} (fails : Option String)
    (hsame : ∀ r ∈ db.rows, r.id = pid → (P.store value).load = r.metadata.load) :
    SameTexts db (db.addMeta P pid value fails).1 := by
  refine sameTexts_execUpdate fails (fun _ => rfl) fun r hr hid => ?_
  simp [Piece.textOf, Post.write, Row.scan, hsame r hr hid]

/-! ## Few pieces -/

/-- A database with one piece. -/
theorem pieceHashes_of_le (hpos : 0 < db.rows.length) (hle : db.rows.length ≤ pieceSize) :
    db.pieceHashes P = P.sha3 (db.pieceText 0) := by
  have hone : count pieceSize db.rows.length = 1 := by
    have h1 := (count_le_one_iff (by decide) db.rows.length).mpr hle
    have h2 := (count_pos_iff (by decide : 0 < pieceSize) db.rows.length).mpr hpos
    omega
  simp [pieceHashes, hone]

/-- With one piece, the last post is in it. -/
theorem Numbered.exists_last_mem (h : db.Numbered) (hpos : 0 < db.rows.length)
    (hle : db.rows.length ≤ pieceSize) {id : Int64} (hid : id.toInt = db.rows.length) :
    ∃ r ∈ db.pieceRows 0, r.id = id := by
  rcases h.getLast? with ⟨hnil, -⟩ | ⟨r, hlast, hr⟩
  · rw [hnil] at hpos
    exact absurd hpos (by simp)
  · refine ⟨r, List.mem_filter.mpr ⟨List.mem_of_getLast? hlast, ?_⟩, ?_⟩
    · refine decide_eq_true ?_
      rw [hr]
      omega
    · exact Int64.toInt_inj.mp (hr.trans hid.symm)

theorem pieceHashes_of_nil (h : db.rows = []) : db.pieceHashes P = [] := by
  rw [pieceHashes, h]
  rfl

/-! ## A run of insertions -/

theorem insertAll_append (posts posts' : List Post) :
    db.insertAll P (posts ++ posts') = (db.insertAll P posts).insertAll P posts' :=
  List.foldl_append

theorem length_le_insert (db : Database) (post : Post) :
    db.rows.length ≤ (db.insert P post).rows.length := by
  rw [insert]
  split <;> simp

theorem length_insert_le (db : Database) (post : Post) :
    (db.insert P post).rows.length ≤ db.rows.length + 1 := by
  rw [insert]
  split <;> simp

theorem insert_length_pos (db : Database) (post : Post) : 0 < (db.insert P post).rows.length := by
  rcases insert_cases P db post with ⟨⟨r, hr, -⟩, heq⟩ | ⟨-, heq⟩
  · rw [heq]
    exact List.length_pos_of_mem hr
  · rw [heq]
    simp

theorem length_insertAll_le (db : Database) (posts : List Post) :
    (db.insertAll P posts).rows.length ≤ db.rows.length + posts.length := by
  induction posts generalizing db with
  | nil => exact le_rfl
  | cons post posts ih =>
    have hone := length_insert_le (P := P) db post
    have hrest := ih (db.insert P post)
    rw [List.length_cons]
    change ((db.insert P post).insertAll P posts).rows.length ≤ _
    omega

theorem length_le_insertAll (db : Database) (posts : List Post) :
    db.rows.length ≤ (db.insertAll P posts).rows.length := by
  induction posts generalizing db with
  | nil => exact le_rfl
  | cons post posts ih => exact (length_le_insert db post).trans (ih (db.insert P post))

theorem Numbered.insertAll (h : db.Numbered) {posts : List Post}
    (hlt : (db.insertAll P posts).rows.length + 1 < 2 ^ 63) : (db.insertAll P posts).Numbered := by
  induction posts generalizing db with
  | nil => exact h
  | cons post posts ih =>
    have h1 := length_le_insert (P := P) db post
    have h2 := length_le_insertAll (P := P) (db.insert P post) posts
    have hrest : ((db.insert P post).insertAll P posts).rows.length + 1 < 2 ^ 63 := hlt
    exact ih (h.insert (by omega) post) hrest

/-- Each post is stored or already there. -/
theorem mem_infoHashes_insert (db : Database) (post : Post) {x : Cell} :
    x ∈ (db.insert P post).rows.map Row.infoHash ↔
      x ∈ db.rows.map Row.infoHash ∨ x = P.store post.infoHash := by
  rcases insert_cases P db post with ⟨⟨r, hr, hsame⟩, heq⟩ | ⟨-, heq⟩
  · rw [heq]
    refine ⟨Or.inl, ?_⟩
    rintro (hx | rfl)
    · exact hx
    · exact List.mem_map.mpr ⟨r, hr, hsame⟩
  · rw [heq, List.map_append, List.mem_append]
    exact or_congr_right List.mem_singleton

theorem mem_infoHashes_insertAll (db : Database) (posts : List Post) {x : Cell} :
    x ∈ (db.insertAll P posts).rows.map Row.infoHash ↔
      x ∈ db.rows.map Row.infoHash ∨ x ∈ posts.map fun post => P.store post.infoHash := by
  induction posts generalizing db with
  | nil => simp [insertAll]
  | cons post posts ih =>
    refine (ih (db.insert P post)).trans ?_
    rw [mem_infoHashes_insert, List.map_cons, List.mem_cons, or_assoc]

/-- The info hashes that are stored stay different. -/
theorem nodup_infoHashes_insert (hnodup : (db.rows.map Row.infoHash).Nodup) (post : Post) :
    ((db.insert P post).rows.map Row.infoHash).Nodup := by
  rcases insert_cases P db post with ⟨-, heq⟩ | ⟨hnew, heq⟩
  · rwa [heq]
  · rw [heq, List.map_append]
    refine hnodup.append (List.nodup_singleton _) (List.disjoint_singleton.mpr fun hin => ?_)
    obtain ⟨r, hr, hsame⟩ := List.mem_map.mp hin
    exact hnew r hr hsame

theorem nodup_infoHashes_insertAll (hnodup : (db.rows.map Row.infoHash).Nodup) (posts : List Post) :
    ((db.insertAll P posts).rows.map Row.infoHash).Nodup := by
  induction posts generalizing db with
  | nil => exact hnodup
  | cons post posts ih => exact ih (nodup_infoHashes_insert hnodup post)

/-- As many posts are stored as have different info hashes. -/
theorem length_insertAll_new (posts : List Post) :
    (new.insertAll P posts).rows.length = (posts.map fun post => P.store post.infoHash).dedup.length := by
  have hnil : (new.rows.map Row.infoHash).Nodup := List.nodup_nil
  have hperm : ((new.insertAll P posts).rows.map Row.infoHash).Perm
      (posts.map fun post => P.store post.infoHash).dedup := by
    rw [List.perm_ext_iff_of_nodup (nodup_infoHashes_insertAll hnil posts) (List.nodup_dedup _)]
    intro x
    rw [mem_infoHashes_insertAll, List.mem_dedup]
    simp [new]
  have hlen := hperm.length_eq
  rwa [List.length_map] at hlen

/-- Posts that are there already change nothing. -/
theorem insertAll_of_mem {posts : List Post}
    (h : ∀ post ∈ posts, P.store post.infoHash ∈ db.rows.map Row.infoHash) : db.insertAll P posts = db := by
  induction posts with
  | nil => rfl
  | cons post posts ih =>
    obtain ⟨r, hr, hsame⟩ := List.mem_map.mp (h post List.mem_cons_self)
    show (db.insert P post).insertAll P posts = db
    rw [insert_of_mem ⟨r, hr, hsame⟩]
    exact ih fun p hp => h p (List.mem_cons_of_mem _ hp)

end Database

/-! ## Storing pieces -/

/-- Storing a piece adds its posts to the transaction, whether or not that is committed first. -/
theorem Writer.tx_receive (w : Writer) (piece : Piece) :
    (w.receive P piece).tx = w.tx.insertAll P piece.posts := by
  rw [Writer.receive]
  split <;> rfl

theorem Writer.tx_foldl_receive (w : Writer) (pieces : List Piece) :
    (pieces.foldl (Writer.receive P) w).tx = w.tx.insertAll P (pieces.flatMap Piece.posts) := by
  induction pieces generalizing w with
  | nil => rfl
  | cons piece pieces ih =>
    rw [List.foldl_cons, ih, tx_receive, List.flatMap_cons, Database.insertAll_append]

theorem Database.insertPieces_eq (db : Database) (pieces : List Piece) :
    db.insertPieces P pieces = db.insertAll P (pieces.flatMap Piece.posts) :=
  Writer.tx_foldl_receive (Writer.start db) pieces

/-! ## A database of `n` posts -/

/-- A post with a one-letter info hash, repeated. -/
def sampleRow (i : Nat) : Row where
  id := Int64.ofNat (i + 1)
  infoHash := .text (List.replicate (i + 1) 97)
  title := .text []
  size := 0
  fileCount := 0
  seeders := 0
  leechers := 0
  uploadDate := 0
  tags := .text []
  metadata := .text []

/-- A database with the ids `1..n`. -/
def sampleDatabase (n : Nat) : Database := ⟨(List.range n).map sampleRow, Int64.ofNat n⟩

theorem length_sampleDatabase (n : Nat) : (sampleDatabase n).rows.length = n := by
  simp [sampleDatabase]

theorem numbered_sampleDatabase {n : Nat} (hn : n < 2 ^ 63) : (sampleDatabase n).Numbered := by
  induction n with
  | zero => exact .nil
  | succ n ih =>
    rw [Database.Numbered, sampleDatabase, List.range_succ, List.map_append]
    refine Paging.numbered_append_singleton.mpr ⟨ih (by omega), ?_⟩
    show (Int64.ofNat (n + 1)).toInt = _
    rw [Int64.toInt_ofNat_of_lt hn]
    simp

end Zif.Data
