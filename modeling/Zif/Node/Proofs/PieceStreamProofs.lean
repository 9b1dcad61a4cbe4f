import Zif.Data.Proofs.DatabaseProofs
import Zif.Data.Proofs.PostProofs
import Zif.Node.PieceStream

/-!
# Proofs: pieces on the wire

A post without a separator in its texts is read back as it was written (`readPost_write`), so a stream
of posts is cut into the pages of the list of posts (`readPieces_pieceStream`). The proof goes piece by
piece: reading a full piece leaves the reader at the next one, and the last piece ends at the id `-1` or
by being full.
-/

namespace Zif.Node

open Go Data Paging

variable {er : ErrorReader} {err : Bool} {posts : List Post}

/-! ## Fields -/

/-- A field is read up to its separator. -/
theorem readString_field {field : Bytes} (h : bar ∉ field) (rest : Bytes) (err : Bool) :
    ErrorReader.readString ⟨field ++ bar :: rest, err⟩ bar = (field, ⟨rest, false⟩) := by
  have hall : ∀ b ∈ field, (decide (b ≠ bar)) = true := by
    intro b hb
    refine decide_eq_true ?_
    rintro rfl
    exact h hb
  rw [ErrorReader.readString, if_pos (by simp)]
  simp only [List.takeWhile_append_of_pos hall, List.dropWhile_append_of_pos hall]
  simp

theorem convert_itoa (n : Int64) : convert (itoa n.toInt) = n := by
  rw [convert, atoi_itoa]
  rfl

/-! ## Posts -/

/-- A post that can be sent: its id does not end the stream, and no text has a separator in it. -/
structure Sendable (p : Post) : Prop where
  id : p.id ≠ -1
  infoHash : bar ∉ p.infoHash
  title : bar ∉ p.title
  tags : bar ∉ p.tags
  metadata : bar ∉ p.metadata

theorem sendable_of_plain {p : Post} (hid : 0 < p.id.toInt) (h : p.Plain) : Sendable p := by
  obtain ⟨hhash, htitle, htags, hmeta⟩ := Post.plain_iff.mp h
  refine ⟨?_, hhash, htitle, htags, hmeta⟩
  intro hneg
  rw [hneg] at hid
  exact absurd hid (by decide)

/-- The fields of a post, each with its separator. -/
theorem write_append (p : Post) (rest : Bytes) :
    p.write [bar] [] true ++ rest = itoa p.id.toInt ++ bar :: (p.infoHash ++ bar :: (p.title ++
      bar :: (itoa p.size.toInt ++ bar :: (itoa p.fileCount.toInt ++ bar :: (itoa p.seeders.toInt ++
      bar :: (itoa p.leechers.toInt ++ bar :: (itoa p.uploadDate.toInt ++ bar :: (p.tags ++
      bar :: (p.metadata ++ bar :: rest))))))))) := by
  unfold Post.write
  simp only [if_true, List.append_assoc, List.cons_append, List.nil_append]

/-- A post is read back as it was written. -/
theorem readPost_write {p : Post} (h : Sendable p) (rest : Bytes) (err : Bool) :
    readPost ⟨p.write [bar] [] true ++ rest, err⟩ = (.post p, ⟨rest, false⟩) := by
  rw [write_append, readPost]
  simp only [readString_field (bar_not_mem_itoa _), readString_field h.infoHash,
    readString_field h.title, readString_field h.tags, readString_field h.metadata, convert_itoa,
    if_neg h.id]
  rfl

/-- What the reader has left when it finds the id of the post that ends a stream: nine more fields. -/
def endFields : Bytes :=
  Delimited.joined bar [[], [], [48], [48], [48], [48], [48], [], []]

/-- The end of a stream is found at its id. -/
theorem readPost_endPost (err : Bool) :
    readPost ⟨endPost.write [bar] [] true, err⟩ = (.leave, ⟨endFields, false⟩) := by
  cases err <;> rfl

/-- A reader behind the end of a stream: at the fields behind the id, or with nothing left. -/
def Spent (er : ErrorReader) : Prop := er.rest = endFields ∨ er.rest = []

/-- There are too few fields left for a post, so the next round takes all of them and fails. -/
theorem Spent.readPost (h : Spent er) : readPost er = (.leave, ⟨[], true⟩) := by
  obtain ⟨rest, err⟩ := er
  rcases h with rfl | rfl
  · cases err <;> rfl
  · cases err <;> rfl

/-! ## Pieces -/

/-- A piece as it is received: its id is never set. -/
def received (posts : List Post) : Piece := ⟨0, posts, posts.flatMap Piece.textOf⟩

/-- Reading posts adds them to the piece, until it is full. -/
theorem readPosts_append (left : Nat) (piece : Piece) (hsend : ∀ p ∈ posts, Sendable p)
    (hleft : posts.length ≤ left) (rest : Bytes) (err : Bool) :
    ∃ err', readPosts left piece ⟨posts.flatMap (fun p => p.write [bar] [] true) ++ rest, err⟩ =
      readPosts (left - posts.length) (posts.foldl (Piece.addDropping true) piece) ⟨rest, err'⟩ := by
  induction posts generalizing left piece err with
  | nil => exact ⟨err, rfl⟩
  | cons p posts ih =>
    obtain ⟨left, rfl⟩ : ∃ k, left = k + 1 := Nat.exists_eq_succ_of_ne_zero (by simp at hleft; omega)
    have hp := readPost_write (hsend p List.mem_cons_self)
      (posts.flatMap (fun p => p.write [bar] [] true) ++ rest) err
    obtain ⟨err', hrest⟩ := ih left (piece.addDropping true p)
      (fun q hq => hsend q (List.mem_cons_of_mem p hq)) (by simpa using hleft) false
    refine ⟨err', ?_⟩
    rw [List.flatMap_cons, List.append_assoc, readPosts, hp]
    simp only
    rw [hrest, List.foldl_cons, List.length_cons, Nat.add_sub_add_right]

theorem foldl_addDropping_setup (hlen : posts.length ≤ pieceSize) :
    posts.foldl (Piece.addDropping true) (Piece.setup 0) = received posts := by
  rw [Piece.foldl_addDropping (by intro _; show 0 + _ ≤ _; omega) (by show 0 ≤ _; omega)]
  simp [received, Piece.setup]

/-- A full piece. -/
theorem readPosts_full (hsend : ∀ p ∈ posts, Sendable p) (hlen : posts.length = pieceSize)
    (rest : Bytes) (err : Bool) :
    ∃ err', readPosts pieceSize (Piece.setup 0)
      ⟨posts.flatMap (fun p => p.write [bar] [] true) ++ rest, err⟩ = (received posts, ⟨rest, err'⟩) := by
  obtain ⟨err', h⟩ := readPosts_append pieceSize (Piece.setup 0) hsend hlen.le rest err
  refine ⟨err', ?_⟩
  rw [h, hlen, Nat.sub_self, foldl_addDropping_setup hlen.le]
  rfl

theorem Spent.readPosts (h : Spent er) (piece : Piece) :
    readPosts pieceSize piece er = (piece, ⟨[], true⟩) := by
  rw [show pieceSize = 999 + 1 from rfl, Node.readPosts, h.readPost]

/-- The last piece, with the end of the stream behind it. -/
theorem readPosts_last (hsend : ∀ p ∈ posts, Sendable p) (hlen : posts.length < pieceSize)
    (err : Bool) :
    readPosts pieceSize (Piece.setup 0) ⟨pieceStream posts, err⟩ =
      (received posts, ⟨endFields, false⟩) := by
  obtain ⟨err', h⟩ := readPosts_append pieceSize (Piece.setup 0) hsend hlen.le
    (endPost.write [bar] [] true) err
  obtain ⟨left, hroom⟩ : ∃ left, pieceSize - posts.length = left + 1 :=
    Nat.exists_eq_succ_of_ne_zero (by omega)
  rw [pieceStream, h, foldl_addDropping_setup hlen.le, hroom, readPosts, readPost_endPost]

theorem pieceStream_split (posts : List Post) (k : Nat) :
    pieceStream posts = (posts.take k).flatMap (fun p => p.write [bar] [] true) ++
      pieceStream (posts.drop k) := by
  rw [pieceStream, pieceStream, ← List.append_assoc, ← List.flatMap_append, List.take_append_drop]

/-- The first piece is the first page of the posts; if there are more, the reader is at the rest. -/
theorem readPosts_long (hsend : ∀ p ∈ posts, Sendable p) (hlong : pieceSize ≤ posts.length)
    (err : Bool) :
    ∃ err', readPosts pieceSize (Piece.setup 0) ⟨pieceStream posts, err⟩ =
      (received (page pieceSize posts 0), ⟨pieceStream (posts.drop pieceSize), err'⟩) := by
  have hsend' : ∀ p ∈ posts.take pieceSize, Sendable p :=
    fun p hp => hsend p (List.mem_of_mem_take hp)
  obtain ⟨err', hfull⟩ := readPosts_full hsend' (by simp; omega)
    (pieceStream (posts.drop pieceSize)) err
  exact ⟨err', by rw [pieceStream_split posts pieceSize, hfull]; rfl⟩

theorem readPosts_first (hsend : ∀ p ∈ posts, Sendable p) (err : Bool) :
    (readPosts pieceSize (Piece.setup 0) ⟨pieceStream posts, err⟩).1 =
      received (page pieceSize posts 0) := by
  rcases Nat.lt_or_ge posts.length pieceSize with hshort | hlong
  · rw [readPosts_last hsend hshort err, page, Nat.mul_zero, List.drop_zero,
      List.take_of_length_le hshort.le]
  · obtain ⟨err', h⟩ := readPosts_long hsend hlong err
    rw [h]

/-- Behind the end of the stream the pieces are empty. -/
theorem Spent.readPieces (h : Spent er) (k : Nat) :
    readPieces k er = List.replicate k (received []) := by
  induction k generalizing er with
  | zero => rfl
  | succ k ih =>
    rw [Node.readPieces, h.readPosts]
    simp only
    rw [ih (.inr rfl), List.replicate_succ]
    rfl

/-- The pieces of a stream are the pages of its posts, however many are asked for. -/
theorem readPieces_pieceStream (hsend : ∀ p ∈ posts, Sendable p) (k : Nat) (err : Bool) :
    readPieces k ⟨pieceStream posts, err⟩ =
      (List.range k).map fun i => received (page pieceSize posts i) := by
  induction k generalizing posts err with
  | zero => rfl
  | succ k ih =>
    rw [List.range_succ_eq_map, List.map_cons, List.map_map, readPieces]
    rcases Nat.lt_or_ge posts.length pieceSize with hshort | hlong
    · have hrest : ∀ i ∈ List.range k, received (page pieceSize posts (i + 1)) = received [] := by
        intro i _
        rw [page_eq_nil (hshort.le.trans (Nat.le_mul_of_pos_right pieceSize (Nat.succ_pos i)))]
      rw [readPosts_last hsend hshort err]
      simp only
      rw [Spent.readPieces (.inl rfl) k, page, Nat.mul_zero, List.drop_zero,
        List.take_of_length_le hshort.le]
      congr 1
      exact (List.map_congr_left hrest).trans (by simp) |>.symm
    · obtain ⟨err', hfirst⟩ := readPosts_long hsend hlong err
      rw [hfirst]
      simp only
      rw [ih (fun p hp => hsend p (List.mem_of_mem_drop hp)) err']
      congr 1
      refine List.map_congr_left fun i _ => ?_
      have hpage := page_drop_mul pieceSize posts 1 i
      rw [Nat.mul_one, Nat.add_comm] at hpage
      rw [hpage]
      rfl

/-! ## What a reader can get -/

theorem bar_not_mem_readString (er : ErrorReader) : bar ∉ (er.readString bar).1 := by
  rw [ErrorReader.readString]
  split
  · intro hmem
    have := List.mem_takeWhile_imp hmem
    simp at this
  · simp

/-- Whatever is sent, a post that is read is plain. -/
theorem readPost_plain {p : Post} {er' : ErrorReader} (h : readPost er = (.post p, er')) : p.Plain := by
  unfold readPost at h
  split at h
  simp only at h
  split at h
  · simp at h
  · split at h
    · simp at h
    · rw [Prod.mk.injEq, Round.post.injEq] at h
      rw [← h.1, Post.plain_iff]
      dsimp only
      exact ⟨bar_not_mem_readString _, bar_not_mem_readString _, bar_not_mem_readString _,
        bar_not_mem_readString _⟩

/-- The posts of a piece are plain, and the hash of the piece has been fed what is stored in it. -/
structure Faithful (piece : Piece) : Prop where
  plain : ∀ p ∈ piece.posts, p.Plain
  filled : piece.Filled

theorem faithful_setup (id : UInt64) : Faithful (Piece.setup id) :=
  ⟨by simp [Piece.setup], Piece.filled_setup id⟩

theorem Faithful.addDropping {piece : Piece} (h : Faithful piece) {p : Post} (hp : p.Plain) :
    Faithful (piece.addDropping true p) := by
  refine ⟨?_, h.filled.addDropping p⟩
  rw [Piece.addDropping, Piece.add]
  split
  · rename_i heq
    split at heq
    · cases heq
    · injection heq with heq
      subst heq
      intro q hq
      rcases List.mem_append.mp hq with hold | hnew
      · exact h.plain q hold
      · rwa [List.mem_singleton.mp hnew]
  · exact h.plain

theorem Faithful.readPosts {piece : Piece} (h : Faithful piece) (left : Nat) (er : ErrorReader) :
    Faithful (readPosts left piece er).1 := by
  induction left generalizing piece er with
  | zero => exact h
  | succ left ih =>
    rw [Node.readPosts]
    split
    · rename_i p er' hpost
      exact ih (h.addDropping (readPost_plain hpost)) er'
    · exact h

theorem faithful_of_mem_readPieces {k : Nat} {piece : Piece} (h : piece ∈ readPieces k er) :
    Faithful piece := by
  induction k generalizing er with
  | zero => simp [readPieces] at h
  | succ k ih =>
    rw [readPieces] at h
    rcases List.mem_cons.mp h with rfl | hmem
    · exact (faithful_setup 0).readPosts pieceSize er
    · exact ih hmem

theorem faithful_of_mem_clientPieces {stream : Option Bytes} {length : Int64} {piece : Piece}
    (h : piece ∈ clientPieces stream length) : Faithful piece := by
  cases stream with
  | none => simp [clientPieces] at h
  | some stream => exact faithful_of_mem_readPieces h

/-! ## The round trip -/

/-- Posts are read back as they were written exactly when they are plain. -/
theorem clientPieces_pieceStream_iff (posts : List Post) (length : Int64)
    (hid : ∀ p ∈ posts, 0 < p.id.toInt) (hlen : (posts.length : Int) ≤ pieceSize * length.toInt) :
    (clientPieces (some (pieceStream posts)) length).flatMap Piece.posts = posts ↔
      ∀ p ∈ posts, p.Plain := by
  constructor
  · intro hsame p hp
    rw [← hsame] at hp
    obtain ⟨piece, hpiece, hmem⟩ := List.mem_flatMap.mp hp
    exact (faithful_of_mem_clientPieces hpiece).plain p hmem
  · intro hplain
    have hpages := take_eq_flatMap_page pieceSize posts length.toInt.toNat
    have hall : posts.length ≤ pieceSize * length.toInt.toNat := by
      rw [show pieceSize = 1000 from rfl] at hlen ⊢
      omega
    rw [clientPieces, readPieces_pieceStream fun p hp => sendable_of_plain (hid p hp) (hplain p hp),
      List.flatMap_map]
    exact hpages.trans (List.take_of_length_le hall)

/-- Two posts, the second with the title `a`. -/
theorem clientPieces_pieceStream_iff_two :
    let post := fun id : Int64 => (⟨id, [98], [97], 3, 1, 0, 0, 7, [], []⟩ : Post)
    let posts := [post 1, post 2]
    (∀ p ∈ posts, 0 < p.id.toInt) ∧ (posts.length : Int) ≤ pieceSize * (1 : Int64).toInt ∧
      ((clientPieces (some (pieceStream posts)) 1).flatMap Piece.posts = posts ↔
        ∀ p ∈ posts, p.Plain) :=
  ⟨by decide, by decide, clientPieces_pieceStream_iff _ 1 (by decide) (by decide)⟩

/-- A post with the title `a|b` passes its check and is read back with the title `a`. The fields behind
it move on by one, so that the size is read from the text `b`, and a second post is read from the one
that ends the stream. -/
theorem separator_in_title_read_back :
    let post : Post := ⟨1, [], [97, 124, 98], 3, 1, 0, 0, 7, [], []⟩
    post.valid 7 = .ok () ∧ 0 < post.id.toInt ∧ ([post].length : Int) ≤ pieceSize * (1 : Int64).toInt ∧
      (clientPieces (some (pieceStream [post])) 1).flatMap Piece.posts =
        [⟨1, [], [97], 0, 3, 1, 0, 0, [55], []⟩, ⟨0, [45, 49], [], 0, 0, 0, 0, 0, [48], []⟩] ∧
      (clientPieces (some (pieceStream [post])) 1).flatMap Piece.posts ≠ [post] := by
  have hread : (clientPieces (some (pieceStream [⟨1, [], [97, 124, 98], 3, 1, 0, 0, 7, [], []⟩])) 1).flatMap
      Piece.posts = [⟨1, [], [97], 0, 3, 1, 0, 0, [55], []⟩, ⟨0, [45, 49], [], 0, 0, 0, 0, 0, [48], []⟩] := by
    rfl
  refine ⟨by decide, by decide, by decide, hread, ?_⟩
  rw [hread]
  decide

end Zif.Node
