import Zif.Data.Proofs.ResumeProofs
import Zif.Dht.Proofs.EntryProofs
import Zif.Node.Proofs.HashListProofs
import Zif.Node.Proofs.PieceStreamProofs

/-!
# Proofs: mirroring

The pieces that are received are compared with the hash list from its beginning, although they start
at the piece `since`. So every piece from an honest peer is accepted when that is piece 0, which means at
most 1000 posts are already there, or when there is nothing to do. Otherwise the first piece is
compared with the hash of piece 0 and refused.

The posts that are accepted are stored in the order of the peer, and those that are already there are
skipped, so the new ones get the ids they have at the peer (`Index.insertAll_rows`). They are the posts of
the peer if the columns store again what was read from them (`Index.insertAll_rows_iff`).
-/

namespace Zif.Node

open Go Dht Data Paging

variable {P : Prims} {grow : Nat → Nat} {remote db : Database}

/-! ## Storing the posts of another peer -/

/-- A row is stored as it was read, when it gets the same id, if its texts are. -/
theorem toRow_scan_eq_iff (P : Prims) (r : Row) :
    r.scan.toRow P r.id = r ↔ ∀ text ∈ r.texts, P.store text.load = text := by
  obtain ⟨id, infoHash, title, size, fileCount, seeders, leechers, uploadDate, tags, metadata⟩ := r
  simp [Post.toRow, Row.scan, Row.texts]

/-- Storing all posts of the peer skips those that are there, if their info hashes are found again, and adds
the others. -/
theorem Index.insertAll_rows (h : Index remote) {m : Nat} (hm : m ≤ remote.rows.length)
    (hdb : db.rows = remote.rows.take m)
    (hhash : ∀ r ∈ remote.rows, P.store r.infoHash.load = r.infoHash) :
    (db.insertAll P (remote.rows.map Row.scan)).rows =
      db.rows ++ (remote.rows.drop m).map fun r => r.scan.toRow P r.id := by
  have hfound : ∀ rows : List Row, (∀ r ∈ rows, r ∈ remote.rows) →
      List.Forall₂ (Post.FoundAs P) (rows.map Row.scan) rows := fun rows hrows =>
    List.forall₂_map_left_iff.mpr (List.forall₂_same.mpr fun r hr => ⟨rfl, (hhash r (hrows r hr)).symm⟩)
  have hids : Numbered (fun p : Post => p.id.toInt) 0 (remote.rows.map Row.scan) :=
    numbered_map.mpr h.numbered
  have hnodup : ((remote.rows.map Row.scan).map fun p => P.store p.infoHash).Nodup := by
    rw [← map_infoHash (hfound remote.rows fun _ hr => hr)]
    exact h.unique
  have hthere : List.Forall₂ (Post.FoundAs P) ((remote.rows.map Row.scan).take m) db.rows := by
    rw [hdb, ← List.map_take]
    exact hfound _ fun _ hr => List.mem_of_mem_take hr
  have hall := insertAll_resume (Nat.zero_le m) (by rwa [List.length_map]) hids hnodup hthere
  rw [List.drop_zero, ← List.map_drop, List.map_map] at hall
  exact hall

/-- So the result is the database of the peer exactly when every text that is added is stored as it was. -/
theorem Index.insertAll_rows_iff (h : Index remote) {m : Nat} (hm : m ≤ remote.rows.length)
    (hdb : db.rows = remote.rows.take m)
    (hhash : ∀ r ∈ remote.rows, P.store r.infoHash.load = r.infoHash) :
    (db.insertAll P (remote.rows.map Row.scan)).rows = remote.rows ↔
      ∀ r ∈ remote.rows.drop m, ∀ text ∈ r.texts, P.store text.load = text := by
  have hsplit : remote.rows = db.rows ++ (remote.rows.drop m).map id := by
    rw [hdb, List.map_id, List.take_append_drop]
  have hrows := h.insertAll_rows hm hdb hhash
  calc (db.insertAll P (remote.rows.map Row.scan)).rows = remote.rows
      ↔ db.rows ++ (remote.rows.drop m).map (fun r => r.scan.toRow P r.id) =
          db.rows ++ (remote.rows.drop m).map id := by rw [hrows, ← hsplit]
    _ ↔ (remote.rows.drop m).map (fun r => r.scan.toRow P r.id) = (remote.rows.drop m).map id :=
      List.append_right_inj db.rows
    _ ↔ ∀ r ∈ remote.rows.drop m, r.scan.toRow P r.id = r := List.map_inj_left
    _ ↔ _ := forall₂_congr fun r _ => toRow_scan_eq_iff P r

/-- Each post is in the database afterwards; if that is the database of the peer, it has the info hash of one
of its rows. -/
theorem infoHash_of_insertAll (hun : Unmistaken P remote)
    (hrows : (db.insertAll P (remote.rows.map Row.scan)).rows = remote.rows) :
    ∀ r ∈ remote.rows, P.store r.infoHash.load = r.infoHash := by
  intro r hr
  have hmem : P.store r.infoHash.load ∈
      (db.insertAll P (remote.rows.map Row.scan)).rows.map Row.infoHash := by
    rw [Database.mem_infoHashes_insertAll]
    exact .inr (List.mem_map_of_mem (f := fun p : Post => P.store p.infoHash) (List.mem_map_of_mem hr))
  rw [hrows] at hmem
  obtain ⟨r', hr', heq⟩ := List.mem_map.mp hmem
  rw [hun r hr r' hr' heq.symm]
  rw [hun r hr r' hr' heq.symm] at heq
  exact heq.symm

/-! ## The hash list -/

theorem length_pieceHashes (P : Prims) (remote : Database) :
    (remote.pieceHashes P).length = 32 * count pieceSize remote.rows.length := by
  rw [← Collection.flatMap_hash_piecesOf, Collection.length_flatMap_hash, Collection.length_piecesOf]

/-- Block `i` of the hash list is the hash of piece `i`. -/
theorem block_eq {hl : Buffer UInt8} (hview : hl.view = remote.pieceHashes P) {i : Nat}
    (hi : i < count pieceSize remote.rows.length) :
    hl.sliceAt (32 * i) (32 * i + 32) = some (P.sha3 (remote.pieceText i)) := by
  have hlen : hl.len = 32 * count pieceSize remote.rows.length := by
    rw [← Buffer.length_view, hview, length_pieceHashes]
  rw [Buffer.sliceAt_eq (by omega) (by omega), hview, Nat.add_sub_cancel_left]
  exact congrArg some (page_flatMap (fun i => P.sha3_length (remote.pieceText i)) hi)

/-- `Verify` accepts the hash list of the posts. -/
theorem verify_pieceHashes {mhl : MessageCollection} (hview : mhl.hashList.view = remote.pieceHashes P)
    (hsize : mhl.size.toInt = count pieceSize remote.rows.length) {root : Bytes}
    (hroot : root = P.sha3 (remote.pieceHashes P)) : mhl.verify P root = .ok () := by
  have hlen : mhl.hashList.len = 32 * mhl.size.toInt.toNat := by
    rw [← Buffer.length_view, hview, length_pieceHashes, hsize, Int.toNat_natCast]
  rw [MessageCollection.verify_of_len hlen, hview, hroot]

/-- A hash list that fits into a message is short. -/
theorem HashListFits.count_le {n : Nat} (h : HashListFits n) : count pieceSize n ≤ 131072 := by
  have hbytes : 32 * count pieceSize n ≤ encodedBytes (32 * count pieceSize n) :=
    Nat.le_add_left _ _
  rw [HashListFits, encodedCollection] at h
  have hmax : maxMessageContentSize = 4194304 := rfl
  omega

theorem count_lt (h : remote.Numbered) : count pieceSize remote.rows.length < 2 ^ 63 := by
  by_contra hge
  have hlt := h.length_lt
  have hmul := (lt_count_iff (by decide) remote.rows.length (2 ^ 63 - 1)).mp
    (by omega : 2 ^ 63 - 1 < count pieceSize remote.rows.length)
  rw [show pieceSize = 1000 from rfl] at hmul
  omega

theorem toInt_ofNat_count (h : remote.Numbered) :
    (Int64.ofNat (count pieceSize remote.rows.length)).toInt = count pieceSize remote.rows.length :=
  Int64.toInt_ofNat_of_lt (count_lt h)

theorem readN_empty (grow : Nat → Nat) (b : Bytes) :
    readN grow Buffer.empty b = Buffer.empty.append grow 0 b := by
  rw [readN]
  split
  · rename_i h
    obtain rfl : b = [] := List.eq_nil_of_length_eq_zero (Nat.le_zero.mp h)
    rfl
  · rfl

/-- A collection message is read as it was written, into a fresh array. -/
theorem read_write (grow : Nat → Nat) (mhl : MessageCollection) :
    MessageCollection.read grow mhl.write =
      if encodedCollection mhl.hashList.len mhl.size.toInt > maxMessageContentSize then
        .error (.error "unexpected EOF")
      else .ok ⟨Buffer.empty.append grow 0 mhl.hashList.view, mhl.size⟩ := by
  rw [← readN_empty]
  rfl

/-- The message with the hash list, as it is received. -/
def receivedList (P : Prims) (grow : Nat → Nat) (remote : Database) : MessageCollection where
  hashList := Buffer.empty.append grow 0 (remote.pieceHashes P)
  size := Int64.ofNat (count pieceSize remote.rows.length)

theorem view_receivedList (P : Prims) (grow : Nat → Nat) (remote : Database) :
    (receivedList P grow remote).hashList.view = remote.pieceHashes P := by
  simp [receivedList]

variable {srv : Server} {entry : Entry}

/-- `Client.Collection` gets the hash list if it fits. -/
theorem Publishes.clientCollection (h : Publishes P srv entry remote) (grow : Nat → Nat) :
    clientCollection P grow ((honestSession P srv entry).hashList entry.address) entry =
      if encodedCollection (32 * count pieceSize remote.rows.length)
          (count pieceSize remote.rows.length) > maxMessageContentSize then
        .error (.error "unexpected EOF")
      else .ok (receivedList P grow remote) := by
  obtain ⟨hl, hview, hreply⟩ := h.hashList
  have hlen : hl.len = 32 * count pieceSize remote.rows.length := by
    rw [← Buffer.length_view, hview, length_pieceHashes]
  have hdiv : hl.len / 32 = count pieceSize remote.rows.length := by omega
  have hsize := toInt_ofNat_count h.index.numbered
  have hsession : (honestSession P srv entry).hashList entry.address =
      .ok (MessageCollection.write ⟨hl, Int64.ofNat (count pieceSize remote.rows.length)⟩) := by
    simp only [honestSession, hreply, hdiv]
  have hverify : (receivedList P grow remote).verify P entry.collectionHash = .ok () :=
    verify_pieceHashes (view_receivedList P grow remote) hsize h.root
  rw [Node.clientCollection, hsession]
  show (MessageCollection.read grow (MessageCollection.write _) >>= _) = _
  rw [read_write, hsize, hlen, hview]
  split
  · rfl
  · show (MessageCollection.verify P (receivedList P grow remote) entry.collectionHash >>= _) = _
    rw [hverify]
    rfl

/-! ## The pieces -/

theorem Index.sendable (h : Index remote) {posts : List Post} {k : Nat}
    (hposts : posts = (remote.rows.drop k).map Row.scan) : ∀ p ∈ posts, Sendable p := by
  intro p hp
  rw [hposts] at hp
  obtain ⟨r, hr, rfl⟩ := List.mem_map.mp hp
  have hmem := List.mem_of_mem_drop hr
  have hkey := Paging.Numbered.lt_key h.numbered hmem
  refine sendable_of_plain (p := r.scan) (by show 0 < r.id.toInt; omega) fun text htext => ?_
  obtain ⟨c, hc, rfl⟩ := List.mem_map.mp (show text ∈ r.texts.map Cell.load from htext)
  exact h.noBar r hmem c hc

/-- A received page hashes to the piece it is. -/
theorem Index.hash_received (h : Index remote) (i : Nat) :
    (received ((page pieceSize remote.rows i).map Row.scan)).hash P = P.sha3 (remote.pieceText i) := by
  rw [Database.pieceText, h.numbered.pieceRows, received, Piece.hash, List.flatMap_map]

/-- When every piece has the hash that is listed, all of them are stored. -/
theorem receivePieces_ok {hl : Buffer UInt8} {pieces : List Piece} {i : Nat} (w : Writer)
    (h : ∀ j (hj : j < pieces.length),
      hl.sliceAt (32 * (i + j)) (32 * (i + j) + 32) = some (pieces[j].hash P)) :
    receivePieces P hl i w pieces = (pieces.foldl (Writer.receive P) w, .ok ()) := by
  induction pieces generalizing i w with
  | nil => rfl
  | cons piece pieces ih =>
    have hfirst : hl.sliceAt (32 * i) (32 * i + 32) = some (piece.hash P) := h 0 (by simp)
    rw [receivePieces, hfirst]
    simp only [ne_eq, not_true_eq_false, if_false]
    rw [ih (w.receive P piece), List.foldl_cons]
    intro j hj
    have hnext := h (j + 1) (by simpa using hj)
    rwa [show i + (j + 1) = i + 1 + j by omega] at hnext

/-! ## A session with an honest peer -/

theorem Publishes.mirror_of_fits (h : Publishes P srv entry remote) (grow : Nat → Nat) (db : Database)
    (hfits : HashListFits remote.rows.length) :
    mirror P grow db (honestSession P srv entry) =
      download P db (honestSession P srv entry) entry (receivedList P grow remote) := by
  have hcol := h.clientCollection grow
  rw [if_neg (Nat.not_lt.mpr hfits)] at hcol
  simp only [mirror, ifErr, honestSession] at hcol ⊢
  rw [hcol]

theorem Publishes.mirror_of_not_fits (h : Publishes P srv entry remote) (grow : Nat → Nat)
    (db : Database) (hfits : ¬ HashListFits remote.rows.length) :
    mirror P grow db (honestSession P srv entry) = (db, .error (.error "unexpected EOF")) := by
  have hcol := h.clientCollection grow
  rw [if_pos (Nat.lt_of_not_le hfits)] at hcol
  simp only [mirror, ifErr, honestSession] at hcol ⊢
  rw [hcol]

section Local

variable {m : Nat} (h : Publishes P srv entry remote) (hm : m ≤ remote.rows.length)
  (hdb : db.rows = remote.rows.take m)

include h hm hdb

/-- The posts that are there are the first `m`. -/
theorem postCount_local : db.postCount = m := by
  rw [(h.index.numbered.of_take hdb).postCount, hdb, List.length_take, Nat.min_eq_left hm]

theorem since_local : since db = count pieceSize m - 1 := by
  rw [since, postCount_local h hm hdb]
  split <;> omega

theorem sameCount_iff : Int64.ofNat db.postCount = entry.postCount ↔ m = remote.rows.length := by
  have hlt := h.index.numbered.length_lt
  have hcount := h.postCount
  rw [postCount_local h hm hdb, ← Int64.toInt_inj, Int64.toInt_ofNat_of_lt (by omega), hcount]
  omega

/-- The posts the peer sends are those from piece `since` on. -/
theorem pieces_local (grow : Nat → Nat) (hlt : m < remote.rows.length)
    (hfits : HashListFits remote.rows.length) :
    clientPieces ((honestSession P srv entry).pieces ⟨entry.address.string P,
        Int64.ofNat (since db), (receivedList P grow remote).size⟩) (receivedList P grow remote).size =
      readPieces (count pieceSize remote.rows.length)
        ⟨pieceStream ((remote.rows.drop (pieceSize * since db)).map Row.scan), false⟩ := by
  have hcount := hfits.count_le
  have hn := le_size_mul_count (by decide : 0 < pieceSize) remote.rows.length
  have hmul : pieceSize * count pieceSize remote.rows.length ≤ 131072000 :=
    Nat.mul_le_mul_left pieceSize hcount
  have hsince : since db ≤ 131072000 := by
    have hle := count_le_self (by decide : 0 < pieceSize) m
    rw [since_local h hm hdb]
    omega
  have hstart : pieceSize * since db ≤ 131072000000 := Nat.mul_le_mul_left pieceSize hsince
  have hposts := h.index.numbered.queryPiecePosts
    (Int64.toInt_ofNat_of_lt (by omega : since db < 2 ^ 63)) (toInt_ofNat_count h.index.numbered)
    (by omega) (by omega)
  rw [List.take_of_length_le (by rw [List.length_drop]; omega)] at hposts
  have hstream : (honestSession P srv entry).pieces ⟨entry.address.string P,
      Int64.ofNat (since db), (receivedList P grow remote).size⟩ =
      some (pieceStream ((remote.rows.drop (pieceSize * since db)).map Row.scan)) := by
    simp only [honestSession, receivedList, h.pieces, hposts]
    rfl
  rw [hstream, clientPieces]
  show readPieces (Int64.ofNat (count pieceSize remote.rows.length)).toInt.toNat _ = _
  rw [toInt_ofNat_count h.index.numbered, Int.toNat_natCast]

/-- With posts missing, `Mirror` comes to its loop, with the pieces from `since` on. -/
theorem mirror_of_lt (grow : Nat → Nat) (hlt : m < remote.rows.length)
    (hfits : HashListFits remote.rows.length) :
    mirror P grow db (honestSession P srv entry) =
      match receivePieces P (receivedList P grow remote).hashList 0 (Writer.start db)
          (readPieces (count pieceSize remote.rows.length)
            ⟨pieceStream ((remote.rows.drop (pieceSize * since db)).map Row.scan), false⟩) with
      | (w, .error f) => (w.committed, .error f)
      | (w, .ok ()) => (w.commit.committed, .ok ()) := by
  have hdiff : ¬ Int64.ofNat db.postCount = entry.postCount := by
    rw [sameCount_iff h hm hdb]
    omega
  rw [h.mirror_of_fits grow db hfits, download, if_neg hdiff, ← pieces_local h hm hdb grow hlt hfits]
  rfl

/-- With all posts there, nothing is downloaded. -/
theorem completes_of_eq (grow : Nat → Nat) (heq : m = remote.rows.length)
    (hfits : HashListFits remote.rows.length) :
    Completes P grow db (honestSession P srv entry) remote := by
  have hsame := (sameCount_iff h hm hdb).mpr heq
  rw [Completes, h.mirror_of_fits grow db hfits, download, if_pos hsame]
  refine ⟨rfl, ?_⟩
  rw [hdb, heq, List.take_length]

/-- From piece 0 on, the pieces are those of the hash list, and all posts are stored. -/
theorem mirror_of_le (grow : Nat → Nat) (hlt : m < remote.rows.length) (hle : m ≤ pieceSize)
    (hfits : HashListFits remote.rows.length) :
    mirror P grow db (honestSession P srv entry) =
      (db.insertAll P (remote.rows.map Row.scan), .ok ()) := by
  have hsince : since db = 0 := by
    have := (count_le_one_iff (by decide : 0 < pieceSize) m).mpr hle
    rw [since_local h hm hdb]
    omega
  set posts := remote.rows.map Row.scan with hposts
  set pieces := (List.range (count pieceSize remote.rows.length)).map
    fun i => received (page pieceSize posts i) with hpieces
  have hloop := mirror_of_lt h hm hdb grow hlt hfits
  rw [hsince, Nat.mul_zero, List.drop_zero, ← hposts, readPieces_pieceStream
    (h.index.sendable (k := 0) hposts), ← hpieces] at hloop
  have hlisted : ∀ j (hj : j < pieces.length), (receivedList P grow remote).hashList.sliceAt
      (32 * (0 + j)) (32 * (0 + j) + 32) = some (pieces[j].hash P) := by
    intro j hj
    have hj' : j < count pieceSize remote.rows.length := by simpa [hpieces] using hj
    rw [Nat.zero_add, block_eq (view_receivedList P grow remote) hj', ← h.index.hash_received]
    simp [hpieces, hposts, page_map]
  have hrecv := receivePieces_ok (Writer.start db) hlisted
  have hall : pieces.flatMap Piece.posts = posts := by
    rw [hpieces, List.flatMap_map]
    have hpages := flatMap_page (by decide : 0 < pieceSize) posts
    rwa [hposts, List.length_map, ← hposts] at hpages
  rw [hloop, hrecv]
  show ((pieces.foldl (Writer.receive P) (Writer.start db)).tx, _) = _
  rw [Writer.tx_foldl_receive, hall]
  rfl

/-- From a later piece on, the first piece is compared with the hash of piece 0. -/
theorem mismatch_of_gt (grow : Nat → Nat) (hlt : m < remote.rows.length) (hgt : pieceSize < m)
    (hfits : HashListFits remote.rows.length) (hsep : Separated P remote) :
    (mirror P grow db (honestSession P srv entry)).2 = .error (.error "Piece hash mismatch") := by
  have hsince : 0 < since db := by
    have := mt (count_le_one_iff (by decide : 0 < pieceSize) m).mp (by omega)
    rw [since_local h hm hdb]
    omega
  have hstart : since db < count pieceSize remote.rows.length := by
    rw [lt_count_iff (by decide)]
    have := (lt_count_iff (by decide : 0 < pieceSize) m (since db)).mp (by
      rw [since_local h hm hdb] at hsince ⊢
      omega)
    omega
  obtain ⟨k, hk⟩ : ∃ k, count pieceSize remote.rows.length = k + 1 :=
    Nat.exists_eq_succ_of_ne_zero (by omega)
  set posts := (remote.rows.drop (pieceSize * since db)).map Row.scan with hposts
  have hfirst := readPosts_first (h.index.sendable hposts) false
  rcases hpiece : readPosts pieceSize (Piece.setup 0) ⟨pieceStream posts, false⟩ with ⟨piece, er⟩
  rw [hpiece] at hfirst
  have hhash : piece.hash P = P.sha3 (remote.pieceText (since db)) := by
    rw [show piece = received (page pieceSize posts 0) from hfirst, hposts, page_map, page_drop_mul,
      Nat.add_zero, h.index.hash_received]
  have hblock := block_eq (view_receivedList P grow remote)
    (by omega : 0 < count pieceSize remote.rows.length)
  rw [mirror_of_lt h hm hdb grow hlt hfits, ← hposts, hk, readPieces, hpiece]
  simp only [receivePieces]
  rw [hblock]
  simp only [hhash]
  rw [if_pos (hsep (since db) hsince hstart).symm]

end Local

theorem completes_of_mirrorable (h : Publishes P srv entry remote) (grow : Nat → Nat) {m : Nat}
    (hm : m ≤ remote.rows.length) (hdb : db.rows = remote.rows.take m) (hc : Mirrorable P remote m) :
    Completes P grow db (honestSession P srv entry) remote := by
  obtain ⟨hfits, hc⟩ := hc
  rcases Nat.lt_or_ge m remote.rows.length with hlt | hge
  · rcases hc with heq | ⟨hle, hsettled⟩
    · omega
    · rw [Completes, mirror_of_le h hm hdb grow hlt hle hfits]
      exact ⟨rfl, (h.index.insertAll_rows_iff hm hdb hsettled.infoHash).mpr hsettled.texts⟩
  · exact completes_of_eq h hm hdb grow (by omega) hfits

theorem mirrorable_of_completes (h : Publishes P srv entry remote) {m : Nat}
    (hm : m ≤ remote.rows.length) (hdb : db.rows = remote.rows.take m) (hsep : Separated P remote)
    (hun : Unmistaken P remote) (hc : Completes P grow db (honestSession P srv entry) remote) :
    Mirrorable P remote m := by
  obtain ⟨hok, hrows⟩ := hc
  have hfits : HashListFits remote.rows.length := by
    by_contra hfits
    rw [h.mirror_of_not_fits grow db hfits] at hok
    cases hok
  refine ⟨hfits, ?_⟩
  rcases Nat.lt_or_ge m remote.rows.length with hlt | hge
  · have hle : m ≤ pieceSize := by
      by_contra hgt
      rw [mismatch_of_gt h hm hdb grow hlt (by omega) hfits hsep] at hok
      cases hok
    rw [mirror_of_le h hm hdb grow hlt hle hfits] at hrows
    have hhash := infoHash_of_insertAll hun hrows
    exact .inr ⟨hle, hhash, (h.index.insertAll_rows_iff hm hdb hhash).mp hrows⟩
  · exact .inl (by omega)

/-- Mirroring from an honest peer completes when the hash list fits into a message, and the mirror is
complete already or has at most one piece and stores the posts as they were. Unless the hashes of two pieces
collide or one info hash is stored as another, it completes only then. -/
theorem mirror_completes_iff (P : Prims) (grow : Nat → Nat) (srv : Server) (entry : Entry)
    (remote : Database) (h : Publishes P srv entry remote) (m : Nat) (hm : m ≤ remote.rows.length)
    (db : Database) (hdb : db.rows = remote.rows.take m) :
    (Mirrorable P remote m → Completes P grow db (honestSession P srv entry) remote) ∧
    (Separated P remote → Unmistaken P remote →
      (Completes P grow db (honestSession P srv entry) remote ↔ Mirrorable P remote m)) :=
  ⟨completes_of_mirrorable h grow hm hdb, fun hsep hun =>
    ⟨mirrorable_of_completes h hm hdb hsep hun, completes_of_mirrorable h grow hm hdb⟩⟩

/-! ## A peer with `n` posts -/

/-- A peer that is asked for its own posts, with a collection that is up to date. -/
theorem publishes_owner (hindex : Index srv.database) (haddr : entry.address = srv.address)
    (hquery : ∃ found, (srv.dht.query P srv.address).2 = .ok found)
    (hlist : srv.collection.hashList.view = srv.database.pieceHashes P)
    (hroot : entry.collectionHash = P.sha3 (srv.database.pieceHashes P))
    (hcount : entry.postCount.toInt = srv.database.rows.length) :
    Publishes P srv entry srv.database where
  index := hindex
  hashList := by
    obtain ⟨found, hfound⟩ := hquery
    refine ⟨srv.collection.hashList, hlist, ?_⟩
    have hself : srv.address.equals srv.address = true := by simp [Address.equals]
    simp [Server.handleHashList, haddr, hfound, hself]
  pieces id length := by
    rw [Server.handlePiece, haddr]
    exact if_pos rfl
  root := hroot
  postCount := hcount

/-- An instance of `Prims` whose hash is the beginning of the message. -/
def firstBytes : Prims :=
  { Prims.sample with
    sha3 := fun b => (b ++ List.replicate 32 0).take 32
    sha3_length := by simp }

/-- A peer with `n` posts of its own. -/
def sampleServer (P : Prims) (n : Nat) : Server where
  address := sampleAddress 1
  dht := .new (sampleAddress 1)
  collection := ⟨Buffer.ofList ((sampleDatabase n).pieceHashes P), []⟩
  database := sampleDatabase n
  databases := []
  collectionFiles := []

/-- Its entry. -/
def serverEntry (P : Prims) (n : Nat) : Entry :=
  { sampleEntry 1 1 1 with
    postCount := Int64.ofNat n
    collectionHash := P.sha3 ((sampleDatabase n).pieceHashes P) }

theorem index_sampleDatabase {n : Nat} (hn : n < 2 ^ 63) : Index (sampleDatabase n) where
  numbered := numbered_sampleDatabase hn
  unique := by
    rw [sampleDatabase, List.map_map]
    refine List.nodup_range.map ?_
    intro i j hij
    injection hij with htext
    simpa using congrArg List.length htext
  noBar := by
    intro r hr text htext
    obtain ⟨i, -, rfl⟩ := List.mem_map.mp hr
    simp only [Row.texts, sampleRow, List.mem_cons, List.not_mem_nil, or_false] at htext
    rcases htext with rfl | rfl | rfl | rfl <;> simp [Cell.load, bar]

/-- Without numbers, texts are stored as they are. -/
theorem settled_sampleDatabase (hnum : ∀ s, P.number s = none) (n m : Nat) :
    Settled P (sampleDatabase n) m := by
  have htexts : ∀ r ∈ (sampleDatabase n).rows, ∀ text ∈ r.texts, P.store text.load = text := by
    intro r hr text htext
    obtain ⟨i, -, rfl⟩ := List.mem_map.mp hr
    simp only [Row.texts, sampleRow, List.mem_cons, List.not_mem_nil, or_false] at htext
    rcases htext with rfl | rfl | rfl | rfl <;> simp [Prims.store, hnum, Cell.load]
  exact ⟨fun r hr => htexts r hr _ (by simp [Row.texts]), fun r hr => htexts r (List.mem_of_mem_drop hr)⟩

theorem Settled.unmistaken {m : Nat} (h : Settled P remote m) (hindex : Index remote) : Unmistaken P remote := by
  intro r hr r' hr' heq
  rw [h.infoHash r hr] at heq
  exact List.inj_on_of_nodup_map hindex.unique hr hr' heq

theorem publishes_sampleServer (P : Prims) {n : Nat} (hn : n < 2 ^ 63) :
    Publishes P (sampleServer P n) (serverEntry P n) (sampleDatabase n) := by
  refine publishes_owner (index_sampleDatabase hn) rfl ⟨none, rfl⟩ ?_ rfl ?_
  · exact List.take_length
  · show (Int64.ofNat n).toInt = (sampleDatabase n).rows.length
    rw [Int64.toInt_ofNat_of_lt hn, length_sampleDatabase]

/-- The theorem at a peer with two posts and a mirror with one of them. -/
theorem mirror_completes_iff_two :
    let remote := sampleDatabase 2
    let s := honestSession .sample (sampleServer .sample 2) (serverEntry .sample 2)
    Publishes .sample (sampleServer .sample 2) (serverEntry .sample 2) remote ∧
      1 ≤ remote.rows.length ∧ (sampleDatabase 1).rows = remote.rows.take 1 ∧ Mirrorable .sample remote 1 ∧
      Separated .sample remote ∧ Unmistaken .sample remote ∧
      Completes .sample id (sampleDatabase 1) s remote := by
  have hpub := publishes_sampleServer .sample (n := 2) (by decide)
  have hsep : Separated .sample (sampleDatabase 2) := by
    intro i h0 hi
    rw [length_sampleDatabase, show count pieceSize 2 = 1 from by decide] at hi
    omega
  have hun : Unmistaken .sample (sampleDatabase 2) :=
    (settled_sampleDatabase (fun _ => rfl) 2 0).unmistaken hpub.index
  have hcond : Mirrorable .sample (sampleDatabase 2) 1 :=
    ⟨by rw [length_sampleDatabase, HashListFits]; decide,
      .inr ⟨by decide, settled_sampleDatabase (fun _ => rfl) 2 1⟩⟩
  have hiff := mirror_completes_iff .sample id _ _ _ hpub 1 (by decide) (sampleDatabase 1) rfl
  exact ⟨hpub, by decide, rfl, hcond, hsep, hun, (hiff.2 hsep hun).mpr hcond⟩

/-- The text of a piece begins with the id of its first post. -/
theorem pieceText_sampleDatabase {n i : Nat} (hn : n < 2 ^ 63) (hi : pieceSize * i < n) :
    ∃ rest, (sampleDatabase n).pieceText i = itoa ((pieceSize * i : Nat) + 1) ++ bar :: rest := by
  have hget : (sampleDatabase n).rows[pieceSize * i]? = some (sampleRow (pieceSize * i)) := by
    simp [sampleDatabase, hi]
  obtain ⟨tail, htail⟩ : ∃ tail, page pieceSize (sampleDatabase n).rows i =
      sampleRow (pieceSize * i) :: tail := by
    obtain ⟨hlt, heq⟩ := List.getElem?_eq_some_iff.mp hget
    rw [page, List.drop_eq_getElem_cons hlt, heq]
    exact ⟨_, rfl⟩
  rw [Database.pieceText, (numbered_sampleDatabase hn).pieceRows, htail, List.flatMap_cons]
  have hid : (sampleRow (pieceSize * i)).scan.id.toInt = ((pieceSize * i : Nat) : Int) + 1 := by
    show (Int64.ofNat (pieceSize * i + 1)).toInt = _
    rw [Int64.toInt_ofNat_of_lt (by omega)]
    simp
  unfold Piece.textOf Post.write
  simp only [hid, List.append_assoc, List.singleton_append]
  exact ⟨_, rfl⟩

theorem separated_sampleDatabase : Separated firstBytes (sampleDatabase 1002) := by
  intro i h0 hi heq
  rw [length_sampleDatabase, show count pieceSize 1002 = 2 from by decide] at hi
  obtain rfl : i = 1 := by omega
  obtain ⟨rest₀, h₀⟩ := pieceText_sampleDatabase (n := 1002) (i := 0) (by decide) (by decide)
  obtain ⟨rest₁, h₁⟩ := pieceText_sampleDatabase (n := 1002) (i := 1) (by decide) (by decide)
  have hone : itoa ((pieceSize * 0 : Nat) + 1) = [49] := by decide +kernel
  have hmany : itoa ((pieceSize * 1 : Nat) + 1) = [49, 48, 48, 49] := by decide +kernel
  rw [h₀, h₁, hone, hmany] at heq
  have hsecond := congrArg (fun l : Bytes => l[1]?) heq
  simp [firstBytes, bar] at hsecond

/-- A peer with 1002 posts, and a mirror with the first 1001 of them: the piece with the posts 1001
and 1002 is compared with the hash of the first thousand. -/
theorem resumed_mirror_refused :
    let remote := sampleDatabase 1002
    let s := honestSession firstBytes (sampleServer firstBytes 1002) (serverEntry firstBytes 1002)
    Publishes firstBytes (sampleServer firstBytes 1002) (serverEntry firstBytes 1002) remote ∧
      (sampleDatabase 1001).rows = remote.rows.take 1001 ∧
      (mirror firstBytes id (sampleDatabase 1001) s).2 = .error (.error "Piece hash mismatch") ∧
      ¬ Completes firstBytes id (sampleDatabase 1001) s remote := by
  have hpub := publishes_sampleServer firstBytes (n := 1002) (by decide)
  have hlocal : (sampleDatabase 1001).rows = (sampleDatabase 1002).rows.take 1001 := by
    simp [sampleDatabase, ← List.map_take, List.take_range]
  have hrefused := mismatch_of_gt hpub (by rw [length_sampleDatabase]; decide) hlocal id
    (by rw [length_sampleDatabase]; decide) (by decide)
    (by rw [length_sampleDatabase, HashListFits]; decide) separated_sampleDatabase
  refine ⟨hpub, hlocal, hrefused, ?_⟩
  rintro ⟨hok, -⟩
  rw [hrefused] at hok
  cases hok

end Zif.Node
