import Zif.Node.Proofs.MirrorProofs

/-!
# Proofs: the pieces a mirror gets and keeps

Against an honest peer, the pieces that are cut from the stream are those the peer hashes
(`streamed_pieces_hash`), although the peer sends a few posts too many and the reader runs on behind
the end of the stream.

Against any peer, a piece is handed over only if its hash is the one that the hash list is read to have
in its place. The bounds of that reading are those of the array, not of the list, so the place may be
behind the end of the list (`mirror_hands_over_listed_iff`).
-/

namespace Zif.Node

open Go Dht Data Paging

variable {P : Prims} {grow : Nat → Nat} {db : Database} {s : Session} {entry : Entry}
  {mcol : MessageCollection}

/-! ## Pieces from an honest peer -/

/-- The peer answers requests for the pieces of `address` from `db`: its own database, or one it has
mirrored. -/
def Server.Serves (P : Prims) (srv : Server) (address : Bytes) (db : Database) : Prop :=
  (address = srv.address.string P ∧ db = srv.database) ∨
    (address ≠ srv.address.string P ∧ srv.databases.lookup address = some db)

theorem Server.Serves.handlePiece {srv : Server} {address : Bytes} (h : srv.Serves P address db)
    (id length : Int64) :
    srv.handlePiece P ⟨address, id, length⟩ = .ok (pieceStream (db.queryPiecePosts id length)) := by
  rcases h with ⟨haddr, rfl⟩ | ⟨haddr, hlookup⟩
  · rw [Server.handlePiece, if_pos haddr]
  · rw [Server.handlePiece, if_neg haddr, hlookup]

/-- The pieces of a stream from piece `m` on. -/
theorem clientPieces_queryPiecePosts (hnum : db.Numbered) (hplain : ∀ r ∈ db.rows, r.scan.Plain)
    {start length : Int64} {m l : Nat} (hm : start.toInt = m) (hl : length.toInt = l)
    (hend : pieceSize * (m + l) < 2 ^ 63) :
    clientPieces (some (pieceStream (db.queryPiecePosts start length))) length =
      (List.range l).map fun k => received ((db.pieceRows (m + k)).map Row.scan) := by
  have hposts := hnum.queryPiecePosts hm hl
    (by rw [show pieceSize = 1000 from rfl] at hend ⊢; omega)
    (by rw [show pieceSize = 1000 from rfl] at hend ⊢; omega)
  have hsend : ∀ p ∈ db.queryPiecePosts start length, Sendable p := by
    intro p hp
    rw [hposts] at hp
    obtain ⟨r, hr, rfl⟩ := List.mem_map.mp hp
    have hmem := List.mem_of_mem_drop (List.mem_of_mem_take hr)
    exact sendable_of_plain (Paging.Numbered.lt_key hnum hmem) (hplain r hmem)
  rw [clientPieces, hl, Int.toNat_natCast, readPieces_pieceStream hsend]
  refine List.map_congr_left fun k hk => ?_
  have hkl := List.mem_range.mp hk
  have hpage : pieceSize * (k + 1) ≤ m + pieceSize * l :=
    (Nat.mul_le_mul_left pieceSize hkl).trans (Nat.le_add_left _ _)
  rw [hposts, page_map, page_take hpage, page_drop_mul, hnum.pieceRows]

/-- Reading the stream of a request for `length` pieces from piece `start` on gives that many pieces.
Each has the posts of the piece it is, and the hash that `QueryPiece` gives for it. -/
theorem streamed_pieces_hash (P : Prims) (srv : Server) (address : Bytes) (db : Database)
    (hserves : srv.Serves P address db) (hnum : db.Numbered) (hplain : ∀ r ∈ db.rows, r.scan.Plain)
    (start length : Int64) (hstart : 0 ≤ start.toInt) (hlength : 1 ≤ length.toInt)
    (hend : pieceSize * (start.toInt + length.toInt) < 2 ^ 63) :
    ∃ stream, srv.handlePiece P ⟨address, start, length⟩ = .ok stream ∧
      (clientPieces (some stream) length).length = length.toInt.toNat ∧
      ∀ k < length.toInt.toNat, ∃ piece, (clientPieces (some stream) length)[k]? = some piece ∧
        piece.posts = (db.pieceRows (start.toInt.toNat + k)).map Row.scan ∧
        ∀ store, ∃ hashed, db.queryPiece (UInt64.ofNat (start.toInt.toNat + k)) store = .ok hashed ∧
          piece.hash P = hashed.hash P := by
  rw [show pieceSize = 1000 from rfl] at hend
  have hpieces := clientPieces_queryPiecePosts hnum hplain (Int.toNat_of_nonneg hstart).symm
    (Int.toNat_of_nonneg (by omega : 0 ≤ length.toInt)).symm
    (by rw [show pieceSize = 1000 from rfl]; omega)
  refine ⟨_, hserves.handlePiece start length, by rw [hpieces]; simp, fun k hk => ?_⟩
  refine ⟨received ((db.pieceRows (start.toInt.toNat + k)).map Row.scan), ?_, rfl, fun store => ?_⟩
  · rw [hpieces, List.getElem?_map, List.getElem?_range hk]
    rfl
  · refine ⟨_, hnum.queryPiece (by rw [show pieceSize = 1000 from rfl]; omega) store, ?_⟩
    rw [Piece.hash, Piece.hash, received, Database.pieceText, List.flatMap_map]

/-- The theorem at a peer with two posts, asked for two pieces. -/
theorem streamed_pieces_hash_two :
    let srv := sampleServer .sample 2
    let db := sampleDatabase 2
    srv.Serves .sample (srv.address.string .sample) db ∧ db.Numbered ∧
      (∀ r ∈ db.rows, r.scan.Plain) ∧ 0 ≤ (0 : Int64).toInt ∧ 1 ≤ (2 : Int64).toInt ∧
      pieceSize * ((0 : Int64).toInt + (2 : Int64).toInt) < 2 ^ 63 ∧
      ∃ stream, srv.handlePiece .sample ⟨srv.address.string .sample, 0, 2⟩ = .ok stream ∧
        (clientPieces (some stream) 2).length = 2 := by
  have hnum := numbered_sampleDatabase (n := 2) (by decide)
  have hplain : ∀ r ∈ (sampleDatabase 2).rows, r.scan.Plain := by decide
  obtain ⟨stream, hstream, hlen, -⟩ := streamed_pieces_hash .sample (sampleServer .sample 2) _ _
    (.inl ⟨rfl, rfl⟩) hnum hplain 0 2 (by decide) (by decide) (by decide)
  exact ⟨.inl ⟨rfl, rfl⟩, hnum, hplain, by decide, by decide, by decide, stream, hstream, hlen⟩

/-! ## The hash list as it is read -/

theorem block_eq_sliceAt {i : Nat} (hi : 32 * (i + 1) ≤ mcol.hashList.len) :
    mcol.block i = mcol.hashList.sliceAt (32 * i) (32 * i + 32) := by
  rw [MessageCollection.block, if_pos hi, Buffer.sliceAt_eq (by omega) (by omega),
    Nat.add_sub_cancel_left]

theorem blocks_eq {n : Nat} (hn : 32 * n ≤ mcol.hashList.len) :
    mcol.blocks n = some (mcol.hashList.array.take (32 * n)) := by
  rw [MessageCollection.blocks, if_pos hn, Buffer.view, List.take_take, Nat.min_eq_left hn]

/-! ## What is handed over -/

theorem handedPieces_prefix (hl : Buffer UInt8) (i : Nat) (pieces : List Piece) :
    handedPieces P hl i pieces <+: pieces := by
  induction pieces generalizing i with
  | nil => exact List.prefix_rfl
  | cons piece pieces ih =>
    rw [handedPieces]
    split
    · exact List.nil_prefix
    · split
      · exact List.nil_prefix
      · exact List.prefix_cons_inj piece |>.mpr (ih (i + 1))

/-- Each piece that is handed over has the hash that is read in its place. -/
theorem sliceAt_handedPieces {hl : Buffer UInt8} {i j : Nat} {pieces : List Piece} {piece : Piece}
    (h : (handedPieces P hl i pieces)[j]? = some piece) :
    hl.sliceAt (32 * (i + j)) (32 * (i + j) + 32) = some (piece.hash P) := by
  induction pieces generalizing i j with
  | nil => simp [handedPieces] at h
  | cons first pieces ih =>
    rw [handedPieces] at h
    split at h
    · simp at h
    · rename_i hash hslice
      split at h
      · simp at h
      · rename_i heq
        cases j with
        | zero =>
          injection h with h
          rw [Nat.add_zero, hslice, ← h, not_ne_iff.mp heq]
        | succ j =>
          have hrest := ih h
          rwa [show i + 1 + j = i + (j + 1) by omega] at hrest

/-- `InsertPieces` gets the pieces that are handed over and no others. -/
theorem receivePieces_fst (hl : Buffer UInt8) (i : Nat) (w : Writer) (pieces : List Piece) :
    (receivePieces P hl i w pieces).1 = (handedPieces P hl i pieces).foldl (Writer.receive P) w := by
  induction pieces generalizing i w with
  | nil => rfl
  | cons piece pieces ih =>
    rw [receivePieces, handedPieces]
    split
    · rfl
    · split
      · rfl
      · rw [ih, List.foldl_cons]

/-- What `Mirror` leaves in the database is what `InsertPieces` makes of the pieces it is handed, the
last of them committed or not. -/
theorem mirror_eq_insertPieces (P : Prims) (grow : Nat → Nat) (db : Database) (s : Session) :
    let w := (handedOver P grow db s).foldl (Writer.receive P) (Writer.start db)
    (mirror P grow db s).1 = w.committed ∨ (mirror P grow db s).1 = w.commit.committed := by
  obtain ⟨ping, entry, openStream, hashList, saveCollection, openPieceStream, pieces, addPeer⟩ := s
  rcases ping with _ | msg
  swap; · exact .inl rfl
  rcases entry with f | entry
  · exact .inl rfl
  rcases openStream with _ | msg
  swap; · exact .inl rfl
  simp only [mirror, handedOver, ifErr]
  rcases clientCollection P grow (hashList entry.address) entry with f | mcol
  · exact .inl rfl
  rcases saveCollection with _ | msg
  swap; · exact .inl rfl
  simp only [download]
  by_cases hcount : Int64.ofNat db.postCount = entry.postCount
  · rw [if_pos hcount]
    rcases openPieceStream with _ | msg <;> simp only [if_pos hcount] <;> exact .inl rfl
  rw [if_neg hcount]
  rcases openPieceStream with _ | msg
  swap; · exact .inl rfl
  simp only [ifErr, if_neg hcount, sentPieces]
  have hloop := receivePieces_fst (P := P) mcol.hashList 0 (Writer.start db)
    (clientPieces (pieces ⟨entry.address.string P, Int64.ofNat (since db), mcol.size⟩) mcol.size)
  rcases hrecv : receivePieces P mcol.hashList 0 (Writer.start db) (clientPieces
    (pieces ⟨entry.address.string P, Int64.ofNat (since db), mcol.size⟩) mcol.size) with ⟨w, f | u⟩
  · rw [hrecv] at hloop
    exact .inl (congrArg Writer.committed hloop)
  · rw [hrecv] at hloop
    rcases addPeer with _ | msg <;> exact .inr (congrArg (fun w => w.commit.committed) hloop)

theorem handedOver_cases (db : Database) (hentry : s.entry = .ok entry)
    (hcol : clientCollection P grow (s.hashList entry.address) entry = .ok mcol) :
    handedOver P grow db s = [] ∨
      handedOver P grow db s = handedPieces P mcol.hashList 0 (sentPieces P db s entry mcol) := by
  unfold handedOver
  rw [hentry]
  rcases s.ping with _ | msg
  swap; · exact .inl rfl
  rcases s.openStream with _ | msg
  swap; · exact .inl rfl
  simp only [hcol]
  rcases s.saveCollection with _ | msg
  swap; · exact .inl rfl
  rcases s.openPieceStream with _ | msg
  swap; · exact .inl rfl
  simp only
  split
  · exact .inl rfl
  · exact .inr rfl

theorem length_readPieces (k : Nat) (er : ErrorReader) : (readPieces k er).length = k := by
  induction k generalizing er with
  | zero => rfl
  | succ k ih => rw [readPieces, List.length_cons, ih]

theorem length_clientPieces_le (stream : Option Bytes) (length : Int64) :
    (clientPieces stream length).length ≤ length.toInt.toNat := by
  cases stream with
  | none => exact Nat.zero_le _
  | some stream => exact (length_readPieces _ _).le

/-- A piece that is handed over is one that was sent in this place, and it has the hash that is read in
this place of the hash list. -/
theorem handedOver_getElem? (hentry : s.entry = .ok entry)
    (hcol : clientCollection P grow (s.hashList entry.address) entry = .ok mcol) {i : Nat}
    {piece : Piece} (h : (handedOver P grow db s)[i]? = some piece) :
    (sentPieces P db s entry mcol)[i]? = some piece ∧
      mcol.hashList.sliceAt (32 * i) (32 * i + 32) = some (piece.hash P) := by
  rcases handedOver_cases db hentry hcol with hnil | hloop
  · simp [hnil] at h
  · rw [hloop] at h
    obtain ⟨hlt, -⟩ := List.getElem?_eq_some_iff.mp h
    obtain ⟨rest, hrest⟩ := handedPieces_prefix (P := P) mcol.hashList 0 (sentPieces P db s entry mcol)
    refine ⟨by rw [← hrest, List.getElem?_append_left hlt, h], ?_⟩
    have hslice := sliceAt_handedPieces h
    rwa [Nat.zero_add] at hslice

theorem handedOver_initial (db : Database) (hentry : s.entry = .ok entry)
    (hcol : clientCollection P grow (s.hashList entry.address) entry = .ok mcol) :
    handedOver P grow db s <+: sentPieces P db s entry mcol := by
  rcases handedOver_cases db hentry hcol with hnil | hloop
  · rw [hnil]
    exact List.nil_prefix
  · rw [hloop]
    exact handedPieces_prefix _ _ _

/-- The place of a piece that is handed over is below the size, and the hash read there is that of its
posts. -/
theorem handedOver_read (hentry : s.entry = .ok entry)
    (hcol : clientCollection P grow (s.hashList entry.address) entry = .ok mcol) {i : Nat}
    {piece : Piece} (h : (handedOver P grow db s)[i]? = some piece) :
    i < mcol.size.toInt.toNat ∧ mcol.hashList.sliceAt (32 * i) (32 * i + 32) =
      some (P.sha3 (piece.posts.flatMap Piece.textOf)) := by
  obtain ⟨hsent, hslice⟩ := handedOver_getElem? hentry hcol h
  obtain ⟨hlt, -⟩ := List.getElem?_eq_some_iff.mp hsent
  have hfilled := (faithful_of_mem_clientPieces (List.mem_of_getElem? hsent)).filled
  refine ⟨hlt.trans_le (length_clientPieces_le _ _), ?_⟩
  rw [hslice, Piece.hash, hfilled]

/-- Nothing is handed over from a piece on whose hash is not the one that is read. -/
theorem length_handedOver_le (hentry : s.entry = .ok entry)
    (hcol : clientCollection P grow (s.hashList entry.address) entry = .ok mcol) {i : Nat}
    {piece : Piece} (hsent : (sentPieces P db s entry mcol)[i]? = some piece)
    (hmismatch : mcol.hashList.sliceAt (32 * i) (32 * i + 32) ≠ some (piece.hash P)) :
    (handedOver P grow db s).length ≤ i := by
  by_contra hlt
  have hget := List.getElem?_eq_getElem (Nat.lt_of_not_le hlt)
  obtain ⟨hsent', hslice⟩ := handedOver_getElem? hentry hcol hget
  rw [hsent] at hsent'
  injection hsent' with heq
  rw [heq] at hmismatch
  exact hmismatch hslice

/-- Every piece that is handed over is listed exactly when the hash list is as long as its size says,
or nothing is handed over. In any case its place is below the size, it has the hash that is read there,
and the blocks that are read hash to the root; and after a mismatch nothing is handed over. -/
theorem mirror_hands_over_listed_iff (P : Prims) (grow : Nat → Nat) (db : Database) (s : Session)
    (entry : Entry) (mcol : MessageCollection) (hentry : s.entry = .ok entry)
    (hcol : clientCollection P grow (s.hashList entry.address) entry = .ok mcol) :
    ((∀ i piece, (handedOver P grow db s)[i]? = some piece → Listed P entry mcol i piece) ↔
      handedOver P grow db s = [] ∨ 32 * mcol.size.toInt.toNat ≤ mcol.hashList.len) ∧
    (∀ i piece, (handedOver P grow db s)[i]? = some piece →
      i < mcol.size.toInt.toNat ∧ mcol.hashList.sliceAt (32 * i) (32 * i + 32) =
          some (P.sha3 (piece.posts.flatMap Piece.textOf)) ∧
        P.sha3 (mcol.hashList.array.take (32 * mcol.size.toInt.toNat)) = entry.collectionHash) ∧
    handedOver P grow db s <+: sentPieces P db s entry mcol ∧
    ∀ i piece, (sentPieces P db s entry mcol)[i]? = some piece →
      mcol.hashList.sliceAt (32 * i) (32 * i + 32) ≠ some (piece.hash P) →
        (handedOver P grow db s).length ≤ i := by
  have hroot := (MessageCollection.verify_ok_iff.mp (clientCollection_ok hcol)).2
  have hread : ∀ i piece, (handedOver P grow db s)[i]? = some piece →
      i < mcol.size.toInt.toNat ∧ mcol.hashList.sliceAt (32 * i) (32 * i + 32) =
        some (P.sha3 (piece.posts.flatMap Piece.textOf)) :=
    fun i piece hi => handedOver_read hentry hcol hi
  refine ⟨⟨?_, ?_⟩, fun i piece hi => ⟨(hread i piece hi).1, (hread i piece hi).2, hroot⟩,
    handedOver_initial db hentry hcol, fun i piece => length_handedOver_le hentry hcol⟩
  · intro hlisted
    cases hpieces : handedOver P grow db s with
    | nil => exact .inl rfl
    | cons piece pieces =>
      have hblocks := (hlisted 0 piece (by rw [hpieces]; rfl)).root
      rw [MessageCollection.blocks] at hblocks
      by_contra hshort
      rw [if_neg (by tauto)] at hblocks
      cases hblocks
  · rintro (hnil | hlong) i piece hi
    · simp [hnil] at hi
    · obtain ⟨hlt, hslice⟩ := hread i piece hi
      refine ⟨hlt, ?_, ?_⟩
      · rw [block_eq_sliceAt (by omega), hslice]
      · rw [blocks_eq hlong, Option.map_some, hroot]

/-! ## Instances -/

/-- The theorem at a peer with two posts, asked for one of its pieces by a mirror without any. -/
theorem mirror_hands_over_listed_iff_two :
    let s := honestSession .sample (sampleServer .sample 2) (serverEntry .sample 2)
    let entry := serverEntry .sample 2
    let mcol := receivedList .sample id (sampleDatabase 2)
    s.entry = .ok entry ∧ clientCollection .sample id (s.hashList entry.address) entry = .ok mcol ∧
      ((∀ i piece, (handedOver .sample id .new s)[i]? = some piece → Listed .sample entry mcol i piece) ↔
        handedOver .sample id .new s = [] ∨ 32 * mcol.size.toInt.toNat ≤ mcol.hashList.len) := by
  have hpub := publishes_sampleServer .sample (n := 2) (by decide)
  have hcol := hpub.clientCollection id
  rw [if_neg (by rw [length_sampleDatabase]; decide)] at hcol
  exact ⟨rfl, hcol, (mirror_hands_over_listed_iff .sample id .new _ _ _ rfl hcol).1⟩

/-- A piece with one post. -/
def onePost : Piece := received [⟨1, [97], [98], 0, 0, 0, 0, 0, [], []⟩]

/-- The entry of a peer with that piece. -/
def onePostEntry : Entry :=
  { serverEntry .sample 1 with collectionHash := Prims.sample.sha3 (onePost.hash .sample) }

/-- A session with a peer that has the piece, and gives its hash list twice: first with the hash of the
piece, and then empty. -/
def hiddenBlock : Session :=
  { honestSession .sample (sampleServer .sample 1) onePostEntry with
    hashList := fun _ => .ok
      ⟨[.hashList (some (onePost.hash .sample)), .hashList (some []), .size 1], 61⟩
    pieces := fun _ => some (pieceStream onePost.posts) }

/-- The hash list is empty and its size is 1, and the piece is handed over. -/
theorem hidden_block_handed_over :
    ∃ mcol, hiddenBlock.entry = .ok onePostEntry ∧
      clientCollection .sample id (hiddenBlock.hashList onePostEntry.address) onePostEntry = .ok mcol ∧
      mcol.hashList.len = 0 ∧ mcol.size = 1 ∧ handedOver .sample id .new hiddenBlock = [onePost] ∧
      ¬ Listed .sample onePostEntry mcol 0 onePost := by
  have hread : (clientCollection .sample id (hiddenBlock.hashList onePostEntry.address)
      onePostEntry).toOption.map (fun mcol => (mcol.hashList.len, mcol.size)) = some (0, 1) := by
    decide +kernel
  have hhanded : handedOver .sample id .new hiddenBlock = [onePost] := by decide +kernel
  cases hcol : clientCollection .sample id (hiddenBlock.hashList onePostEntry.address) onePostEntry with
  | error f =>
    rw [hcol] at hread
    cases hread
  | ok mcol =>
    rw [hcol] at hread
    obtain ⟨hlen, hsize⟩ := Prod.mk.inj (Option.some.inj hread)
    refine ⟨mcol, rfl, rfl, hlen, hsize, hhanded, ?_⟩
    intro hlisted
    have hblock := hlisted.block
    rw [MessageCollection.block, hlen, if_neg (by decide)] at hblock
    cases hblock

end Zif.Node
