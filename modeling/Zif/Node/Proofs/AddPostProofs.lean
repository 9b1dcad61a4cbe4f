import Zif.Data.Proofs.CollectionProofs
import Zif.Dht.Proofs.EntryProofs
import Zif.Dht.Proofs.StoreProofs
import Zif.Dht.Proofs.TableProofs
import Zif.Lib.Proofs.RunsProofs
import Zif.Node.LocalPeer

/-!
# Proofs: publishing posts

Up to 999 posts `AddPost` keeps the hash list of the collection equal to that of the database: there
is one piece, and it is hashed again at every call. The thousandth post has id 1000, for which
`AddPost` hashes piece 1 while the post is in piece 0.

The database goes its own way in such a run (`run_database`): it takes every post with a new info
hash, whatever becomes of the collection.
-/

namespace Zif.Node.LocalPeer

open Go Dht Data Paging

variable {P : Prims} {grow : Nat → Nat} {lp lp' : LocalPeer} {c : AddCall} {calls : List AddCall}

/-! ## Signing and saving -/

/-- The two peers agree on the database, the collection and the collection hash. -/
def SameIndex (lp lp' : LocalPeer) : Prop :=
  lp'.database = lp.database ∧ lp'.collection = lp.collection ∧
    lp'.entry.collectionHash = lp.entry.collectionHash

theorem SameIndex.refl (lp : LocalPeer) : SameIndex lp lp := ⟨rfl, rfl, rfl⟩

theorem SameIndex.trans {lp'' : LocalPeer} (h : SameIndex lp lp') (h' : SameIndex lp' lp'') :
    SameIndex lp lp'' :=
  ⟨h'.1.trans h.1, h'.2.1.trans h.2.1, h'.2.2.trans h.2.2⟩

/-- What is read of a peer does not depend on the time and the signature of its entry, nor on its store
of entries. -/
structure Unsigned {β : Type} (f : LocalPeer → β) : Prop where
  entry : ∀ lp updated signature,
    f { lp with entry := { lp.entry with updated, signature } } = f lp
  dht : ∀ lp dht, f { lp with dht } = f lp

section Unsigned

variable {β : Type} {f : LocalPeer → β}

theorem Unsigned.signEntry (hf : Unsigned f) {now : UInt64} (h : lp.signEntry P now = .ok lp') :
    f lp' = f lp := by
  unfold LocalPeer.signEntry at h
  split at h
  · cases h
  · cases h
    exact hf.entry lp now _

theorem Unsigned.saveEntry (hf : Unsigned f) (P : Prims) (lp : LocalPeer) (now : UInt64)
    (w : Option String) : f (lp.saveEntry P now w).1 = f lp := by
  unfold LocalPeer.saveEntry
  cases hsign : lp.signEntry P now with
  | error e => rfl
  | ok lp₁ =>
    refine Eq.trans ?_ (hf.signEntry hsign)
    rcases hins : lp₁.dht.insert P lp₁.entry with ⟨dht, _ | _⟩
    · simp only [hins]
      exact hf.dht lp₁ dht
    · simp only [hins]
      exact hf.dht lp₁ dht

/-- What follows the collection hash in `AddPost` only signs and stores the entry. -/
theorem Unsigned.addPost (hf : Unsigned f) (P : Prims) (grow : Nat → Nat) (lp : LocalPeer)
    (hvalid : c.post.valid c.checkedAt = .ok ()) :
    f (lp.addPost P grow c).1 = f (lp.indexPost P grow c).1 := by
  unfold LocalPeer.addPost
  rw [hvalid]
  rcases hidx : lp.indexPost P grow c with ⟨lp₁, _ | id⟩
  · rfl
  · cases hsign : lp₁.signEntry P c.signedAt with
    | error e => simp only [hsign]
    | ok lp₂ =>
      have hsave := hf.saveEntry P lp₂ c.savedAt c.writeFails
      refine Eq.trans ?_ (hf.signEntry hsign)
      rcases hs : lp₂.saveEntry P c.savedAt c.writeFails with ⟨lp₃, _ | _⟩
      · rw [hs] at hsave
        simpa only [hsign, hs] using hsave
      · rw [hs] at hsave
        simpa only [hsign, hs] using hsave

theorem unsigned_database : Unsigned LocalPeer.database := ⟨fun _ _ _ => rfl, fun _ _ => rfl⟩

theorem unsigned_collection : Unsigned LocalPeer.collection := ⟨fun _ _ _ => rfl, fun _ _ => rfl⟩

theorem unsigned_collectionHash : Unsigned fun lp => lp.entry.collectionHash :=
  ⟨fun _ _ _ => rfl, fun _ _ => rfl⟩

theorem unsigned_postCount : Unsigned fun lp => lp.entry.postCount :=
  ⟨fun _ _ _ => rfl, fun _ _ => rfl⟩

end Unsigned

theorem signEntry_sameIndex {now : UInt64} (h : lp.signEntry P now = .ok lp') : SameIndex lp lp' :=
  ⟨unsigned_database.signEntry h, unsigned_collection.signEntry h, unsigned_collectionHash.signEntry h⟩

theorem saveEntry_sameIndex (P : Prims) (lp : LocalPeer) (now : UInt64) (w : Option String) :
    SameIndex lp (lp.saveEntry P now w).1 :=
  ⟨unsigned_database.saveEntry P lp now w, unsigned_collection.saveEntry P lp now w,
    unsigned_collectionHash.saveEntry P lp now w⟩

/-- What follows the collection hash leaves the index alone. -/
theorem addPost_sameIndex (P : Prims) (grow : Nat → Nat) (lp : LocalPeer)
    (hvalid : c.post.valid c.checkedAt = .ok ()) :
    SameIndex (lp.indexPost P grow c).1 (lp.addPost P grow c).1 :=
  ⟨unsigned_database.addPost P grow lp hvalid, unsigned_collection.addPost P grow lp hvalid,
    unsigned_collectionHash.addPost P grow lp hvalid⟩

/-- The key the peer signs with is the one of its entry. -/
def KeyPair (P : Prims) (lp : LocalPeer) : Prop :=
  lp.privateKey.length = privateKeySize ∧ lp.entry.publicKey = P.edPublic lp.privateKey

/-- Signing an entry within the limits leaves one that `Verify` accepts. -/
theorem signEntry_ok (hkey : KeyPair P lp) (hchecked : lp.entry.Checked)
    (hsig : lp.entry.signature.length = signatureSize) (now : UInt64) :
    ∃ signature, lp.signEntry P now =
        .ok { lp with entry := { lp.entry with updated := now, signature } } ∧
      Entry.verify P { lp.entry with updated := now, signature } = .ok () := by
  have hcopy : ∀ msg, copyInto lp.entry.signature (P.edSign lp.privateKey msg) =
      P.edSign lp.privateKey msg := by
    intro msg
    have hlen := P.edSign_length lp.privateKey msg
    rw [copyInto, List.take_of_length_le (by rw [hlen, hsig]; rfl),
      List.drop_of_length_le (by rw [hlen, hsig]; rfl), List.append_nil]
  rw [signEntry, if_neg (by simp [hkey.1])]
  simp only [hcopy]
  refine ⟨_, rfl, (Entry.verify_eq_ok_iff _).mpr ⟨?_, ?_, P.edSign_length _ _, ?_⟩⟩
  · obtain ⟨h1, h2, h3, h4, h5, -, h7, h8, h9⟩ := hchecked
    exact ⟨h1, h2, h3, h4, h5, (P.edSign_length lp.privateKey _).ge, h7, h8, h9⟩
  · show lp.entry.publicKey.length = _
    rw [hkey.2, P.edPublic_length]
    rfl
  · show P.edVerify lp.entry.publicKey _ _ = true
    rw [hkey.2]
    exact P.edVerify_sign _ _

/-! ## The database -/

theorem indexPost_database (P : Prims) (grow : Nat → Nat) (lp : LocalPeer)
    (hins : c.insertFails = none) :
    (lp.indexPost P grow c).1.database = lp.database.insert P c.post := by
  unfold indexPost Database.insertPost
  rw [hins]
  simp only
  split
  · rfl
  · split <;> rfl

theorem step_database (h : Accepted c) : (lp.step P grow c).database = lp.database.insert P c.post := by
  rw [step, (addPost_sameIndex P grow lp h.1).1, indexPost_database P grow lp h.2]

theorem run_database (grow : Nat → Nat) (lp : LocalPeer) (h : ∀ c ∈ calls, Accepted c) :
    (Runs.run (step P grow) lp calls).database =
      lp.database.insertAll P (calls.map AddCall.post) := by
  induction calls generalizing lp with
  | nil => rfl
  | cons c calls ih =>
    rw [Runs.run_cons, ih (lp.step P grow c) fun x hx => h x (List.mem_cons_of_mem c hx),
      step_database (h c List.mem_cons_self)]
    rfl

/-! ## One call with few posts -/

theorem pieceIndex_of_lt {id : Int64} (h0 : 0 ≤ id.toInt) (h : id.toInt < pieceSize) :
    pieceIndex id = 0 := by
  rw [pieceIndex, Int.ediv_eq_zero_of_lt h0 h]
  rfl

/-- The posts are numbered, the last insertion is the last row, and the hash list is right. -/
structure Reflects (P : Prims) (lp : LocalPeer) : Prop where
  numbered : lp.database.Numbered
  last : lp.database.lastInsertId.toInt = lp.database.rows.length
  hashes : lp.collection.hashList.view = lp.database.pieceHashes P

/-- The id `InsertPost` returns. -/
theorem lastInsertId_insert {db : Database} (hnum : db.Numbered)
    (hlast : db.lastInsertId.toInt = db.rows.length) (hlt : db.rows.length + 1 < 2 ^ 63) (post : Post) :
    (db.insert P post).lastInsertId.toInt = (db.insert P post).rows.length := by
  rcases Database.insert_cases P db post with ⟨-, heq⟩ | ⟨-, heq⟩
  · rw [heq]
    exact hlast
  · rw [heq]
    show db.nextId.toInt = _
    rw [hnum.nextId hlt]
    simp

/-- Adding the only piece to a collection that is up to date, or new, brings it up to date. -/
theorem add_only_piece (P : Prims) (grow : Nat → Nat) {c : Collection} {piece : Piece}
    (hid : piece.id = 0)
    (hlen : c.hashList.len = 0 ∨ c.hashList.len = 32) :
    ∃ c', c.add P grow piece = .ok c' ∧ c'.hashList.view = piece.hash P := by
  rcases hlen with h0 | h32
  · refine ⟨_, Collection.add_of_lt (by rw [h0, hid]; decide), ?_⟩
    have hnil : c.hashList.view = [] := List.eq_nil_of_length_eq_zero (by simpa using h0)
    simp [hnil]
  · obtain ⟨c', hadd, hview⟩ := Collection.add_again P grow h32.ge (by rw [h32]; decide) hid
    refine ⟨c', hadd, ?_⟩
    rw [hview, List.drop_of_length_le (by rw [Buffer.length_view, h32]), List.append_nil]

theorem Reflects.len (h : Reflects P lp) (hle : lp.database.rows.length ≤ pieceSize) :
    lp.collection.hashList.len = 0 ∨ lp.collection.hashList.len = 32 := by
  have hlen := congrArg List.length h.hashes
  rw [Buffer.length_view] at hlen
  by_cases hnil : lp.database.rows = []
  · rw [Database.pieceHashes_of_nil hnil] at hlen
    exact .inl hlen
  · rw [Database.pieceHashes_of_le (List.length_pos_iff.mpr hnil) hle, P.sha3_length] at hlen
    exact .inr hlen

/-- A call that finds the piece and can put its hash into the list. -/
theorem indexPost_eq {piece : Piece} {collection : Collection} (hins : c.insertFails = none)
    (hpiece : (lp.database.insert P c.post).queryPiece
      (pieceIndex (lp.database.insert P c.post).lastInsertId) false = .ok piece)
    (hadd : lp.collection.add P grow piece = .ok collection) :
    lp.indexPost P grow c =
      ({ lp with
          database := lp.database.insert P c.post
          collection := collection.rehash
          entry := { lp.entry with
            postCount := lp.entry.postCount + 1
            collectionHash := collection.rehash.hash P } },
        .ok (lp.database.insert P c.post).lastInsertId) := by
  unfold indexPost Database.insertPost
  rw [hins]
  simp only [hpiece, hadd]

/-- A call that leaves fewer than 1000 posts hashes piece 0 again, which is where the post is. -/
theorem indexPost_of_lt (grow : Nat → Nat) (h : Reflects P lp) (hins : c.insertFails = none)
    (hlt : (lp.database.insert P c.post).rows.length < pieceSize) :
    ∃ id, (lp.indexPost P grow c).2 = .ok id ∧ pieceIndex id = 0 ∧
      id.toInt = (lp.database.insert P c.post).rows.length ∧
      Reflects P (lp.indexPost P grow c).1 ∧
      (lp.indexPost P grow c).1.entry.collectionHash =
        P.sha3 ((lp.database.insert P c.post).pieceHashes P) := by
  have hle := Database.length_le_insert (P := P) lp.database c.post
  have hroom : lp.database.rows.length + 1 < 2 ^ 63 := by
    have : pieceSize = 1000 := rfl
    omega
  set db := lp.database.insert P c.post with hdb
  have hnum : db.Numbered := h.numbered.insert hroom c.post
  have hid : db.lastInsertId.toInt = db.rows.length :=
    lastInsertId_insert h.numbered h.last hroom c.post
  have hindex : pieceIndex db.lastInsertId = 0 := pieceIndex_of_lt (by omega) (by omega)
  have hpiece : db.queryPiece (pieceIndex db.lastInsertId) false = .ok ⟨0, [], db.pieceText 0⟩ := by
    rw [hindex]
    exact hnum.queryPiece (i := 0) (by decide) false
  obtain ⟨collection, hadd, hview⟩ := add_only_piece P grow
    (rfl : (⟨0, [], db.pieceText 0⟩ : Piece).id = 0) (h.len (by omega))
  have hhashes : collection.hashList.view = db.pieceHashes P := by
    rw [hview, Database.pieceHashes_of_le (Database.insert_length_pos lp.database c.post) hlt.le]
    rfl
  have hlen : collection.hashList.len = 32 * 1 := by
    rw [← Buffer.length_view, hview, Piece.length_hash]
  rw [indexPost_eq hins hpiece hadd]
  refine ⟨_, rfl, hindex, hid, ⟨hnum, hid, hhashes⟩, ?_⟩
  show P.sha3 collection.rehash.rootHash = _
  rw [Collection.rootHash_rehash hlen, hhashes]

theorem maintains_of_lt (h : Reflects P lp) (hacc : Accepted c)
    (hlt : (lp.database.insert P c.post).rows.length < pieceSize) :
    Maintains P grow lp c ∧ Reflects P (lp.step P grow c) := by
  obtain ⟨id, hres, hindex, hid, hrefl, hhash⟩ := indexPost_of_lt grow h hacc.2 hlt
  obtain ⟨hdb, hcol, hch⟩ := addPost_sameIndex P grow lp hacc.1
  have hdb' := indexPost_database P grow lp hacc.2
  have hrefl' : Reflects P (lp.addPost P grow c).1 :=
    ⟨hdb ▸ hrefl.numbered, hdb ▸ hrefl.last, by rw [hcol, hdb]; exact hrefl.hashes⟩
  refine ⟨⟨hrefl'.hashes, ?_, id, hres, ?_⟩, hrefl'⟩
  · rw [hch, hdb, hdb', hhash]
  · have hpos := Database.insert_length_pos (P := P) lp.database c.post
    rw [hindex, hdb]
    rw [← hdb'] at hid hpos hlt
    exact hrefl.numbered.exists_last_mem hpos hlt.le hid

/-! ## Runs -/

theorem reflects_start (hdb : lp.database = .new) (hcol : lp.collection = .new) : Reflects P lp := by
  refine ⟨?_, ?_, ?_⟩
  · rw [hdb]
    exact Database.numbered_new
  · rw [hdb]
    rfl
  · rw [hdb, hcol]
    rfl

theorem length_insertAll_calls (P : Prims) (calls : List AddCall) :
    (Database.new.insertAll P (calls.map AddCall.post)).rows.length = distinctPosts P calls := by
  rw [Database.length_insertAll_new, List.map_map]
  rfl

theorem distinctPosts_le_append (P : Prims) (calls calls' : List AddCall) :
    distinctPosts P calls ≤ distinctPosts P (calls ++ calls') := by
  rw [← length_insertAll_calls, ← length_insertAll_calls, List.map_append,
    Database.insertAll_append]
  exact Database.length_le_insertAll _ _

theorem distinctPosts_append_singleton_le (P : Prims) (calls : List AddCall) (c : AddCall) :
    distinctPosts P (calls ++ [c]) ≤ distinctPosts P calls + 1 := by
  rw [← length_insertAll_calls, ← length_insertAll_calls, List.map_append,
    Database.insertAll_append]
  exact Database.length_insert_le _ c.post

/-- The database after the calls of a run and one more. -/
theorem run_insert (grow : Nat → Nat) (hdb : lp.database = .new) {pre : List AddCall}
    (hacc : ∀ c ∈ pre, Accepted c) (c : AddCall) :
    (Runs.run (step P grow) lp pre).database.insert P c.post =
      Database.new.insertAll P ((pre ++ [c]).map AddCall.post) := by
  rw [run_database grow lp hacc, hdb, List.map_append, Database.insertAll_append]
  rfl

/-- In a run with few posts there are few at each call. -/
theorem always_lt (grow : Nat → Nat) (hdb : lp.database = .new) (hacc : ∀ c ∈ calls, Accepted c)
    (hfew : distinctPosts P calls < pieceSize) :
    Runs.Always (step P grow)
      (fun lp c => (lp.database.insert P c.post).rows.length < pieceSize) lp calls := by
  rintro pre c post rfl
  have hle := distinctPosts_le_append P (pre ++ [c]) post
  rw [List.append_assoc, List.singleton_append] at hle
  rw [run_insert grow hdb (fun x hx => hacc x (by simp [hx])), length_insertAll_calls]
  omega

theorem run_maintains (grow : Nat → Nat) (hdb : lp.database = .new) (hcol : lp.collection = .new)
    (hacc : ∀ c ∈ calls, Accepted c) (hfew : distinctPosts P calls < pieceSize) :
    Runs.Always (step P grow) (Maintains P grow) lp calls := by
  have hcond : Runs.Always (step P grow) (fun lp c => Accepted c ∧
      (lp.database.insert P c.post).rows.length < pieceSize) lp calls := fun pre c post hsplit =>
    ⟨hacc c (by simp [hsplit]), always_lt grow hdb hacc hfew pre c post hsplit⟩
  refine hcond.of_step (I := Reflects P) (reflects_start hdb hcol) ?_ ?_
  · rintro lp c h ⟨hc, hlt⟩
    exact (maintains_of_lt h hc hlt).2
  · rintro lp c h ⟨hc, hlt⟩
    exact (maintains_of_lt h hc hlt).1

/-! ## Calls that succeed -/

/-- A call that returns without an error was accepted. When the insertion fails, the id is `-1`, and
there is no place for piece `2 ^ 64 - 1` in the hash list. -/
theorem accepted_of_addPost_ok {id : Int64} (h : (lp.addPost P grow c).2 = .ok id) : Accepted c := by
  rw [addPost] at h
  cases hvalid : c.post.valid c.checkedAt with
  | error f =>
    rw [hvalid] at h
    cases h
  | ok u =>
    refine ⟨hvalid, ?_⟩
    cases hins : c.insertFails with
    | none => rfl
    | some err =>
      have hpanics : ∀ posts text, lp.collection.add P grow ⟨pieceIndex (-1), posts, text⟩ = .error .panic :=
        fun _ _ => Collection.add_last P grow lp.collection rfl
      rw [hvalid] at h
      simp [indexPost, Database.insertPost, hins, Database.queryPiece_eq, hpanics] at h

/-- A peer that has been set up: it has a key pair of the right size, its entry passes the checks and
links to nobody, and its routing table is in order. -/
structure Ready (P : Prims) (lp : LocalPeer) : Prop where
  keySize : lp.privateKey.length = privateKeySize
  key : lp.entry.publicKey = P.edPublic lp.privateKey
  checked : lp.entry.Checked
  signature : lp.entry.signature.length = signatureSize
  seeds : lp.entry.seeds = []
  seeding : lp.entry.seeding = []
  own : lp.dht.addr.raw.length = 20
  table : lp.dht.table.Ok

/-- What indexing changes of the entry is not checked. -/
theorem Ready.withIndex (h : Ready P lp) (database : Database) (collection : Collection)
    (postCount : Int64) (collectionHash : Bytes) :
    Ready P { lp with
      database, collection, entry := { lp.entry with postCount, collectionHash } } :=
  ⟨h.keySize, h.key, h.checked, h.signature, h.seeds, h.seeding, h.own, h.table⟩

theorem Ready.indexPost (h : Ready P lp) (grow : Nat → Nat) (c : AddCall) :
    Ready P (lp.indexPost P grow c).1 := by
  unfold LocalPeer.indexPost
  split
  simp only
  split
  · exact h.withIndex _ _ _ _
  · split
    · exact h.withIndex _ _ _ _
    · exact h.withIndex _ _ _ _

/-- Signing leaves an entry that `Verify` accepts. -/
theorem Ready.signEntry (h : Ready P lp) (now : UInt64) :
    ∃ lp', lp.signEntry P now = .ok lp' ∧ Ready P lp' ∧ lp'.entry.verify P = .ok () ∧
      lp'.entry.updated = now := by
  obtain ⟨signature, hsign, hverify⟩ := signEntry_ok ⟨h.keySize, h.key⟩ h.checked h.signature now
  obtain ⟨hchecked, -, hlen, -⟩ := (Entry.verify_eq_ok_iff _).mp hverify
  exact ⟨_, hsign, ⟨h.keySize, h.key, hchecked, hlen, h.seeds, h.seeding, h.own, h.table⟩, hverify, rfl⟩

theorem Ready.saveEntry (h : Ready P lp) {now : UInt64} (hnow : driverAccepts now = true) :
    ∃ lp', lp.saveEntry P now none = (lp', .ok ()) ∧ Ready P lp' := by
  obtain ⟨lp₁, hsign, h₁, hverify, hupdated⟩ := h.signEntry now
  obtain ⟨t, ht, hins⟩ := Table.insertIntoTable_spec h₁.table h₁.own lp₁.entry.address h₁.checked.1
  have htable := NetDB.insertIntoTable_eq ht
  obtain ⟨affected, hok⟩ := NetDB.insert_ok hverify htable (by rw [hupdated]; exact hnow)
    h₁.seeds h₁.seeding
  have hndb := NetDB.insert_of_verified hverify htable
  refine ⟨{ lp₁ with dht := (lp₁.dht.insert P lp₁.entry).1 }, ?_, ?_⟩
  · rw [LocalPeer.saveEntry, hsign]
    rcases hboth : lp₁.dht.insert P lp₁.entry with ⟨dht, res⟩
    rw [hboth] at hok
    cases hok
    simp [hboth]
  · refine ⟨h₁.keySize, h₁.key, h₁.checked, h₁.signature, h₁.seeds, h₁.seeding, ?_, ?_⟩
    · show (lp₁.dht.insert P lp₁.entry).1.addr.raw.length = 20
      rw [hndb]
      exact h₁.own
    · show (lp₁.dht.insert P lp₁.entry).1.table.Ok
      rw [hndb]
      exact hins.ok

/-- Nothing around the call goes wrong. -/
def Smooth (c : AddCall) : Prop :=
  Accepted c ∧ driverAccepts c.savedAt = true ∧ c.writeFails = none

theorem addPost_ok (grow : Nat → Nat) (hready : Ready P lp) (h : Reflects P lp) (hc : Smooth c)
    (hlt : (lp.database.insert P c.post).rows.length < pieceSize) :
    (∃ id, (lp.addPost P grow c).2 = .ok id) ∧ Ready P (lp.step P grow c) := by
  obtain ⟨⟨hvalid, hins⟩, hsaved, hwrite⟩ := hc
  obtain ⟨id, hres, -⟩ := indexPost_of_lt grow h hins hlt
  obtain ⟨lp₂, hsign, h₂, -⟩ := (hready.indexPost grow c).signEntry c.signedAt
  obtain ⟨lp₃, hsave, h₃⟩ := h₂.saveEntry hsaved
  have hadd : lp.addPost P grow c = (lp₃, .ok id) := by
    rcases hidx : lp.indexPost P grow c with ⟨lp₁, res⟩
    rw [hidx] at hres hsign
    cases hres
    rw [addPost, hvalid, hidx]
    simp only
    rw [hsign]
    simp only
    rw [hwrite, hsave]
  rw [step, hadd]
  exact ⟨⟨id, rfl⟩, h₃⟩

/-- As long as there are fewer than 1000 posts, a peer that is set up publishes without a failure. -/
theorem run_succeeds (grow : Nat → Nat) (hdb : lp.database = .new) (hcol : lp.collection = .new)
    (hready : Ready P lp) (hsmooth : ∀ c ∈ calls, Smooth c)
    (hfew : distinctPosts P calls < pieceSize) :
    Runs.Always (step P grow) (fun lp c => ∃ id, (lp.addPost P grow c).2 = .ok id) lp calls := by
  have hcond : Runs.Always (step P grow) (fun lp c => Smooth c ∧
      (lp.database.insert P c.post).rows.length < pieceSize) lp calls := fun pre c post hsplit =>
    ⟨hsmooth c (by simp [hsplit]),
      always_lt grow hdb (fun c hc => (hsmooth c hc).1) hfew pre c post hsplit⟩
  refine hcond.of_step (I := fun lp => Ready P lp ∧ Reflects P lp)
    ⟨hready, reflects_start hdb hcol⟩ ?_ ?_
  · rintro lp c ⟨hr, h⟩ ⟨hc, hlt⟩
    exact ⟨(addPost_ok grow hr h hc hlt).2, (maintains_of_lt h hc.1 hlt).2⟩
  · rintro lp c ⟨hr, h⟩ ⟨hc, hlt⟩
    exact (addPost_ok grow hr h hc hlt).1

/-! ## The thousandth post -/

/-- Every new info hash adds one post, so a run with more passes the thousandth. -/
theorem exists_thousandth (hmany : pieceSize ≤ distinctPosts P calls) :
    ∃ pre c post, calls = pre ++ c :: post ∧ distinctPosts P pre + 1 = pieceSize ∧
      distinctPosts P (pre ++ [c]) = pieceSize := by
  induction calls using List.reverseRecOn with
  | nil => exact absurd hmany (by simp [distinctPosts, pieceSize])
  | append_singleton init c ih =>
    by_cases hinit : pieceSize ≤ distinctPosts P init
    · obtain ⟨pre, c', post, rfl, hpre, hc'⟩ := ih hinit
      exact ⟨pre, c', post ++ [c], by simp, hpre, hc'⟩
    · have hone := distinctPosts_append_singleton_le P init c
      exact ⟨init, c, [], rfl, by omega, by omega⟩

theorem indexPost_id (hins : c.insertFails = none) {id : Int64}
    (h : (lp.indexPost P grow c).2 = .ok id) : id = (lp.database.insert P c.post).lastInsertId := by
  unfold indexPost Database.insertPost at h
  rw [hins] at h
  simp only at h
  split at h
  · cases h
  · split at h
    · cases h
    · injection h with h
      exact h.symm

/-- `AddPost` takes the post with id 1000 to be in piece 1, and no post there has that id. -/
theorem not_maintains_thousandth (hnum : lp.database.Numbered)
    (hlen : lp.database.rows.length + 1 = pieceSize)
    (hnew : (lp.database.insert P c.post).rows.length = pieceSize) (hins : c.insertFails = none) :
    ¬ Maintains P grow lp c := by
  rintro ⟨-, -, id, hid, r, hr, hrid⟩
  have hfresh : ∀ r ∈ lp.database.rows, r.infoHash ≠ P.store c.post.infoHash := by
    intro r hr heq
    rw [Database.insert_of_mem ⟨r, hr, heq⟩] at hnew
    omega
  have hthousand : id.toInt = 1000 := by
    have hps : pieceSize = 1000 := rfl
    have hnext := hnum.nextId (by omega)
    rw [indexPost_id hins hid, Database.insert_of_not_mem hfresh]
    show lp.database.nextId.toInt = 1000
    omega
  have hindex : (pieceIndex id).toNat = 1 := by
    rw [pieceIndex, hthousand]
    rfl
  rw [hindex] at hr
  have hlt := (List.mem_filter.mp hr).2
  rw [hrid, hthousand] at hlt
  exact absurd hlt (by decide)

theorem not_run_maintains (grow : Nat → Nat) (hdb : lp.database = .new)
    (hacc : ∀ c ∈ calls, Accepted c) (hmany : pieceSize ≤ distinctPosts P calls) :
    ¬ Runs.Always (step P grow) (Maintains P grow) lp calls := by
  intro hall
  obtain ⟨pre, c, post, rfl, hpre, hc⟩ := exists_thousandth hmany
  have haccpre : ∀ x ∈ pre, Accepted x := fun x hx => hacc x (by simp [hx])
  have hrun := run_database (P := P) grow lp haccpre
  have hps : pieceSize = 1000 := rfl
  refine not_maintains_thousandth ?_ ?_ ?_ (hacc c (by simp)).2 (hall pre c post rfl)
  · rw [hrun, hdb]
    refine Database.numbered_new.insertAll ?_
    rw [length_insertAll_calls]
    omega
  · rw [hrun, hdb, length_insertAll_calls]
    exact hpre
  · rw [run_insert grow hdb haccpre, length_insertAll_calls]
    exact hc

/-- Incremental maintenance equals recomputation exactly up to 999 posts. -/
theorem run_maintains_iff (P : Prims) (grow : Nat → Nat) (lp : LocalPeer) (hdb : lp.database = .new)
    (hcol : lp.collection = .new) (calls : List AddCall) (hacc : ∀ c ∈ calls, Accepted c) :
    Runs.Always (step P grow) (Maintains P grow) lp calls ↔ distinctPosts P calls < pieceSize := by
  constructor
  · intro hall
    by_contra hmany
    exact not_run_maintains grow hdb hacc (by omega) hall
  · exact run_maintains grow hdb hcol hacc

/-! ## A thousand calls -/

/-- A peer that has just been set up. -/
def samplePeer : LocalPeer :=
  let privateKey : Bytes := List.replicate privateKeySize 7
  let publicKey := Prims.sample.edPublic privateKey
  let address : Address := { raw := (Address.newAddress .sample publicKey).raw }
  { entry :=
      { address, name := [97], desc := [], publicAddress := [98], publicKey, postCount := 0,
        updated := 0, signature := List.replicate signatureSize 0, collectionHash := [],
        port := 5050, seeds := [], seeding := [], seen := 0 }
    privateKey
    database := .new
    collection := .new
    dht := .new address }

theorem ready_samplePeer : Ready .sample samplePeer where
  keySize := List.length_replicate
  key := by simp only [samplePeer]
  checked := by decide +kernel
  signature := List.length_replicate
  seeds := rfl
  seeding := rfl
  own := by decide +kernel
  table := Table.ok_new

/-- Adding the `i`-th sample post. -/
def sampleCall (i : Nat) : AddCall where
  post := (sampleRow i).scan
  checkedAt := 0
  signedAt := 1
  savedAt := 1
  insertFails := none
  writeFails := none

theorem smooth_sampleCall (i : Nat) : Smooth (sampleCall i) :=
  ⟨⟨rfl, rfl⟩, (by decide : driverAccepts 1 = true), rfl⟩

theorem smooth_of_mem {n : Nat} (hc : c ∈ (List.range n).map sampleCall) : Smooth c := by
  obtain ⟨i, -, rfl⟩ := List.mem_map.mp hc
  exact smooth_sampleCall i

theorem distinctPosts_sampleCalls (n : Nat) :
    distinctPosts .sample ((List.range n).map sampleCall) = n := by
  have hinj : Function.Injective fun i => Prims.sample.store (sampleCall i).post.infoHash := by
    intro i j hij
    injection hij with htext
    have hlen := congrArg List.length htext
    simpa [sampleCall, sampleRow, Row.scan, Cell.load] using hlen
  rw [distinctPosts, List.map_map]
  show ((List.range n).map fun i => Prims.sample.store (sampleCall i).post.infoHash).dedup.length = n
  rw [(List.nodup_range.map hinj).dedup, List.length_map, List.length_range]

/-- The theorem at a run of two calls. -/
theorem run_maintains_iff_two :
    let calls := (List.range 2).map sampleCall
    samplePeer.database = .new ∧ samplePeer.collection = .new ∧ (∀ c ∈ calls, Accepted c) ∧
      (Runs.Always (step .sample id) (Maintains .sample id) samplePeer calls ↔
        distinctPosts .sample calls < pieceSize) :=
  ⟨rfl, rfl, fun _ hc => (smooth_of_mem hc).1,
    run_maintains_iff .sample id samplePeer rfl rfl _ fun _ hc => (smooth_of_mem hc).1⟩

/-- A thousand posts with different info hashes, the first 999 of which are published without a
failure. At the last one the piece that is hashed again is not the one with the post. -/
theorem thousandth_post_in_other_piece :
    let calls := (List.range 1000).map sampleCall
    (∀ c ∈ calls, Accepted c) ∧ distinctPosts .sample calls = 1000 ∧
      Runs.Always (step .sample id) (fun lp c => ∃ i, (lp.addPost .sample id c).2 = .ok i)
        samplePeer ((List.range 999).map sampleCall) ∧
      ¬ Runs.Always (step .sample id) (Maintains .sample id) samplePeer calls :=
  ⟨fun _ hc => (smooth_of_mem hc).1, distinctPosts_sampleCalls 1000,
    run_succeeds id rfl rfl ready_samplePeer (fun _ hc => smooth_of_mem hc)
      (by rw [distinctPosts_sampleCalls]; decide),
    not_run_maintains id rfl (fun _ hc => (smooth_of_mem hc).1)
      (by rw [distinctPosts_sampleCalls]; decide)⟩

end Zif.Node.LocalPeer
