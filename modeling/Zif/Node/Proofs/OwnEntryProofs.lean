import Zif.Node.Proofs.PublishedProofs

/-!
# Proofs: the entry of the node itself

Every call changes the entry first and signs it afterwards. As long as the change stays within the
limits of `Verify` and nothing stops the call before it signs, the entry that is left is valid
(`afterEntryCall_verify`). A value that is too long is refused by `SaveEntry` when it is already in the
entry; it stays there, and every later save fails with it.
-/

namespace Zif.Node.LocalPeer

open Go Dht Data

variable {P : Prims} {grow : Nat → Nat} {lower : String → String} {lp lp' : LocalPeer}

/-! ## Signing and saving -/

/-- What signing needs to leave a valid entry. -/
structure Signable (P : Prims) (lp : LocalPeer) : Prop where
  key : KeyPair P lp
  checked : lp.entry.Checked
  signature : lp.entry.signature.length = signatureSize

theorem signable_of_verify (hkey : KeyPair P lp) (h : lp.entry.verify P = .ok ()) : Signable P lp := by
  obtain ⟨hchecked, -, hsig, -⟩ := (Entry.verify_eq_ok_iff _).mp h
  exact ⟨hkey, hchecked, hsig⟩

theorem Signable.signEntry (h : Signable P lp) (now : UInt64) :
    ∃ signature lp', lp' = { lp with entry := { lp.entry with updated := now, signature } } ∧
      lp.signEntry P now = .ok lp' ∧ Signable P lp' ∧ lp'.entry.verify P = .ok () := by
  obtain ⟨signature, hsign, hverify⟩ := signEntry_ok h.key h.checked h.signature now
  exact ⟨signature, _, rfl, hsign, signable_of_verify h.key hverify, hverify⟩

/-- Whatever becomes of saving the entry, it is signed. -/
theorem Signable.saveEntry (h : Signable P lp) (now : UInt64) (w : Option String) :
    (lp.saveEntry P now w).1.entry.verify P = .ok () := by
  obtain ⟨signature, lp', -, hsign, -, hverify⟩ := h.signEntry now
  unfold LocalPeer.saveEntry
  rw [hsign]
  rcases hins : lp'.dht.insert P lp'.entry with ⟨dht, f | n⟩
  · simpa only [hins] using hverify
  · simpa only [hins] using hverify

/-- What indexing a post changes of the entry is not checked. -/
theorem Signable.withIndex (h : Signable P lp) {lp' : LocalPeer} (hkey : lp'.privateKey = lp.privateKey)
    {postCount : Int64} {collectionHash : Bytes}
    (hentry : lp'.entry = { lp.entry with postCount, collectionHash }) : Signable P lp' := by
  refine ⟨⟨?_, ?_⟩, ?_, ?_⟩
  · rw [hkey]
    exact h.key.1
  · rw [hkey, hentry]
    exact h.key.2
  · rw [hentry]
    exact h.checked
  · rw [hentry]
    exact h.signature

/-! ## Setting a field -/

/-- The value is within the limits of the field it is for. -/
def Fits (key : String) (value : Bytes) : Prop :=
  (key = "name" → value.length ≤ maxEntryNameLength) ∧
    (key = "desc" → value.length ≤ maxEntryDescLength) ∧
    (key = "public" → 0 < value.length ∧ value.length < maxEntryPublicAddressLength)

theorem Signable.setField (h : Signable P lp) {key : String} {value : Bytes} (hfits : Fits key value)
    {entry : Entry} (hset : setField key value lp.entry = some entry) :
    Signable P { lp with entry } := by
  obtain ⟨h1, h2, h3, h4, h5, h6, h7, h8, h9⟩ := h.checked
  rcases setField_eq_some hset with ⟨hkey, rfl⟩ | ⟨hkey, rfl⟩ | ⟨hkey, rfl⟩
  · exact ⟨h.key, ⟨h1, hfits.1 hkey, h3, h4, h5, h6, h7, h8, h9⟩, h.signature⟩
  · exact ⟨h.key, ⟨h1, h2, hfits.2.1 hkey, h4, h5, h6, h7, h8, h9⟩, h.signature⟩
  · obtain ⟨hpos, hlt⟩ := hfits.2.2 hkey
    exact ⟨h.key, ⟨h1, h2, h3, h4, h5, h6, hpos, hlt, h9⟩, h.signature⟩

/-- `LocalSet` with a key it knows: two signatures, then the entry is stored. -/
theorem localSet_eq {c : LocalSetCall} {entry : Entry}
    (hset : Node.setField (lower c.key) c.value lp.entry = some entry)
    (hsign : signEntry P { lp with entry } c.signedAt = .ok lp') :
    lp.localSet P lower c = lp'.saveEntry P c.savedAt c.writeFails := by
  unfold localSet
  simp only [hset, hsign]

theorem localSet_of_unknown {c : LocalSetCall}
    (hset : Node.setField (lower c.key) c.value lp.entry = none) :
    lp.localSet P lower c = (lp, .error (.error "Unknown key")) := by
  unfold localSet
  simp only [hset]

theorem setField_eq_none {key : String} (hkey : key ∉ ["name", "desc", "public"]) (value : Bytes)
    (e : Entry) : Node.setField key value e = none := by
  simp only [List.mem_cons, List.not_mem_nil, or_false, not_or] at hkey
  unfold Node.setField
  rw [if_neg hkey.1, if_neg hkey.2.1, if_neg hkey.2.2]

theorem localSet_verify (h : lp.entry.verify P = .ok ()) {c : LocalSetCall} (hkey : KeyPair P lp)
    (hfits : Fits (lower c.key) c.value) : (lp.localSet P lower c).1.entry.verify P = .ok () := by
  cases hset : Node.setField (lower c.key) c.value lp.entry with
  | none =>
    rw [localSet_of_unknown hset]
    exact h
  | some entry =>
    have hs := (signable_of_verify hkey h).setField hfits hset
    obtain ⟨-, lp₁, -, hsign, h₁, -⟩ := hs.signEntry c.signedAt
    rw [localSet_eq hset hsign]
    exact h₁.saveEntry _ _

/-! ## Publishing a post -/

/-- The piece of the new post can be hashed and put into the hash list: it is appended, or there is
room for it. -/
def Indexable (P : Prims) (lp : LocalPeer) (c : AddCall) : Prop :=
  c.insertFails = none ∧
    let id := (lp.database.insert P c.post).lastInsertId.toInt
    0 ≤ id ∧ (lp.collection.hashList.len ≤ id.toNat / pieceSize ∨
      32 * (id.toNat / pieceSize + 1) ≤ lp.collection.hashList.array.length)

theorem toNat_pieceIndex {id : Int64} (h0 : 0 ≤ id.toInt) :
    (pieceIndex id).toNat = id.toInt.toNat / pieceSize := by
  have hlt := id.toInt_lt
  obtain ⟨n, hn⟩ := Int.eq_ofNat_of_zero_le h0
  have hdiv : id.toInt / (pieceSize : Int) = ((n / pieceSize : Nat) : Int) := by
    rw [hn]
    rfl
  have hle : n / pieceSize ≤ n := Nat.div_le_self _ _
  rw [pieceIndex, hdiv, hn, Int64.ofInt_eq_ofNat, Int64.toUInt64_ofNat',
    UInt64.toNat_ofNat', Nat.mod_eq_of_lt (by omega)]
  rfl

theorem add_ok {c : Collection} {piece : Piece} (hsmall : piece.id.toNat < 2 ^ 58)
    (hroom : c.hashList.len ≤ piece.id.toNat ∨
      32 * (piece.id.toNat + 1) ≤ c.hashList.array.length) :
    ∃ c', c.add P grow piece = .ok c' := by
  have hsucc : (piece.id + 1).toNat = piece.id.toNat + 1 := by
    rw [UInt64.toNat_add, UInt64.toNat_one, Nat.mod_eq_of_lt (by omega)]
  by_cases hlt : UInt64.ofNat c.hashList.len < piece.id + 1
  · exact ⟨_, Collection.add_of_lt hlt⟩
  · have hcap : 32 * (piece.id.toNat + 1) ≤ c.hashList.array.length := by
      refine hroom.resolve_left fun hle => hlt ?_
      rw [UInt64.lt_iff_toNat_lt, hsucc, UInt64.toNat_ofNat', Nat.mod_eq_of_lt (by omega)]
      omega
    have hlo : (piece.id * 32).toNat = piece.id.toNat * 32 := by
      rw [UInt64.toNat_mul]
      exact Nat.mod_eq_of_lt (by show _ * 32 < _; omega)
    have hhi : (piece.id * 32 + 32).toNat = piece.id.toNat * 32 + 32 := by
      rw [UInt64.toNat_add, hlo]
      exact Nat.mod_eq_of_lt (by show _ + 32 < _; omega)
    exact ⟨_, Collection.add_of_copyAt grow hlt (dif_pos ⟨by omega, by omega⟩)⟩

/-- Indexing a post changes the count and the collection hash in the entry. -/
theorem indexPost_ok (grow : Nat → Nat) {c : AddCall} (h : Indexable P lp c) :
    ∃ lp' id postCount collectionHash, lp.indexPost P grow c = (lp', .ok id) ∧
      lp'.privateKey = lp.privateKey ∧ lp'.dht = lp.dht ∧
      lp'.entry = { lp.entry with postCount, collectionHash } := by
  obtain ⟨hins, h0, hroom⟩ := h
  have hindex := toNat_pieceIndex h0
  have hquery := Database.queryPiece_eq (lp.database.insert P c.post)
    (pieceIndex (lp.database.insert P c.post).lastInsertId) false
  have hlt := (lp.database.insert P c.post).lastInsertId.toInt_lt
  rw [← hindex] at hroom
  obtain ⟨collection, hadd⟩ := @add_ok P grow lp.collection
    ⟨pieceIndex (lp.database.insert P c.post).lastInsertId, _, _⟩
    (by rw [hindex]; simp only [pieceSize]; omega) hroom
  exact ⟨_, _, _, _, indexPost_eq hins hquery hadd, rfl, rfl, rfl⟩

theorem addPost_verify (h : lp.entry.verify P = .ok ()) {c : AddCall} (hkey : KeyPair P lp)
    (hindex : Indexable P lp c) : (lp.addPost P grow c).1.entry.verify P = .ok () := by
  obtain ⟨lp₁, id, _, _, hidx, hkey₁, -, hentry⟩ := indexPost_ok grow hindex
  have h₁ := (signable_of_verify hkey h).withIndex hkey₁ hentry
  obtain ⟨-, lp₂, -, hsign, h₂, -⟩ := h₁.signEntry c.signedAt
  have hsave := h₂.saveEntry c.savedAt c.writeFails
  unfold addPost
  cases hvalid : c.post.valid c.checkedAt with
  | error f => exact h
  | ok u =>
    simp only [hidx, hsign]
    rcases hs : lp₂.saveEntry P c.savedAt c.writeFails with ⟨lp₃, f | u⟩
    · simpa only [hs] using hsave
    · simpa only [hs] using hsave

theorem addPost_of_invalid {c : AddCall} (hvalid : c.post.valid c.checkedAt ≠ .ok ()) :
    (lp.addPost P grow c).1 = lp := by
  unfold addPost
  cases h : c.post.valid c.checkedAt with
  | error f => rfl
  | ok u => exact absurd h hvalid

/-! ## Seeds -/

/-- What the node is seeding is not checked. -/
theorem addSeeding_verify (h : lp.entry.verify P = .ok ()) (c : SeedingCall) (hkey : KeyPair P lp) :
    (lp.addSeeding P c).1.entry.verify P = .ok () := by
  have hs := signable_of_verify hkey h
  have hown : Signable P { lp with
      entry := { lp.entry with seeding := lp.entry.seeding ++ [c.entry.address.raw] } } :=
    ⟨hs.key, hs.checked, hs.signature⟩
  obtain ⟨-, lp₁, -, hsign, h₁, hverify⟩ := hown.signEntry c.signedAt
  unfold addSeeding
  simp only [hsign]
  rcases hins : lp₁.dht.insert P { c.entry with seeds := c.entry.seeds ++ [lp.dht.addr.raw] } with
    ⟨dht, f | n⟩
  · simpa only [hins] using hverify
  · have hdht : Signable P { lp₁ with dht } := ⟨h₁.key, h₁.checked, h₁.signature⟩
    simpa only [hins] using hdht.saveEntry c.savedAt c.writeFails

theorem Signable.withSeeds (h : Signable P lp) {seeds : List Bytes}
    (hseeds : seeds.length ≤ maxEntrySeeds) :
    Signable P { lp with entry := { lp.entry with seeds } } := by
  obtain ⟨h1, h2, h3, -, h5, h6, h7, h8, h9⟩ := h.checked
  exact ⟨h.key, ⟨h1, h2, h3, hseeds, h5, h6, h7, h8, h9⟩, h.signature⟩

/-- The number of seeds is checked. -/
theorem handleAddPeer_verify (h : lp.entry.verify P = .ok ()) {m : AddPeerRequest}
    (hown : ∀ address, m.content = .ok address → address.equals lp.dht.addr = true →
      KeyPair P lp ∧ ((lp.entry.seeds.any fun i => m.sender.equals { raw := i }) = true ∨
        lp.entry.seeds.length < maxEntrySeeds)) :
    (lp.handleAddPeer P m).1.entry.verify P = .ok () := by
  unfold handleAddPeer
  cases hcontent : m.content with
  | error f => exact h
  | ok address =>
    by_cases heq : address.equals lp.dht.addr = true
    · obtain ⟨hkey, hroom⟩ := hown address hcontent heq
      have hs := signable_of_verify hkey h
      simp only [heq, if_true]
      refine (hs.withSeeds ?_).saveEntry _ _
      split
      · exact hs.checked.2.2.2.1
      · rename_i hnot
        have := hroom.resolve_left hnot
        rw [List.length_append, List.length_singleton]
        omega
    · simp only [heq]
      rcases hq : lp.dht.query P address with ⟨dht, f | _ | ⟨entry, id⟩⟩
      · exact h
      · exact h
      · exact h

/-! ## Saving without an error -/

/-- What saving the entry needs to end without an error: the time and the file are written, and the
address of the entry has a row, or the entry names no other peer. -/
def Savable (P : Prims) (lp : LocalPeer) (now : UInt64) (w : Option String) : Prop :=
  driverAccepts now = true ∧ w = none ∧
    ((lp.dht.db.row (P.store (lp.entry.address.string P))).isSome = true ∨
      lp.entry.seeds = [] ∧ lp.entry.seeding = [])

/-- Storing a verified entry of this kind does not return an error. -/
theorem insert_ne_error {ndb : NetDB} {e : Entry} (hv : e.verify P = .ok ())
    (he : driverAccepts e.updated = true)
    (hlinks : (ndb.db.row (P.store (e.address.string P))).isSome = true ∨ e.seeds = [] ∧ e.seeding = [])
    (err : String) : (ndb.insert P e).2 ≠ .error (.error err) := by
  intro h
  cases ht : Table.insertIntoTable ndb.addr ndb.table e.address with
  | error f =>
    simp [NetDB.insert, hv, NetDB.insertIntoTable, ht, bind, Except.bind, Table.insertIntoTable_error ht] at h
  | ok t =>
    have htable := NetDB.insertIntoTable_eq ht
    have hok : ∃ affected, (ndb.insert P e).2 = .ok affected := by
      rcases hlinks with hrow | ⟨hseeds, hseeding⟩
      · obtain ⟨r, hr⟩ := Option.isSome_iff_exists.mp hrow
        obtain ⟨affected, hins⟩ := NetDB.insert_of_row hv htable he hr
        exact ⟨affected, by rw [hins]⟩
      · exact NetDB.insert_ok hv htable he hseeds hseeding
    obtain ⟨affected, hok⟩ := hok
    rw [hok] at h
    cases h

theorem Signable.saveEntry_ne_error (h : Signable P lp) {now : UInt64} {w : Option String}
    (hsave : Savable P lp now w) (err : String) : (lp.saveEntry P now w).2 ≠ .error (.error err) := by
  obtain ⟨hnow, rfl, hlinks⟩ := hsave
  obtain ⟨signature, lp', rfl, hsign, -, hverify⟩ := h.signEntry now
  have hins := insert_ne_error hverify hnow hlinks err
  unfold LocalPeer.saveEntry
  rw [hsign]
  rcases hres : lp.dht.insert P { lp.entry with updated := now, signature } with ⟨dht, f | n⟩
  · rw [hres] at hins
    simp only [hres]
    intro heq
    cases heq
    exact hins rfl
  · simp [hres]

/-- `LocalSet` returns no error but the one for an unknown key. -/
theorem localSet_error (h : lp.entry.verify P = .ok ()) {c : LocalSetCall} (hkey : KeyPair P lp)
    (hfits : Fits (lower c.key) c.value) (hsave : Savable P lp c.savedAt c.writeFails) {err : String}
    (herr : (lp.localSet P lower c).2 = .error (.error err)) : (lp.localSet P lower c).1 = lp := by
  cases hset : Node.setField (lower c.key) c.value lp.entry with
  | none => rw [localSet_of_unknown hset]
  | some entry =>
    have hs := (signable_of_verify hkey h).setField hfits hset
    obtain ⟨signature, lp₁, rfl, hsign, h₁, -⟩ := hs.signEntry c.signedAt
    rw [localSet_eq hset hsign] at herr
    refine absurd herr (h₁.saveEntry_ne_error ?_ err)
    rcases setField_eq_some hset with ⟨-, rfl⟩ | ⟨-, rfl⟩ | ⟨-, rfl⟩ <;> exact hsave

/-! ## Runs of calls -/

/-- The call leaves a valid entry: what it sets is within the limits, it signs with the key of the
entry, and nothing stops it between changing the entry and signing it. -/
def EntrySafe (P : Prims) (lower : String → String) (lp : LocalPeer) : EntryCall → Prop
  | .localSet c => lower c.key ∉ ["name", "desc", "public"] ∨
      KeyPair P lp ∧ Fits (lower c.key) c.value ∧ Savable P lp c.savedAt c.writeFails
  | .addPost c => c.post.valid c.checkedAt ≠ .ok () ∨ KeyPair P lp ∧ Indexable P lp c
  | .addSeeding _ => KeyPair P lp
  | .handleAddPeer m => ∀ address, m.content = .ok address → address.equals lp.dht.addr = true →
      KeyPair P lp ∧ ((lp.entry.seeds.any fun i => m.sender.equals { raw := i }) = true ∨
        lp.entry.seeds.length < maxEntrySeeds)

theorem afterEntryCall_verify (h : lp.entry.verify P = .ok ()) {c : EntryCall}
    (hc : EntrySafe P lower lp c) : (lp.afterEntryCall P grow lower c).entry.verify P = .ok () := by
  cases c with
  | localSet c =>
    rcases hc with hunknown | ⟨hkey, hfits, -⟩
    · show (lp.localSet P lower c).1.entry.verify P = _
      rw [localSet_of_unknown (setField_eq_none hunknown _ _)]
      exact h
    · exact localSet_verify h hkey hfits
  | addPost c =>
    rcases hc with hinvalid | ⟨hkey, hindex⟩
    · show (lp.addPost P grow c).1.entry.verify P = _
      rw [addPost_of_invalid hinvalid]
      exact h
    · exact addPost_verify h hkey hindex
  | addSeeding c => exact addSeeding_verify h c hc
  | handleAddPeer m => exact handleAddPeer_verify h hc

/-- A `LocalSet` that returns an error leaves the entry as it was. -/
def RefusalKeepsEntry (P : Prims) (grow : Nat → Nat) (lower : String → String) (lp : LocalPeer)
    (call : EntryCall) : Prop :=
  ∀ c err, call = .localSet c → (lp.callEntry P grow lower call).2 = .error (.error err) →
    (lp.afterEntryCall P grow lower call).entry = lp.entry

theorem refusalKeepsEntry (grow : Nat → Nat) (h : lp.entry.verify P = .ok ()) {c : EntryCall}
    (hc : EntrySafe P lower lp c) : RefusalKeepsEntry P grow lower lp c := by
  rintro c err rfl herr
  rcases hc with hunknown | ⟨hkey, hfits, hsave⟩
  · show (lp.localSet P lower c).1.entry = _
    rw [localSet_of_unknown (setField_eq_none hunknown _ _)]
  · exact congrArg LocalPeer.entry (localSet_error h hkey hfits hsave herr)

/-- In a run of such calls the entry passes `Verify` in every state, and a `LocalSet` that is refused
leaves it as it was. -/
theorem run_entry_verify (P : Prims) (grow : Nat → Nat) (lower : String → String) (lp : LocalPeer)
    (calls : List EntryCall) (h : lp.entry.verify P = .ok ())
    (hcalls : Runs.Always (afterEntryCall P grow lower) (EntrySafe P lower) lp calls) :
    (∀ pre post, calls = pre ++ post →
      (Runs.run (afterEntryCall P grow lower) lp pre).entry.verify P = .ok ()) ∧
    Runs.Always (afterEntryCall P grow lower) (RefusalKeepsEntry P grow lower) lp calls := by
  constructor
  · rintro pre post rfl
    exact hcalls.left.invariant (I := fun lp => lp.entry.verify P = .ok ()) h
      fun _ _ h hc => afterEntryCall_verify h hc
  · exact hcalls.of_step (I := fun lp => lp.entry.verify P = .ok ()) h
      (fun _ _ h hc => afterEntryCall_verify h hc) fun _ _ h hc => refusalKeepsEntry grow h hc

/-! ## A name -/

/-- The peer that has just been set up, with a signed entry. -/
def signedPeer : LocalPeer :=
  { samplePeer with entry := samplePeer.entry.signedBy .sample samplePeer.privateKey }

theorem verify_signedPeer : signedPeer.entry.verify .sample = .ok () :=
  Entry.verify_signedBy (by decide)

/-- Setting the name. -/
def nameCall (value : Bytes) : LocalSetCall := ⟨"Name", value, 1, 1, none⟩

/-- A name that fits, then a key there is not. -/
def sampleCalls : List EntryCall :=
  [.localSet (nameCall [98]), .localSet { nameCall [99] with key := "port" }]

/-- The theorem at a run. -/
theorem run_entry_verify_sample :
    (Runs.run (afterEntryCall .sample id String.toLower) signedPeer sampleCalls).entry.verify .sample =
      .ok () := by
  refine (run_entry_verify .sample id String.toLower signedPeer sampleCalls verify_signedPeer ?_).1
    sampleCalls [] (List.append_nil _).symm
  obtain ⟨hname, hport⟩ : String.toLower "Name" = "name" ∧
      String.toLower "port" ∉ ["name", "desc", "public"] := by decide +kernel
  have hfits : Fits (String.toLower "Name") [98] := by
    rw [hname]
    exact ⟨fun _ => by decide, fun h => absurd h (by decide), fun h => absurd h (by decide)⟩
  exact .cons (.inr ⟨⟨rfl, by decide +kernel⟩, hfits, rfl, rfl, .inr ⟨rfl, rfl⟩⟩)
    (.cons (.inl hport) Runs.always_nil)

/-- A name of 33 bytes is refused, and it is the name of the entry from then on. -/
theorem refused_name_stays :
    let c := nameCall (List.replicate 33 98)
    signedPeer.entry.verify .sample = .ok () ∧
      (signedPeer.localSet .sample String.toLower c).2 = .error (.error "Entry name is too long") ∧
      (signedPeer.localSet .sample String.toLower c).1.entry.name = List.replicate 33 98 ∧
      (signedPeer.localSet .sample String.toLower c).1.entry.verify .sample ≠ .ok () ∧
      ¬ RefusalKeepsEntry .sample id String.toLower signedPeer (.localSet c) := by
  intro c
  obtain ⟨hres, hname, hrefused⟩ : (signedPeer.localSet .sample String.toLower c).2 =
        .error (.error "Entry name is too long") ∧
      (signedPeer.localSet .sample String.toLower c).1.entry.name = List.replicate 33 98 ∧
      (signedPeer.localSet .sample String.toLower c).1.entry.verify .sample ≠ .ok () := by
    decide +kernel
  refine ⟨verify_signedPeer, hres, hname, hrefused, fun h => ?_⟩
  have hentry := congrArg Entry.name (h _ _ rfl hres)
  exact absurd (hname.symm.trans hentry) (by decide)

end Zif.Node.LocalPeer
