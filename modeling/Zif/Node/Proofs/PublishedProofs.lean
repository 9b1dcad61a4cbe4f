import Zif.Node.Commands
import Zif.Node.Proofs.AddPostProofs

/-!
# Proofs: what is published

`SetSeedLeech` changes counts that are not hashed, `SelfIndex` and `SaveCollection` change nothing that
is published, and `LocalSet` leaves the collection hash in the entry alone. `RebuildCollection` makes
the list that is there already, as long as there is one piece; with more it panics, or makes a list
that is too short. `AddMeta` changes what is hashed, and neither the hash list nor the entry with it.
-/

namespace Zif.Node

open Go Dht Data Paging

variable {P : Prims} {grow : Nat → Nat} {lower : String → String}

/-- What `LocalSet` may set. -/
theorem setField_eq_some {key : String} {value : Bytes} {e e' : Entry}
    (h : setField key value e = some e') :
    (key = "name" ∧ e' = { e with name := value }) ∨ (key = "desc" ∧ e' = { e with desc := value }) ∨
      key = "public" ∧ e' = { e with publicAddress := value } := by
  unfold setField at h
  split at h
  · rename_i hkey
    cases h
    exact .inl ⟨hkey, rfl⟩
  · split at h
    · rename_i hkey
      cases h
      exact .inr (.inl ⟨hkey, rfl⟩)
    · split at h
      · rename_i hkey
        cases h
        exact .inr (.inr ⟨hkey, rfl⟩)
      · cases h

/-- Setting a field of the entry leaves the index alone. -/
theorem LocalPeer.localSet_sameIndex (P : Prims) (lower : String → String) (lp : LocalPeer)
    (c : LocalSetCall) : SameIndex lp (lp.localSet P lower c).1 := by
  unfold localSet
  cases hset : setField (lower c.key) c.value lp.entry with
  | none => exact SameIndex.refl lp
  | some entry =>
    have hhash : entry.collectionHash = lp.entry.collectionHash := by
      rcases setField_eq_some hset with ⟨-, rfl⟩ | ⟨-, rfl⟩ | ⟨-, rfl⟩ <;> rfl
    have hentry : SameIndex lp { lp with entry } := ⟨rfl, rfl, hhash⟩
    cases hsign : signEntry P { lp with entry } c.signedAt with
    | error f =>
      simp only [hsign]
      exact ⟨rfl, rfl, hhash⟩
    | ok lp₁ =>
      simp only [hsign]
      exact hentry.trans ((signEntry_sameIndex hsign).trans (saveEntry_sameIndex P lp₁ _ _))

namespace CommandServer

variable {cs cs' : CommandServer}

/-- What `Published` depends on. -/
theorem Published.of_same (h : Published P cs) (hnil : cs'.collectionNil = false)
    (hdb : cs.localPeer.database.SameTexts cs'.localPeer.database)
    (hview : cs'.localPeer.collection.hashList.view = cs.localPeer.collection.hashList.view)
    (hroot : cs'.localPeer.entry.collectionHash = cs.localPeer.entry.collectionHash) :
    Published P cs' := by
  refine ⟨hnil, ?_, ?_, ?_⟩
  · rw [← Buffer.length_view, hview, Buffer.length_view, h.len, hdb.1]
  · intro i hi store
    rw [hdb.1] at hi
    obtain ⟨piece, hpiece, -, hhash⟩ := Collection.queryPiece_hash P cs'.localPeer.database i store
    obtain ⟨piece', hpiece', -, hhash'⟩ := Collection.queryPiece_hash P cs.localPeer.database i store
    obtain ⟨old, hold, hpage⟩ := h.hashes i hi store
    rw [hpiece'] at hold
    cases hold
    refine ⟨piece, hpiece, ?_⟩
    rw [hview, hpage, hhash', hhash, Collection.queriedHash, Collection.queriedHash, hdb.2]
  · rw [hroot, h.root, hview]

theorem Published.withDatabase (h : Published P cs) {database : Database}
    (hdb : cs.localPeer.database.SameTexts database) : Published P (cs.withDatabase database) :=
  h.of_same h.collection hdb rfl rfl

/-- The hash list that is published, from the pieces. -/
theorem Published.view (h : Published P cs) : cs.localPeer.collection.hashList.view =
    (List.range (count pieceSize cs.localPeer.database.postCount)).flatMap
      (Collection.queriedHash P cs.localPeer.database) := by
  have hlen := h.len
  rw [← Buffer.length_view] at hlen
  rw [← List.take_of_length_le hlen.le, ← take_eq_flatMap_page]
  refine List.flatMap_congr fun i hi => ?_
  obtain ⟨piece, hpiece, hpage⟩ := h.hashes i (List.mem_range.mp hi) false
  obtain ⟨piece', hpiece', -, hhash⟩ := Collection.queryPiece_hash P _ i false
  rw [hpiece'] at hpiece
  cases hpiece
  rw [hpage, hhash]

/-! ## One command -/

theorem Published.addMeta (h : Published P cs) {pid : Int64} {value : Bytes} {fails : Option String}
    (hsame : fails ≠ none ∨
      ∀ r ∈ cs.localPeer.database.rows, r.id = pid → (P.store value).load = r.metadata.load) :
    Published P (cs.addMeta P pid value fails).1 := by
  refine h.withDatabase ?_
  rcases hsame with hfails | hsame
  · cases fails with
    | none => exact absurd rfl hfails
    | some err => exact Database.SameTexts.refl _
  · exact Database.sameTexts_addMeta fails hsame

theorem Published.setSeedLeech (h : Published P cs) (id seeders leechers : UInt64)
    (lf sf : Option String) : Published P (cs.setSeedLeech id seeders leechers lf sf).1 := by
  unfold CommandServer.setSeedLeech
  have hleech := Database.sameTexts_setLeechers cs.localPeer.database id leechers lf
  rcases hres : cs.localPeer.database.setLeechers id leechers lf with ⟨database, f | u⟩
  · rw [hres] at hleech
    exact h.withDatabase hleech
  · rw [hres] at hleech
    exact h.withDatabase (hleech.trans (Database.sameTexts_setSeeders database id seeders sf))

/-- Rebuilding makes the list that is there, or panics before it is replaced. -/
theorem Published.rebuildCollection (h : Published P cs)
    (hone : cs.localPeer.database.postCount ≤ pieceSize ∨ grow 32 < 64) :
    Published P (cs.rebuildCollection P grow none).1 := by
  unfold CommandServer.rebuildCollection
  by_cases hle : cs.localPeer.database.postCount ≤ pieceSize
  · obtain ⟨c, hc, hview⟩ := Collection.createCollection_of_le P grow hle
    simp only [hc]
    refine h.of_same rfl (Database.SameTexts.refl _) ?_ rfl
    show c.hashList.view = _
    rw [hview, h.view]
  · rw [Collection.createCollection_panics P (hone.resolve_left hle) (by omega)]
    exact h

theorem Published.localSet (h : Published P cs) (lower : String → String) (c : LocalSetCall) :
    Published P (cs.step P grow lower (.localSet c)) := by
  obtain ⟨hdb, hcol, hroot⟩ := LocalPeer.localSet_sameIndex P lower cs.localPeer c
  refine h.of_same h.collection ?_ ?_ hroot
  · show cs.localPeer.database.SameTexts (cs.localPeer.localSet P lower c).1.database
    rw [hdb]
    exact Database.SameTexts.refl _
  · show (cs.localPeer.localSet P lower c).1.collection.hashList.view = _
    rw [hcol]

/-! ## Runs of commands -/

/-- A command that does not change what is hashed without publishing it: `AddMeta` fails, finds no
row, or sets the metadata that is there; `RebuildCollection` can read the pieces, and there is one piece
at most or `append` allocates too little for the second. -/
def Harmless (P : Prims) (grow : Nat → Nat) (cs : CommandServer) : Command → Prop
  | .addMeta pid value fails => fails ≠ none ∨
      ∀ r ∈ cs.localPeer.database.rows, r.id = pid → (P.store value).load = r.metadata.load
  | .rebuildCollection readFails =>
      readFails = none ∧ (cs.localPeer.database.postCount ≤ pieceSize ∨ grow 32 < 64)
  | _ => True

theorem Published.step (h : Published P cs) {c : Command} (hc : Harmless P grow cs c) :
    Published P (cs.step P grow lower c) := by
  cases c with
  | addMeta pid value fails => exact h.addMeta hc
  | setSeedLeech id seeders leechers lf sf => exact h.setSeedLeech id seeders leechers lf sf
  | selfIndex since fails => cases fails <;> exact h
  | saveCollection =>
    show Published P (cs.saveCollection).1
    unfold CommandServer.saveCollection
    split <;> exact h
  | rebuildCollection readFails =>
    obtain ⟨rfl, hone⟩ := hc
    exact h.rebuildCollection hone
  | localSet c => exact h.localSet lower c

/-- In a run of harmless commands what is published stays true to the database. -/
theorem run_published (P : Prims) (grow : Nat → Nat) (lower : String → String) (cs : CommandServer)
    (cmds : List Command) (h : Published P cs)
    (hcmds : Runs.Always (step P grow lower) (Harmless P grow) cs cmds) :
    Published P (Runs.run (step P grow lower) cs cmds) :=
  hcmds.invariant h fun _ _ h hc => h.step hc

/-! ## A node with one post -/

/-- The database of the node: one post without metadata. -/
def oneDatabase : Database := sampleDatabase 1

/-- The hash of its only piece. -/
def oneHash : Bytes := Prims.sample.sha3 (oneDatabase.pieceText 0)

/-- A node that publishes the post. -/
def oneServer : CommandServer where
  localPeer :=
    { LocalPeer.samplePeer with
      database := oneDatabase
      collection := ⟨Buffer.empty.append id 0 oneHash, oneHash⟩
      entry := { LocalPeer.samplePeer.entry with collectionHash := Prims.sample.sha3 oneHash } }
  collectionNil := false

theorem published_oneServer : Published .sample oneServer := by
  have hnum : oneDatabase.Numbered := numbered_sampleDatabase (n := 1) (by decide)
  have hcount : count pieceSize oneServer.localPeer.database.postCount = 1 := by decide
  have hview : oneServer.localPeer.collection.hashList.view = oneHash := by
    simp [oneServer]
  refine ⟨rfl, ?_, ?_, ?_⟩
  · rw [hcount, ← Buffer.length_view, hview, oneHash, Prims.sample.sha3_length]
  · intro i hi store
    rw [hcount] at hi
    obtain rfl : i = 0 := by omega
    refine ⟨_, hnum.queryPiece (i := 0) (by decide) store, ?_⟩
    rw [hview, page, List.drop_zero, List.take_of_length_le (by rw [oneHash, Prims.sample.sha3_length])]
    rfl
  · rw [hview]
    rfl

/-- The commands of a run in which nothing is broken. -/
def harmlessCommands : List Command :=
  [.setSeedLeech 1 5 7 none none, .rebuildCollection none, .addMeta 2 [120] none, .saveCollection]

/-- The theorem at a run. -/
theorem run_published_sample :
    Published .sample (Runs.run (step .sample id String.toLower) oneServer harmlessCommands) := by
  refine run_published .sample id String.toLower oneServer harmlessCommands published_oneServer ?_
  refine .cons trivial (.cons ⟨rfl, .inr (by decide)⟩ (.cons (.inr ?_) (.cons trivial Runs.always_nil)))
  decide

/-- Metadata for the post: the piece has another hash, the hash list and the entry have the old one. -/
theorem addMeta_unpublished :
    Published .sample oneServer ∧ (oneServer.addMeta .sample 1 [120] none).2 = .ok () ∧
      ¬ Published .sample (Runs.run (step .sample id String.toLower) oneServer
        [.addMeta 1 [120] none]) := by
  refine ⟨published_oneServer, rfl, fun h => ?_⟩
  have hview := h.view
  revert hview
  decide

end CommandServer

end Zif.Node
