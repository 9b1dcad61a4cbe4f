import Zif.Data.Proofs.CollectionProofs
import Zif.Dht.Proofs.EntryProofs
import Zif.Node.Mirror

/-!
# Proofs: hash lists and their root

`Verify` hashes as many blocks as `Size` says, and reads them from the array behind the list
(`MessageCollection.verify_eq`). What comes after these blocks in the list is not looked at, and what comes
before them in the array need not be in the list.

On the side of the publisher, `Add` feeds the running hash with every piece, also with one that replaces
another. The running hash is that of the list as long as no piece has been added to a list with hashes since
the last `Rehash` (`verify_hash_iff`).
-/

namespace Zif.Node

open Go Dht Data

variable {P : Prims} {grow : Nat → Nat} {mhl : MessageCollection} {root : Bytes}

namespace MessageCollection

/-! ## The verifier -/

/-- What has been written to the hash after `n` blocks. -/
theorem foldlM_writeBlock (mhl : MessageCollection) (n : Nat) :
    (List.range n).foldlM mhl.writeBlock [] =
      if 32 * n ≤ mhl.hashList.array.length then .ok (mhl.hashList.array.take (32 * n))
      else .error .panic := by
  induction n with
  | zero => rfl
  | succ n ih =>
    rw [List.range_succ, List.foldlM_append, ih]
    by_cases hn : 32 * n ≤ mhl.hashList.array.length
    · rw [if_pos hn]
      show mhl.writeBlock _ n >>= pure = _
      rw [bind_pure, writeBlock, Buffer.sliceAt]
      by_cases hsucc : 32 * (n + 1) ≤ mhl.hashList.array.length
      · rw [if_pos ⟨by omega, hsucc⟩, if_pos hsucc, Nat.add_sub_cancel_left, Nat.mul_succ, List.take_add]
      · rw [if_neg fun h => hsucc h.2, if_neg hsucc]
    · rw [if_neg hn, if_neg (by omega)]
      rfl

/-- `Verify` compares the hash of the first `Size` blocks of the array. -/
theorem verify_eq (P : Prims) (mhl : MessageCollection) (root : Bytes) :
    mhl.verify P root =
      if 32 * mhl.size.toInt.toNat ≤ mhl.hashList.array.length then
        if P.sha3 (mhl.hashList.array.take (32 * mhl.size.toInt.toNat)) = root then .ok ()
        else .error (.error "Invalid hash list")
      else .error .panic := by
  rw [verify, foldlM_writeBlock]
  by_cases hfits : 32 * mhl.size.toInt.toNat ≤ mhl.hashList.array.length
  · rw [if_pos hfits, if_pos hfits]
    exact ite_not _ _ _
  · rw [if_neg hfits, if_neg hfits]
    rfl

theorem verify_ok_iff :
    mhl.verify P root = .ok () ↔ 32 * mhl.size.toInt.toNat ≤ mhl.hashList.array.length ∧
      P.sha3 (mhl.hashList.array.take (32 * mhl.size.toInt.toNat)) = root := by
  rw [verify_eq]
  split_ifs with hfits hroot
  · exact iff_of_true rfl ⟨hfits, hroot⟩
  · exact iff_of_false (by intro h; cases h) fun h => hroot h.2
  · exact iff_of_false (by intro h; cases h) fun h => hfits h.1

theorem verify_panic_iff :
    mhl.verify P root = .error .panic ↔ mhl.hashList.array.length < 32 * mhl.size.toInt.toNat := by
  rw [verify_eq]
  split_ifs with hfits hroot
  · exact iff_of_false (by intro h; cases h) (not_lt.mpr hfits)
  · exact iff_of_false (by intro h; cases h) (not_lt.mpr hfits)
  · exact iff_of_true rfl (not_le.mp hfits)

/-- The blocks that are read of a list of `Size` blocks are the list. -/
theorem take_array_of_len (h : mhl.hashList.len = 32 * mhl.size.toInt.toNat) :
    mhl.hashList.array.take (32 * mhl.size.toInt.toNat) = mhl.hashList.view := by
  rw [Buffer.view, h]

/-- `Verify` of a list with as many blocks as `Size` says. -/
theorem verify_of_len (h : mhl.hashList.len = 32 * mhl.size.toInt.toNat) :
    mhl.verify P root = .ok () ↔ P.sha3 mhl.hashList.view = root := by
  have hcap := mhl.hashList.len_le
  rw [verify_ok_iff, take_array_of_len h, and_iff_right (by omega)]

/-- **Verification of a hash list.** It is exact when it stays within the array, and the list has as many
blocks as `Size` says or is not accepted. -/
theorem verify_exact_iff (P : Prims) (mhl : MessageCollection) (root : Bytes) :
    mhl.Exact P root ↔ 32 * mhl.size.toInt.toNat ≤ mhl.hashList.array.length ∧
      ((mhl.hashList.len : Int) = 32 * mhl.size.toInt ∨
        P.sha3 (mhl.hashList.array.take (32 * mhl.size.toInt.toNat)) ≠ root) := by
  constructor
  · rintro ⟨hrange, haccepts⟩
    have hfits := not_lt.mp (mt verify_panic_iff.mpr hrange)
    refine ⟨hfits, or_iff_not_imp_right.mpr fun hroot => ?_⟩
    exact (haccepts.mp (verify_ok_iff.mpr ⟨hfits, not_not.mp hroot⟩)).1
  · rintro ⟨hfits, hcond⟩
    refine ⟨mt verify_panic_iff.mp (not_lt.mpr hfits), ?_⟩
    by_cases hlen : (mhl.hashList.len : Int) = 32 * mhl.size.toInt
    · rw [verify_of_len (by omega), and_iff_right hlen]
    · have hroot := hcond.resolve_left hlen
      rw [verify_ok_iff]
      exact iff_of_false (fun h => hroot h.2) fun h => hlen h.1

end MessageCollection

variable {s : Session} {entry : Entry} {mcol : MessageCollection}

theorem clientCollection_ok {reply : Result CollectionContent}
    (h : clientCollection P grow reply entry = .ok mcol) :
    mcol.verify P entry.collectionHash = .ok () := by
  rw [clientCollection] at h
  cases reply with
  | error f => cases h
  | ok content =>
    change (MessageCollection.read grow content >>= _) = _ at h
    cases hread : MessageCollection.read grow content with
    | error f =>
      rw [hread] at h
      cases h
    | ok mhl =>
      rw [hread] at h
      change (mhl.verify P entry.collectionHash >>= _) = _ at h
      cases hverify : mhl.verify P entry.collectionHash with
      | error f =>
        rw [hverify] at h
        cases h
      | ok u =>
        rw [hverify] at h
        injection h with h
        rw [← h]
        exact hverify

/-- A session with a peer whose hash list has one block more than are counted. -/
def uncountedBlock : Session where
  ping := none
  entry := .ok { sampleEntry 1 1 1 with collectionHash := Prims.sample.sha3 (List.replicate 32 1) }
  openStream := none
  hashList _ := .ok ⟨[.hashList (some (List.replicate 32 1 ++ List.replicate 32 2)), .size 1], 82⟩
  saveCollection := none
  openPieceStream := none
  pieces _ := none
  requestAddPeer := none

/-- Two blocks are accepted for the hash of the first one and saved, when one is counted; when three are
counted, `Verify` goes out of range. -/
theorem uncounted_block_accepted :
    let list : Bytes := List.replicate 32 1 ++ List.replicate 32 2
    let root := Prims.sample.sha3 (List.replicate 32 1)
    MessageCollection.verify .sample ⟨Buffer.ofList list, 1⟩ root = .ok () ∧ Prims.sample.sha3 list ≠ root ∧
      savedList .sample id uncountedBlock = some list ∧
      MessageCollection.verify .sample ⟨Buffer.ofList list, 3⟩ root = .error .panic := by
  decide

/-! ## The publisher -/

/-- The message with a hash list counts its blocks. -/
theorem len_ofCollection {c : Collection} {n : Nat} (h : c.Fed n) :
    (MessageCollection.ofCollection c).hashList.len =
      32 * (MessageCollection.ofCollection c).size.toInt.toNat := by
  have hwhole := h.whole
  have hsmall := h.small
  show c.hashList.len = 32 * (Int64.ofNat (c.hashList.len / 32)).toInt.toNat
  rw [Int64.toInt_ofNat_of_lt (by omega), Int.toNat_natCast]
  omega

/-- **The root of a hash list.** After any calls the published list is accepted for the running hash exactly
when no piece has been added to a list with hashes since the last `Rehash`, or the two collide. -/
theorem verify_hash_iff (P : Prims) (grow : Nat → Nat) {c c' : Collection} {calls : List Collection.Call}
    (hmade : c.Made) (h : Collection.Reaches P grow c calls c') :
    (MessageCollection.ofCollection c').verify P (c'.hash P) = .ok () ↔
      Collection.overwritten (c.hashList.len == 0) 0 calls = 0 ∨
        c'.rootHash ≠ c'.hashList.view ∧ P.sha3 c'.rootHash = P.sha3 c'.hashList.view := by
  have hfed := h.fed hmade.fed
  rw [MessageCollection.verify_of_len (len_ofCollection hfed), ← hfed.eq_view_iff]
  show P.sha3 c'.hashList.view = P.sha3 c'.rootHash ↔ _
  constructor
  · intro heq
    by_cases hsame : c'.rootHash = c'.hashList.view
    · exact .inl hsame
    · exact .inr ⟨hsame, heq.symm⟩
  · rintro (hsame | ⟨-, heq⟩)
    · rw [hsame]
    · exact heq.symm

/-- The theorem at a piece that has got a post more since it was added, is added again, and the hash is
made anew: the list has the hash of the new version, and is accepted. -/
theorem verify_hash_iff_replaced :
    ∃ c, Collection.Reaches .sample id .new
        [.add (Collection.samplePiece 0 1), .add (Collection.samplePiece 0 2), .rehash] c ∧
      c.hashList.view = (Collection.samplePiece 0 2).hash .sample ∧
      (MessageCollection.ofCollection c).verify .sample (c.hash .sample) = .ok () := by
  have hfirst := Collection.add_new .sample id (rfl : (Collection.samplePiece 0 1).id = 0)
  set first := Buffer.empty.append id 0 ((Collection.samplePiece 0 1).hash .sample)
  have hlen : first.len = 32 := Collection.len_first (P := .sample) id (Collection.samplePiece 0 1)
  obtain ⟨c, hsecond, hview⟩ := Collection.add_again .sample id (c := ⟨first, _⟩) hlen.ge
    (by rw [hlen]; decide) (rfl : (Collection.samplePiece 0 2).id = 0)
  have hreach : Collection.Reaches .sample id .new
      [.add (Collection.samplePiece 0 1), .add (Collection.samplePiece 0 2), .rehash] c.rehash :=
    .add (Nat.le_refl 0) hfirst (.add (Nat.zero_le _) hsecond (.rehash (.nil c.rehash)))
  refine ⟨c.rehash, hreach, ?_, (verify_hash_iff .sample id .new hreach).mpr (.inl rfl)⟩
  rw [List.drop_of_length_le (by rw [Buffer.length_view, hlen]), List.append_nil] at hview
  exact hview

/-- A new collection to which a piece has been added. -/
def oneHash : Collection :=
  ⟨Buffer.empty.append id 0 (Piece.hash .sample (Piece.setup 0)), Piece.hash .sample (Piece.setup 0)⟩

theorem add_oneHash : Collection.new.add .sample id (Piece.setup 0) = .ok oneHash :=
  Collection.add_new .sample id rfl

/-- Two versions of piece 0 are added to a new collection, and the list, which has the second one, is not
accepted for the running hash. -/
theorem replaced_piece_not_accepted :
    ∃ c, Collection.Reaches .sample id .new [.add (Piece.setup 0), .add ⟨0, [], [1]⟩] c ∧
      (MessageCollection.ofCollection c).verify .sample (c.hash .sample) =
        .error (.error "Invalid hash list") := by
  have hverify : (oneHash.add .sample id ⟨0, [], [1]⟩).map
      (fun c => (MessageCollection.ofCollection c).verify .sample (c.hash .sample)) =
        .ok (.error (.error "Invalid hash list")) := by
    decide +kernel
  cases hsecond : oneHash.add .sample id ⟨0, [], [1]⟩ with
  | error f =>
    rw [hsecond] at hverify
    cases hverify
  | ok c =>
    rw [hsecond] at hverify
    injection hverify with hverify
    exact ⟨c, .add (Nat.le_refl 0) add_oneHash (.add (Nat.zero_le _) hsecond (.nil c)), hverify⟩

end Zif.Node
