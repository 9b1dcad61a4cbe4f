import Zif.Data.Collection
import Zif.Data.Proofs.DatabaseProofs
import Zif.Go.Proofs.SliceProofs

/-!
# Proofs: collections

`Add` appends the first hash and overwrites it when piece 0 is added again. The second piece already
goes wrong, since 32 bytes are more than two pieces: `Add` takes the branch that overwrites, beyond
the end of the list. That is a panic, or, with spare capacity, a write that the list does not show.
A hash list is therefore right exactly up to one piece.
-/

namespace Zif.Data

open Go Paging

variable {P : Prims} {grow : Nat → Nat}

@[simp] theorem Piece.length_hash (piece : Piece) : (piece.hash P).length = 32 := P.sha3_length _

namespace Collection

variable {c c' : Collection} {piece : Piece}

/-! ## One step -/

theorem add_of_lt (h : UInt64.ofNat c.hashList.len < piece.id + 1) :
    c.add P grow piece =
      .ok ⟨c.hashList.append grow 0 (piece.hash P), c.rootHash ++ piece.hash P⟩ := by
  rw [add, if_pos h]

theorem add_of_copyAt (grow : Nat → Nat) {hashList : Buffer UInt8}
    (h : ¬ UInt64.ofNat c.hashList.len < piece.id + 1)
    (hcopy : c.hashList.copyAt (piece.id * 32).toNat (piece.id * 32 + 32).toNat (piece.hash P) =
      some hashList) :
    c.add P grow piece = .ok ⟨hashList, c.rootHash ++ piece.hash P⟩ := by
  rw [add, if_neg h, hcopy]

theorem add_of_copyAt_none (grow : Nat → Nat) (h : ¬ UInt64.ofNat c.hashList.len < piece.id + 1)
    (hcopy : c.hashList.copyAt (piece.id * 32).toNat (piece.id * 32 + 32).toNat (piece.hash P) =
      none) :
    c.add P grow piece = .error .panic := by
  rw [add, if_neg h, hcopy]

/-- For the last number there is, the place in the hash list wraps around: it is to end before it begins. -/
theorem add_last (P : Prims) (grow : Nat → Nat) (c : Collection) (hid : piece.id = -1) :
    c.add P grow piece = .error .panic := by
  refine add_of_copyAt_none grow ?_ ?_
  · rw [hid, show (-1 : UInt64) + 1 = 0 from rfl]
    exact UInt64.not_lt_zero
  · rw [hid]
    exact dif_neg fun h => absurd h.1 (by decide)

/-- A piece that is overwritten leaves the length alone. -/
theorem len_add_of_not_lt (h : ¬ UInt64.ofNat c.hashList.len < piece.id + 1)
    (hadd : c.add P grow piece = .ok c') : c'.hashList.len = c.hashList.len := by
  cases hcopy : c.hashList.copyAt (piece.id * 32).toNat (piece.id * 32 + 32).toNat
      (piece.hash P) with
  | none =>
    rw [add_of_copyAt_none grow h hcopy] at hadd
    cases hadd
  | some hashList =>
    rw [add_of_copyAt grow h hcopy] at hadd
    cases hadd
    exact Buffer.len_copyAt hcopy

theorem len_add_le (hadd : c.add P grow piece = .ok c') :
    c'.hashList.len ≤ c.hashList.len + 32 := by
  by_cases h : UInt64.ofNat c.hashList.len < piece.id + 1
  · rw [add_of_lt h] at hadd
    cases hadd
    simp
  · rw [len_add_of_not_lt h hadd]
    omega

/-- The first piece is appended. -/
theorem add_new (P : Prims) (grow : Nat → Nat) (hid : piece.id = 0) :
    new.add P grow piece = .ok ⟨Buffer.empty.append grow 0 (piece.hash P), piece.hash P⟩ := by
  rw [add_of_lt]
  · rfl
  · rw [hid]
    decide

theorem len_first (grow : Nat → Nat) (piece : Piece) :
    (Buffer.empty.append grow 0 (piece.hash P)).len = 32 := by
  rw [Buffer.len_append, Piece.length_hash]
  rfl

/-- Adding piece 0 again overwrites the first hash. -/
theorem add_again (P : Prims) (grow : Nat → Nat) (hlen : 32 ≤ c.hashList.len)
    (hsmall : c.hashList.len < 2 ^ 64) (hid : piece.id = 0) :
    ∃ c', c.add P grow piece = .ok c' ∧
      c'.hashList.view = piece.hash P ++ c.hashList.view.drop 32 := by
  have hbranch : ¬ UInt64.ofNat c.hashList.len < piece.id + 1 := by
    rw [hid, UInt64.lt_iff_toNat_lt, UInt64.toNat_ofNat', Nat.mod_eq_of_lt hsmall]
    show ¬ c.hashList.len < 1
    omega
  have hlo : (piece.id * 32).toNat = 0 := by rw [hid]; decide
  have hhi : (piece.id * 32 + 32).toNat = 32 := by rw [hid]; decide
  obtain ⟨hashList, hcopy, hview⟩ := Buffer.exists_copyAt (Nat.zero_le 32) hlen
    (by simp : (piece.hash P).length = 32 - 0)
  exact ⟨_, add_of_copyAt grow hbranch (by rw [hlo, hhi]; exact hcopy), by simpa using hview⟩

theorem second_not_lt (hlen : c.hashList.len = 32) (hid : piece.id = 1) :
    ¬ UInt64.ofNat c.hashList.len < piece.id + 1 := by
  rw [hlen, hid]
  decide

/-- Without spare capacity the second piece is out of range. -/
theorem add_second_panics (P : Prims) (grow : Nat → Nat) (hlen : c.hashList.len = 32)
    (hcap : c.hashList.array.length < 64) (hid : piece.id = 1) : c.add P grow piece = .error .panic := by
  have hhi : (piece.id * 32 + 32).toNat = 64 := by rw [hid]; decide
  exact add_of_copyAt_none grow (second_not_lt hlen hid)
    (Buffer.copyAt_eq_none (by rw [hhi]; exact hcap))

/-- So it is when `append` allocates less than twice what is asked for. -/
theorem add_second_of_first (P : Prims) {p q : Piece} (hgrow : grow 32 < 64) (hq : q.id = 1) :
    Collection.add P grow ⟨Buffer.empty.append grow 0 (p.hash P), p.hash P⟩ q = .error .panic := by
  refine add_second_panics P grow (len_first grow p) ?_ hq
  simp only [Buffer.append, Buffer.empty, Buffer.view, Piece.length_hash, List.length_nil,
    List.take_nil, List.nil_append]
  rw [dif_neg (by decide)]
  simp only [List.length_append, Piece.length_hash, List.length_replicate]
  omega

theorem addAll_two_panics (P : Prims) {p q : Piece} (hgrow : grow 32 < 64) (hp : p.id = 0)
    (hq : q.id = 1) : new.addAll P grow [p, q] = .error .panic := by
  rw [addAll, List.foldlM_cons, add_new P grow hp]
  show (Collection.add P grow _ q >>= _) = _
  rw [add_second_of_first P hgrow hq]
  rfl

/-- `Rehash` feeds the whole list to the hash, when it consists of whole hashes. -/
theorem rootHash_rehash {k : Nat} (h : c.hashList.len = 32 * k) :
    c.rehash.rootHash = c.hashList.view := by
  have hk : c.hashList.len / 32 = k := by omega
  have hpages := take_eq_flatMap_page 32 c.hashList.view k
  rw [List.take_of_length_le (by rw [Buffer.length_view, h])] at hpages
  have hchunk : (fun i => (c.hashList.view.drop (i * 32)).take 32) = page 32 c.hashList.view := by
    funext i
    rw [page, Nat.mul_comm]
  rw [rehash, hk, hchunk, hpages]

/-! ## A run -/

theorem len_addAll_le {pieces : List Piece} (h : c.addAll P grow pieces = .ok c') :
    c'.hashList.len ≤ c.hashList.len + 32 * pieces.length := by
  induction pieces generalizing c with
  | nil =>
    cases h
    omega
  | cons piece pieces ih =>
    rw [addAll, List.foldlM_cons] at h
    cases hadd : c.add P grow piece with
    | error f =>
      rw [hadd] at h
      cases h
    | ok c₁ =>
      rw [hadd] at h
      have hrest := ih h
      have hstep := len_add_le hadd
      simp only [List.length_cons]
      omega

theorem InOrder.id_eq {pieces : List Piece} (h : InOrder pieces) {i : Nat}
    (hi : pieces[i]? = some piece) : piece.id.toNat = i := by
  have hget : (pieces.map fun piece => piece.id.toNat)[i]? = some piece.id.toNat := by simp [hi]
  rw [h] at hget
  have hlt := (List.getElem?_eq_some_iff.mp hget).1
  simpa using (List.getElem?_eq_some_iff.mp hget).2.symm

/-- With two pieces or more the list is too short, if it comes to a list at all: the second piece
adds nothing, and no other adds more than its own hash. -/
theorem len_addAll_lt {pieces : List Piece} (hord : InOrder pieces) (htwo : 2 ≤ pieces.length)
    (h : new.addAll P grow pieces = .ok c) : c.hashList.len < 32 * pieces.length := by
  obtain ⟨p, q, rest, rfl⟩ : ∃ p q rest, pieces = p :: q :: rest := by
    match pieces, htwo with
    | p :: q :: rest, _ => exact ⟨p, q, rest, rfl⟩
  have hp : p.id = 0 := UInt64.toNat_inj.mp (hord.id_eq (i := 0) rfl)
  have hq : q.id = 1 := UInt64.toNat_inj.mp (hord.id_eq (i := 1) rfl)
  rw [addAll, List.foldlM_cons, add_new P grow hp] at h
  have hone := len_first (P := P) grow p
  cases hadd : Collection.add P grow ⟨Buffer.empty.append grow 0 (p.hash P), p.hash P⟩ q with
  | error f =>
    change (Collection.add P grow _ q >>= _) = _ at h
    rw [hadd] at h
    cases h
  | ok c₁ =>
    change (Collection.add P grow _ q >>= _) = _ at h
    rw [hadd] at h
    have hlen := len_add_of_not_lt (second_not_lt hone hq) hadd
    have hrest : c.hashList.len ≤ c₁.hashList.len + 32 * rest.length := len_addAll_le h
    change c₁.hashList.len = (Buffer.empty.append grow 0 (p.hash P)).len at hlen
    simp only [List.length_cons]
    omega

theorem length_flatMap_hash (pieces : List Piece) :
    (pieces.flatMap (Piece.hash P)).length = 32 * pieces.length := by
  induction pieces with
  | nil => rfl
  | cons piece pieces ih =>
    rw [List.flatMap_cons, List.length_append, ih, Piece.length_hash, List.length_cons]
    omega

/-- So it is not the list of the hashes. -/
theorem view_addAll_ne {pieces : List Piece} (hord : InOrder pieces) (htwo : 2 ≤ pieces.length)
    (h : new.addAll P grow pieces = .ok c) : c.hashList.view ≠ pieces.flatMap (Piece.hash P) := by
  intro hview
  have hlt := len_addAll_lt hord htwo h
  have hlen := congrArg List.length hview
  rw [Buffer.length_view, length_flatMap_hash] at hlen
  omega

theorem not_listsHashes {pieces : List Piece} (hord : InOrder pieces) (htwo : 2 ≤ pieces.length) :
    ¬ ListsHashes P grow pieces := by
  rintro ⟨c, hc, hview, -⟩
  exact view_addAll_ne hord htwo hc hview

theorem listsHashes_nil : ListsHashes P grow [] :=
  ⟨new, rfl, rfl, fun _ h => absurd h (Nat.not_lt_zero _)⟩

theorem listsHashes_singleton (P : Prims) (grow : Nat → Nat) (hid : piece.id = 0) :
    ListsHashes P grow [piece] := by
  have hadd := add_new P grow hid
  refine ⟨_, by rw [addAll, List.foldlM_cons, hadd]; rfl, by simp, ?_⟩
  intro q hq
  have hq0 : q.id = 0 := UInt64.toNat_inj.mp (Nat.lt_one_iff.mp hq)
  have hlen := len_first (P := P) grow piece
  obtain ⟨c', hc', hview⟩ := add_again P grow
    (c := ⟨Buffer.empty.append grow 0 (piece.hash P), piece.hash P⟩) hlen.ge (by rw [hlen]; decide) hq0
  refine ⟨c', hc', ?_⟩
  rw [hview, hq0]
  simp

/-- A hash list is the list of the hashes exactly when there is at most one piece. -/
theorem addAll_listsHashes_iff (P : Prims) (grow : Nat → Nat) (pieces : List Piece)
    (hord : InOrder pieces) : ListsHashes P grow pieces ↔ pieces.length ≤ 1 := by
  constructor
  · intro h
    by_contra htwo
    exact not_listsHashes hord (by omega) h
  · intro hone
    match pieces, hord, hone with
    | [], _, _ => exact listsHashes_nil
    | [piece], hord, _ =>
      exact listsHashes_singleton P grow (UInt64.toNat_inj.mp (hord.id_eq (i := 0) rfl))

/-- A piece to which `n` posts have been added. -/
def samplePiece (id : UInt64) (n : Nat) : Piece :=
  ((List.range n).map fun i => (sampleRow i).scan).foldl (Piece.addDropping true) (Piece.setup id)

/-- The theorem at a piece of three posts, and at two pieces of three posts and two. -/
theorem addAll_listsHashes_iff_two :
    InOrder [samplePiece 0 3] ∧ ListsHashes .sample id [samplePiece 0 3] ∧
      InOrder [samplePiece 0 3, samplePiece 1 2] ∧
        ¬ ListsHashes .sample id [samplePiece 0 3, samplePiece 1 2] :=
  ⟨rfl, (addAll_listsHashes_iff .sample id [samplePiece 0 3] rfl).mpr (by decide), rfl,
    fun h => absurd ((addAll_listsHashes_iff .sample id [samplePiece 0 3, samplePiece 1 2] rfl).mp h)
      (by decide)⟩

/-! ## The running hash -/

/-- The list consists of whole hashes. The running hash has been fed the list, or, by now, `n` hashes more
than there are in the list. -/
structure Fed (c : Collection) (n : Nat) : Prop where
  whole : c.hashList.len % 32 = 0
  small : c.hashList.len < 2 ^ 63
  length : c.rootHash.length = c.hashList.len + 32 * n
  same : n = 0 → c.rootHash = c.hashList.view

variable {n : Nat}

theorem Fed.eq_view_iff (h : c.Fed n) : c.rootHash = c.hashList.view ↔ n = 0 := by
  refine ⟨fun heq => ?_, h.same⟩
  have hlen := h.length
  rw [heq, Buffer.length_view] at hlen
  omega

theorem fed_of_rootHash (hwhole : c.hashList.len % 32 = 0) (hsmall : c.hashList.len < 2 ^ 63)
    (hsame : c.rootHash = c.hashList.view) : c.Fed 0 where
  whole := hwhole
  small := hsmall
  length := by rw [hsame, Buffer.length_view, Nat.mul_zero, Nat.add_zero]
  same _ := hsame

theorem fed_rehash (hwhole : c.hashList.len % 32 = 0) (hsmall : c.hashList.len < 2 ^ 63) : c.rehash.Fed 0 :=
  fed_of_rootHash hwhole hsmall
    (rootHash_rehash (by omega : c.hashList.len = 32 * (c.hashList.len / 32)))

theorem fed_new : new.Fed 0 := fed_of_rootHash rfl (by decide) rfl

theorem Made.fed (h : c.Made) : c.Fed 0 := by
  cases h with
  | new => exact fed_new
  | load file hsmall =>
    cases file with
    | error f => exact fed_new
    | ok data =>
      rw [loadCollection]
      split_ifs with hragged
      · exact fed_new
      · exact fed_rehash (not_not.mp hragged) (hsmall data rfl)

/-- The first piece is appended. -/
theorem Fed.add_empty (h : c.Fed n) (hempty : c.hashList.len = 0) (hid : piece.id.toNat ≤ c.hashList.len / 32)
    (hadd : c.add P grow piece = .ok c') : c'.Fed n ∧ c'.hashList.len ≠ 0 := by
  have hid0 : piece.id = 0 := UInt64.toNat_inj.mp (by rw [hempty] at hid; simpa using hid)
  rw [add_of_lt (by rw [hempty, hid0]; decide)] at hadd
  cases hadd
  have hlen : (c.hashList.append grow 0 (piece.hash P)).len = 32 := by
    rw [Buffer.len_append, hempty, Piece.length_hash]
  refine ⟨⟨by rw [hlen], by rw [hlen]; decide, ?_, fun hn => ?_⟩, by rw [hlen]; decide⟩
  · have := h.length
    rw [hlen, List.length_append, Piece.length_hash]
    omega
  · rw [Buffer.view_append, h.same hn]

/-- A piece that is added to a list with hashes does not make it longer, since its id is less than the number
of bytes. -/
theorem Fed.add_over (h : c.Fed n) (hne : c.hashList.len ≠ 0) (hid : piece.id.toNat ≤ c.hashList.len / 32)
    (hadd : c.add P grow piece = .ok c') : c'.Fed (n + 1) ∧ c'.hashList.len ≠ 0 := by
  have hwhole := h.whole
  have hsmall := h.small
  have hbranch : ¬ UInt64.ofNat c.hashList.len < piece.id + 1 := by
    have hone : (1 : UInt64).toNat = 1 := rfl
    rw [UInt64.lt_iff_toNat_lt, UInt64.toNat_ofNat', UInt64.toNat_add, hone, Nat.mod_eq_of_lt (by omega),
      Nat.mod_eq_of_lt (by omega)]
    omega
  have hlen := len_add_of_not_lt hbranch hadd
  have hroot : c'.rootHash = c.rootHash ++ piece.hash P := by
    rw [add, if_neg hbranch] at hadd
    split at hadd
    · cases hadd
      rfl
    · cases hadd
  refine ⟨⟨by rw [hlen, hwhole], by rw [hlen]; exact hsmall, ?_, fun hn => absurd hn (Nat.succ_ne_zero n)⟩,
    by rw [hlen]; exact hne⟩
  have := h.length
  rw [hroot, hlen, List.length_append, Piece.length_hash]
  omega

/-- The calls feed the running hash with as many hashes too many as `overwritten` counts. -/
theorem Reaches.fed {calls : List Call} (h : Reaches P grow c calls c') (hfed : c.Fed n) :
    c'.Fed (overwritten (c.hashList.len == 0) n calls) := by
  induction h generalizing n with
  | nil c => exact hfed
  | @add c c₁ c' piece calls hid hadd _ ih =>
    rw [overwritten]
    by_cases hempty : c.hashList.len = 0
    · obtain ⟨hfed₁, hne⟩ := hfed.add_empty hempty hid hadd
      have hrest := ih hfed₁
      rw [beq_eq_false_iff_ne.mpr hne] at hrest
      rwa [beq_iff_eq.mpr hempty]
    · obtain ⟨hfed₁, hne⟩ := hfed.add_over hempty hid hadd
      have hrest := ih hfed₁
      rw [beq_eq_false_iff_ne.mpr hne] at hrest
      rwa [beq_eq_false_iff_ne.mpr hempty]
  | rehash _ ih => exact ih (fed_rehash hfed.whole hfed.small)

/-! ## The collection of a database -/

/-- The pieces of a database, without their posts. -/
def piecesOf (db : Database) : List Piece :=
  (List.range (count pieceSize db.rows.length)).map fun i => ⟨UInt64.ofNat i, [], db.pieceText i⟩

variable {db : Database}

theorem length_piecesOf (db : Database) :
    (piecesOf db).length = count pieceSize db.rows.length := by
  simp [piecesOf]

theorem flatMap_hash_piecesOf (db : Database) :
    (piecesOf db).flatMap (Piece.hash P) = db.pieceHashes P := by
  rw [piecesOf, List.flatMap_map]
  rfl

theorem inOrder_piecesOf (h : db.Numbered) : InOrder (piecesOf db) := by
  rw [InOrder, length_piecesOf, piecesOf, List.map_map]
  refine (List.map_congr_left fun i hi => ?_).trans (List.map_id _)
  have hlt := h.pieceStart_lt (List.mem_range.mp hi)
  have hle : i ≤ pieceSize * i := Nat.le_mul_of_pos_left i (by decide)
  show (UInt64.ofNat i).toNat = i
  rw [UInt64.toNat_ofNat', Nat.mod_eq_of_lt (by omega)]

/-- `CreateCollection` adds the pieces of the database one after the other. -/
theorem createCollection_eq (P : Prims) (grow : Nat → Nat) (h : db.Numbered) :
    createCollection P grow db pieceSize = new.addAll P grow (piecesOf db) := by
  have hloop : ∀ k, k ≤ count pieceSize db.rows.length →
      (List.range k).foldlM (fun c i => do
        let piece ← db.queryPiece (UInt64.ofNat i) false
        c.add P grow piece) new =
      ((List.range k).map fun i => (⟨UInt64.ofNat i, [], db.pieceText i⟩ : Piece)).foldlM
        (fun c piece => c.add P grow piece) new := by
    intro k hk
    induction k with
    | zero => rfl
    | succ k ih =>
      rw [List.range_succ, List.map_append, List.foldlM_append, List.foldlM_append, ih (by omega)]
      congr 1
      funext c
      simp only [List.map_cons, List.map_nil, List.foldlM_cons, List.foldlM_nil]
      rw [h.queryPiece (h.pieceStart_lt hk) false]
      rfl
  rw [createCollection, h.postCount]
  exact hloop _ le_rfl

/-- The collection of a database lists the hashes of its pieces exactly up to 1000 posts. -/
theorem createCollection_pieceHashes_iff (P : Prims) (grow : Nat → Nat) (h : db.Numbered) :
    (∃ c, createCollection P grow db pieceSize = .ok c ∧ c.hashList.view = db.pieceHashes P) ↔
      db.rows.length ≤ pieceSize := by
  rw [createCollection_eq P grow h, ← flatMap_hash_piecesOf, ← count_le_one_iff (by decide),
    ← length_piecesOf]
  constructor
  · rintro ⟨c, hc, hview⟩
    by_contra htwo
    exact view_addAll_ne (inOrder_piecesOf h) (by omega) hc hview
  · intro hone
    match hp : piecesOf db, hone with
    | [], _ => exact ⟨new, rfl, rfl⟩
    | [piece], _ =>
      have hord := inOrder_piecesOf h
      rw [hp] at hord
      obtain ⟨c, hc, hview, -⟩ := listsHashes_singleton P grow
        (UInt64.toNat_inj.mp (hord.id_eq (i := 0) rfl))
      exact ⟨c, hc, hview⟩

/-- The hash of piece `i`, as `QueryPiece` returns it. -/
def queriedHash (P : Prims) (db : Database) (i : Nat) : Bytes :=
  P.sha3 ((db.queriedRows (UInt64.ofNat i)).flatMap fun r => Piece.textOf r.scan)

theorem queryPiece_hash (P : Prims) (db : Database) (i : Nat) (store : Bool) :
    ∃ piece, db.queryPiece (UInt64.ofNat i) store = .ok piece ∧ piece.id = UInt64.ofNat i ∧
      piece.hash P = queriedHash P db i :=
  ⟨_, Database.queryPiece_eq db _ store, rfl, rfl⟩

/-- With at most one piece, whatever the ids are, the collection lists its hash. -/
theorem createCollection_of_le (P : Prims) (grow : Nat → Nat) (hle : db.postCount ≤ pieceSize) :
    ∃ c, createCollection P grow db pieceSize = .ok c ∧ c.hashList.view =
      (List.range (count pieceSize db.postCount)).flatMap (queriedHash P db) := by
  have hcount := (count_le_one_iff (by decide) _).mpr hle
  unfold createCollection
  match hk : count pieceSize db.postCount, hcount with
  | 0, _ => exact ⟨new, rfl, rfl⟩
  | 1, _ =>
    obtain ⟨piece, hpiece, hid, hhash⟩ := queryPiece_hash P db 0 false
    refine ⟨⟨Buffer.empty.append grow 0 (piece.hash P), piece.hash P⟩, ?_, ?_⟩
    · show (do
        let piece ← db.queryPiece (UInt64.ofNat 0) false
        new.add P grow piece) >>= pure = _
      rw [hpiece]
      show new.add P grow piece >>= pure = _
      rw [add_new P grow hid]
      rfl
    · simp [hhash]

/-- With more the second piece is out of range, when `append` allocates less than twice what is asked
for. -/
theorem createCollection_panics (P : Prims) (hgrow : grow 32 < 64) (hlt : pieceSize < db.postCount) :
    createCollection P grow db pieceSize = .error .panic := by
  have htwo := (lt_count_iff (by decide) db.postCount 1).mpr (by omega : pieceSize * 1 < db.postCount)
  obtain ⟨k, hk⟩ : ∃ k, count pieceSize db.postCount = k + 2 :=
    ⟨count pieceSize db.postCount - 2, by omega⟩
  obtain ⟨p, hp, hpid, -⟩ := queryPiece_hash P db 0 false
  obtain ⟨q, hq, hqid, -⟩ := queryPiece_hash P db 1 false
  have hrange : List.range (k + 2) = 0 :: 1 :: (List.range k).map (· + 2) := by
    simp [List.range_succ_eq_map]
  unfold createCollection
  rw [hk, hrange, List.foldlM_cons, hp]
  show (new.add P grow p >>= _) = _
  rw [add_new P grow hpid]
  simp only [bind, Except.bind]
  rw [List.foldlM_cons, hq]
  show (Collection.add P grow _ q >>= _) = _
  rw [add_second_of_first P hgrow hqid]
  rfl

/-- The collection of 1001 posts has two pieces, and making it panics: `append` has allocated the 32
bytes of the first hash, and the second is written to bytes 32 to 63. -/
theorem second_piece_out_of_range :
    (sampleDatabase 1001).Numbered ∧ InOrder (piecesOf (sampleDatabase 1001)) ∧
      createCollection .sample id (sampleDatabase 1001) pieceSize = .error .panic ∧
      ¬ ListsHashes .sample id (piecesOf (sampleDatabase 1001)) := by
  have hnum : (sampleDatabase 1001).Numbered := numbered_sampleDatabase (n := 1001) (by norm_num)
  have hcount : count pieceSize (sampleDatabase 1001).rows.length = 2 := by
    rw [length_sampleDatabase]
    decide
  refine ⟨hnum, inOrder_piecesOf hnum, ?_,
    not_listsHashes (inOrder_piecesOf hnum) (by rw [length_piecesOf, hcount])⟩
  rw [createCollection_eq _ _ hnum, piecesOf, hcount]
  exact addAll_two_panics .sample (by decide) rfl rfl

end Collection

end Zif.Data
