import Zif.Data.Proofs.HistoryProofs
import Zif.Go.Proofs.DecimalProofs

/-!
# Proofs: queries

`QueryPiecePosts` starts where the first of its pieces starts, and is for as many posts as the pieces have
and `start` more. So a range is its pieces exactly when it starts at piece 0, or there are no posts behind it
(`queryPiecePosts_pieces_iff`).

A post that is stored is found under the id that was returned, with its texts as the columns give them back.
A text that is well-formed for a number comes back as that number is written, and two such texts for one
number count as one info hash (`insertPost_texts_iff`).
-/

namespace Zif

open Go

variable {P : Prims} {s t : Bytes}

/-! ## Texts in columns -/

/-- Texts that are read back as they are differ in the column, too. -/
theorem Prims.ReadsBack.store_inj (hs : P.ReadsBack s) (ht : P.ReadsBack t) (h : P.store s = P.store t) :
    s = t := by
  rw [← hs, h, ht]

/-- Different texts are alike in a column when they are well-formed for one number. -/
theorem Prims.store_eq_iff (hne : s ≠ t) : P.store s = P.store t ↔ P.SameNumber s t := by
  unfold Prims.store Prims.SameNumber
  cases P.number s <;> cases P.number t <;> simp [hne, eq_comm]

/-- An instance of `Prims` in which whole numbers are well-formed. -/
def Prims.sampleNumeric : Prims :=
  { Prims.sample with
    number := fun s => (atoi s).map fun n => itoa n.toInt
    number_plain := by
      rintro s ⟨b, hb, hplain⟩
      have hdigits : ∀ t : Bytes, b ∈ t → digitsVal t = none := by
        intro t ht
        rw [digitsVal, if_pos]
        have hdigit : isDigit b = false := by
          simp only [numericByte, Bool.or_eq_false_iff] at hplain
          exact hplain.1.1.1.1.1.1.1
        simp only [Bool.or_eq_true, Bool.not_eq_true', List.all_eq_false]
        exact .inr ⟨b, ht, by simp [hdigit]⟩
      have hsign : ∀ {c : UInt8} {t : Bytes}, s = c :: t → numericByte c = true → digitsVal t = none := by
        intro c t heq hc
        rw [heq] at hb
        rcases List.mem_cons.mp hb with rfl | hb
        · rw [hplain] at hc
          cases hc
        · exact hdigits t hb
      rw [Option.map_eq_none_iff]
      unfold atoi
      split
      · rw [hsign rfl (by decide)]
        rfl
      · rw [hsign rfl (by decide)]
        rfl
      · rw [hdigits s hb]
        rfl }

namespace Data.Database

open Paging

variable {db : Database}

/-! ## Ranges of pieces -/

theorem Numbered.flatMap_range (h : db.Numbered) (s l : Nat) :
    ((List.range l).map fun i => (⟨UInt64.ofNat (s + i), (db.pieceRows (s + i)).map Row.scan,
      db.pieceText (s + i)⟩ : Piece)).flatMap Piece.posts =
        ((db.rows.drop (pieceSize * s)).take (pieceSize * l)).map Row.scan := by
  rw [← take_eq_flatMap_page, List.flatMap_map, List.map_flatMap]
  refine List.flatMap_congr fun i _ => ?_
  rw [h.pieceRows, page_drop_mul]

/-- Asking for `s` more than `n` elements makes no difference when that is none, or there are no more. -/
theorem take_add_eq_take_iff {α : Type} (xs : List α) (s n : Nat) :
    xs.take (s + n) = xs.take n ↔ s = 0 ∨ xs.length ≤ n := by
  constructor
  · intro heq
    have hlen := congrArg List.length heq
    rw [List.length_take, List.length_take] at hlen
    omega
  · rintro (rfl | hle)
    · rw [Nat.zero_add]
    · rw [List.take_of_length_le hle, List.take_of_length_le (by omega)]

theorem Numbered.rangeIsPieces_iff (h : db.Numbered) {start length : Int64} {s l : Nat}
    (hs : start.toInt = s) (hl : length.toInt = l) (hend : pieceSize * (s + l) < 2 ^ 63) :
    db.RangeIsPieces start length ↔ s = 0 ∨ db.rows.length ≤ pieceSize * (s + l) := by
  have hsize : pieceSize = 1000 := rfl
  rw [hsize] at hend
  have hposts := h.queryPiecePosts hs hl (by rw [hsize]; omega) (by rw [hsize]; omega)
  have hpieces := h.mapM_queryPiece_of_lt (List.range l) (s + ·) fun i hi => by
    have := List.mem_range.mp hi
    rw [hsize]
    omega
  have hrange : db.RangeIsPieces start length ↔
      ((db.rows.drop (pieceSize * s)).map Row.scan).take (s + pieceSize * l) =
        ((db.rows.drop (pieceSize * s)).map Row.scan).take (pieceSize * l) := by
    rw [RangeIsPieces, hs, hl, Int.toNat_natCast, Int.toNat_natCast, hpieces, hposts,
      ← List.map_take, ← List.map_take, ← h.flatMap_range]
    constructor
    · rintro ⟨pieces, heq, hall⟩
      cases heq
      exact hall
    · exact fun hall => ⟨_, rfl, hall⟩
  rw [hrange, take_add_eq_take_iff, List.length_map, List.length_drop, hsize]
  omega

/-- **Ranges of pieces.** A range of posts is the posts of its pieces exactly when it starts at the first
piece, or no posts come after it. -/
theorem queryPiecePosts_pieces_iff (h : db.Numbered) {start length : Int64} (hstart : 0 ≤ start.toInt)
    (hlength : 0 ≤ length.toInt) (hend : pieceSize * (start.toInt + length.toInt) < 2 ^ 63) :
    db.RangeIsPieces start length ↔
      start = 0 ∨ (db.rows.length : Int) ≤ pieceSize * (start.toInt + length.toInt) := by
  obtain ⟨s, hs⟩ := Int.eq_ofNat_of_zero_le hstart
  obtain ⟨l, hl⟩ := Int.eq_ofNat_of_zero_le hlength
  have hzero : start = 0 ↔ s = 0 := by
    rw [← Int64.toInt_inj, hs]
    simp
  rw [hs, hl] at hend ⊢
  have hsize : pieceSize = 1000 := rfl
  rw [hsize] at hend ⊢
  rw [h.rangeIsPieces_iff hs hl (by rw [hsize]; omega), hzero, hsize]
  omega

/-- The first piece of a database with two posts. -/
theorem queryPiecePosts_pieces_iff_first : (sampleDatabase 2).RangeIsPieces 0 1 :=
  (queryPiecePosts_pieces_iff (numbered_sampleDatabase (by norm_num)) (by decide) (by decide)
    (by decide)).mpr (.inl rfl)

/-- Piece 1 of 2001 posts has 1000 of them, and the range of this one piece has 1001. -/
theorem range_beyond_its_pieces :
    (sampleDatabase 2001).Numbered ∧ ((sampleDatabase 2001).queryPiecePosts 1 1).length = 1001 ∧
      ¬ (sampleDatabase 2001).RangeIsPieces 1 1 := by
  have hnum : (sampleDatabase 2001).Numbered := numbered_sampleDatabase (by norm_num)
  refine ⟨hnum, ?_, fun h => ?_⟩
  · rw [hnum.queryPiecePosts (s := 1) (l := 1) rfl rfl (by decide) (by decide)]
    simp only [List.length_map, List.length_take, List.length_drop, length_sampleDatabase]
    rfl
  · rw [hnum.rangeIsPieces_iff (s := 1) (l := 1) rfl rfl (by decide), length_sampleDatabase] at h
    revert h
    decide

/-! ## Posts by their id -/

theorem Ascending.le_postCount (h : db.Ascending) {r : Row} (hr : r ∈ db.rows) :
    r.id.toInt ≤ db.postCount := by
  obtain ⟨init, last, hrows⟩ : ∃ init last, db.rows = init ++ [last] :=
    ⟨_, _, (List.dropLast_append_getLast (List.ne_nil_of_mem hr)).symm⟩
  have hlt := h.lt
  have hlast := h.pos last (by simp [hrows])
  have hcount : db.postCount = last.id.toInt.toNat := by
    simp [postCount, hrows]
  rw [hrows] at hr hlt
  rw [hcount]
  rcases List.mem_append.mp hr with hr | hr
  · have := (List.pairwise_append.mp hlt).2.2 r hr last (by simp)
    omega
  · obtain rfl := List.mem_singleton.mp hr
    omega

theorem Ascending.nextId (h : db.Ascending) : db.nextId = Int64.ofNat (db.postCount + 1) := by
  cases hlast : db.rows.getLast? with
  | none => simp [Database.nextId, postCount, hlast]
  | some r =>
    have hpos := h.pos r (List.mem_of_getLast? hlast)
    have hcount : db.postCount = r.id.toInt.toNat := by rw [postCount, hlast]
    have hnext : db.nextId = r.id + 1 := by rw [Database.nextId, hlast]
    rw [hnext, hcount, Int64.ofNat_add]
    congr 1
    apply Int64.toInt_inj.mp
    have hlt := r.id.toInt_lt
    rw [Int64.toInt_ofNat_of_lt (by omega)]
    omega

theorem Numbered.ascending (h : db.Numbered) (hn : db.rows.length + 1 < 2 ^ 63) : db.Ascending where
  pos r hr := Paging.Numbered.lt_key h hr
  lt := by
    refine List.pairwise_iff_getElem.mpr fun i j hi hj hij => ?_
    rw [Paging.Numbered.key_getElem h hi, Paging.Numbered.key_getElem h hj]
    omega
  next := by rwa [h.postCount]

/-- The row that was inserted last is the one with its id. -/
theorem Ascending.queryPostId_insert (h : db.Ascending) {post : Post}
    (hnew : ∀ r ∈ db.rows, r.infoHash ≠ P.store post.infoHash) :
    (db.insertPost P post none).1.queryPostId (db.insertPost P post none).2.1.toUInt64 =
      .ok (post.toRow P db.nextId).scan := by
  have hinsert := insert_of_not_mem hnew
  have hold : db.rows.filter (fun r => r.id = db.nextId) = [] := by
    refine List.filter_eq_nil_iff.mpr fun r hr => ?_
    have hle := h.le_postCount hr
    have hlt := h.next
    simp only [decide_eq_true_eq]
    intro heq
    rw [heq, h.nextId, Int64.toInt_ofNat_of_lt hlt] at hle
    omega
  show (db.insert P post).queryPostId (db.insert P post).lastInsertId.toUInt64 = _
  rw [hinsert, queryPostId, Int64.toInt64_toUInt64, List.filter_append, hold]
  simp [Post.toRow]

theorem texts_scan_toRow (post : Post) (id : Int64) :
    (post.toRow P id).scan.texts = post.texts.map fun text => (P.store text).load := rfl

theorem keepsTexts_iff (h : db.Ascending) {post : Post}
    (hnew : ∀ r ∈ db.rows, r.infoHash ≠ P.store post.infoHash) :
    db.KeepsTexts P post ↔ ∀ text ∈ post.texts, P.ReadsBack text := by
  rw [KeepsTexts, h.queryPostId_insert hnew]
  constructor
  · rintro ⟨p, heq, htexts⟩
    cases heq
    rw [texts_scan_toRow, ← List.map_id post.texts, List.map_map, List.map_inj_left] at htexts
    exact htexts
  · intro hall
    exact ⟨_, rfl, (List.map_congr_left hall).trans (List.map_id _)⟩

/-- A post that is accepted is in no row yet. -/
theorem insertPost_new_iff (P : Prims) (db : Database) (post : Post) :
    (db.insertPost P post none).1.rows.length = db.rows.length + 1 ↔
      ∀ r ∈ db.rows, r.infoHash ≠ P.store post.infoHash := by
  show (db.insert P post).rows.length = _ ↔ _
  constructor
  · intro hlen r hr heq
    rw [insert_of_mem ⟨r, hr, heq⟩] at hlen
    omega
  · intro hnew
    rw [insert_of_not_mem hnew]
    simp

/-- **Texts of posts.** A post that is accepted as a new row is found under its id with the same texts, and
another post with a different info hash is no duplicate of it, exactly when its texts are read back as they
are and the two info hashes are not well-formed for one number. -/
theorem insertPost_texts_iff (P : Prims) {db : Database} (h : db.Ascending) {p q : Post}
    (hp : (db.insertPost P p none).1.rows.length = db.rows.length + 1)
    (hq : (db.insertPost P q none).1.rows.length = db.rows.length + 1) (hne : p.infoHash ≠ q.infoHash) :
    (db.KeepsTexts P p ∧
        ((db.insertPost P p none).1.insertPost P q none).1.rows.length = db.rows.length + 2) ↔
      (∀ text ∈ p.texts, P.ReadsBack text) ∧ ¬ P.SameNumber p.infoHash q.infoHash := by
  have hnewq := (insertPost_new_iff P db q).mp hq
  have hrows : (db.insertPost P p none).1.rows = db.rows ++ [p.toRow P db.nextId] :=
    congrArg Database.rows (insert_of_not_mem ((insertPost_new_iff P db p).mp hp))
  have hsecond := insertPost_new_iff P (db.insertPost P p none).1 q
  rw [hp, hrows] at hsecond
  rw [keepsTexts_iff h ((insertPost_new_iff P db p).mp hp), hsecond, ← Prims.store_eq_iff hne]
  refine and_congr_right fun _ => ⟨fun hall => hall (p.toRow P db.nextId) (by simp), fun hdiff r hr => ?_⟩
  rcases List.mem_append.mp hr with hr | hr
  · exact hnewq r hr
  · obtain rfl := List.mem_singleton.mp hr
    exact hdiff

theorem ascending_new : new.Ascending := numbered_new.ascending (by decide)

/-- The theorem at two posts with letters for info hashes. -/
theorem insertPost_texts_sample : new.KeepsTexts .sample (sampleRow 0).scan :=
  ((insertPost_texts_iff .sample ascending_new (p := (sampleRow 0).scan) (q := (sampleRow 1).scan) (by decide)
    (by decide) (by decide)).mpr ⟨by decide, by rintro ⟨c, hc, -⟩; cases hc⟩).1

/-- A post without title and tags. -/
def samplePost (infoHash : Bytes) : Post := { Post.zero with infoHash }

/-- The info hash `007` is stored as the number 7 and read back as `7`; and a post with the info hash `7` is
taken for a duplicate. -/
theorem number_read_back_differently :
    let inserted := new.insertPost .sampleNumeric (samplePost [48, 48, 55]) none
    inserted.1.rows.length = 1 ∧ inserted.2.2 = none ∧
      inserted.1.queryPostId inserted.2.1.toUInt64 = .ok { samplePost [55] with id := 1 } ∧
      (inserted.1.insertPost .sampleNumeric (samplePost [55]) none).1 = inserted.1 := by
  decide +kernel

end Data.Database

end Zif
