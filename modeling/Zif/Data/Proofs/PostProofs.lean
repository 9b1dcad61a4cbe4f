import Zif.Data.Post
import Zif.Go.Proofs.DecimalProofs
import Zif.Lib.Proofs.DelimitedProofs

/-!
# Proofs: what the text of a post says

The text of a post that goes into the hash of its piece is eight delimited fields, so the texts of a
list of posts are the fields of all of them. Posts without the separator in their texts are determined
by them. Any other post can be written as a different one: the separator that belongs to a text is
taken for the end of it, and the rest of the text is moved into the next.
-/

namespace Zif.Data

open Go Delimited

variable {p q : Post} {xs ys : List Post}

theorem bar_not_mem_itoa (n : Int) : bar ∉ itoa n := not_mem_itoa (by decide) (by decide) n

theorem itoa_inj {m n : Int64} (h : itoa m.toInt = itoa n.toInt) : m = n := by
  have hread := congrArg atoi h
  rw [atoi_itoa, atoi_itoa] at hread
  exact Option.some.inj hread

/-- A sequence of bytes around a separator. -/
theorem exists_split {text : Bytes} (h : bar ∈ text) : ∃ a b, text = a ++ bar :: b :=
  List.append_of_mem h

namespace Post

/-- The fields that are hashed. -/
def fields (p : Post) : List Bytes :=
  [itoa p.id.toInt, p.infoHash, p.title, itoa p.size.toInt, itoa p.fileCount.toInt,
    itoa p.uploadDate.toInt, p.tags, p.metadata]

@[simp] theorem length_fields (p : Post) : p.fields.length = 8 := by simp [fields]

theorem textOf_eq_joined (p : Post) : Piece.textOf p = joined bar p.fields := by
  unfold Piece.textOf Post.write fields
  simp

theorem plain_iff :
    p.Plain ↔ bar ∉ p.infoHash ∧ bar ∉ p.title ∧ bar ∉ p.tags ∧ bar ∉ p.metadata := by
  simp [Plain, texts]

theorem clean_fields_iff : Clean bar p.fields ↔ p.Plain := by
  simp [Clean, fields, plain_iff, bar_not_mem_itoa]

theorem fields_inj_iff : p.fields = q.fields ↔ p.SameData q := by
  constructor
  · intro h
    simp only [fields, List.cons.injEq, and_true] at h
    obtain ⟨hid, hhash, htitle, hsize, hcount, hdate, htags, hmeta⟩ := h
    exact ⟨itoa_inj hid, hhash, htitle, itoa_inj hsize, itoa_inj hcount, itoa_inj hdate, htags, hmeta⟩
  · rintro ⟨hid, hhash, htitle, hsize, hcount, hdate, htags, hmeta⟩
    simp only [fields, hid, hhash, htitle, hsize, hcount, hdate, htags, hmeta]

/-- A post with a separator in a text is written like another one. -/
theorem exists_other_of_not_plain (h : ¬ p.Plain) :
    ∃ q, Piece.textOf q = Piece.textOf p ∧ ¬ p.SameData q := by
  have hbar : bar ∈ p.infoHash ∨ bar ∈ p.title ∨ bar ∈ p.tags ∨ bar ∈ p.metadata := by
    rw [plain_iff] at h
    tauto
  rcases hbar with hmem | hmem | hmem | hmem
  · obtain ⟨a, b, htext⟩ := exists_split hmem
    refine ⟨{ p with infoHash := a, title := b ++ bar :: p.title }, ?_, ?_⟩
    · simp [textOf_eq_joined, fields, htext]
    · rintro ⟨-, hhash, -⟩
      simp [htext] at hhash
  · obtain ⟨a, b, htext⟩ := exists_split hmem
    refine ⟨{ p with infoHash := p.infoHash ++ bar :: a, title := b }, ?_, ?_⟩
    · simp [textOf_eq_joined, fields, htext]
    · rintro ⟨-, hhash, -⟩
      simp at hhash
  · obtain ⟨a, b, htext⟩ := exists_split hmem
    refine ⟨{ p with tags := a, metadata := b ++ bar :: p.metadata }, ?_, ?_⟩
    · simp [textOf_eq_joined, fields, htext]
    · rintro ⟨-, -, -, -, -, -, htags, -⟩
      simp [htext] at htags
  · obtain ⟨a, b, htext⟩ := exists_split hmem
    refine ⟨{ p with tags := p.tags ++ bar :: a, metadata := b }, ?_, ?_⟩
    · simp [textOf_eq_joined, fields, htext]
    · rintro ⟨-, -, -, -, -, -, htags, -⟩
      simp at htags

end Post

/-! ## The text of a piece -/

theorem flatMap_textOf_eq_joined (xs : List Post) :
    xs.flatMap Piece.textOf = joined bar (xs.flatMap Post.fields) := by
  rw [← joined_flatMap]
  exact congrArg (xs.flatMap ·) (funext Post.textOf_eq_joined)

theorem length_flatMap_fields (xs : List Post) : (xs.flatMap Post.fields).length = 8 * xs.length := by
  simp [List.length_flatMap, Nat.mul_comm]

theorem clean_flatMap_fields (h : ∀ p ∈ xs, p.Plain) : Clean bar (xs.flatMap Post.fields) := by
  intro field hfield
  obtain ⟨p, hp, hmem⟩ := List.mem_flatMap.mp hfield
  exact Post.clean_fields_iff.mpr (h p hp) field hmem

theorem sameData_of_fields (h : xs.flatMap Post.fields = ys.flatMap Post.fields) :
    List.Forall₂ Post.SameData xs ys := by
  induction xs generalizing ys with
  | nil =>
    cases ys with
    | nil => exact .nil
    | cons y ys => simp [Post.fields] at h
  | cons x xs ih =>
    cases ys with
    | nil => simp [Post.fields] at h
    | cons y ys =>
      rw [List.flatMap_cons, List.flatMap_cons] at h
      obtain ⟨hx, hxs⟩ := List.append_inj h (by rw [Post.length_fields, Post.length_fields])
      exact .cons (Post.fields_inj_iff.mp hx) (ih hxs)

/-- The texts of plain posts are not those of other posts, unless these are fewer. -/
theorem sameData_of_text (h : ∀ p ∈ xs, p.Plain) (hlen : xs.length ≤ ys.length)
    (heq : xs.flatMap Piece.textOf = ys.flatMap Piece.textOf) : List.Forall₂ Post.SameData xs ys := by
  rw [flatMap_textOf_eq_joined, flatMap_textOf_eq_joined] at heq
  refine sameData_of_fields ((clean_flatMap_fields h).of_joined_eq ?_ heq)
  rw [length_flatMap_fields, length_flatMap_fields]
  omega

theorem Post.SameData.symm (h : p.SameData q) : q.SameData p := by
  obtain ⟨hid, hhash, htitle, hsize, hcount, hdate, htags, hmeta⟩ := h
  exact ⟨hid.symm, hhash.symm, htitle.symm, hsize.symm, hcount.symm, hdate.symm, htags.symm, hmeta.symm⟩

/-- Two lists of plain posts with one text have the same data. -/
theorem sameData_of_plain (hxs : ∀ p ∈ xs, p.Plain) (hys : ∀ p ∈ ys, p.Plain)
    (heq : xs.flatMap Piece.textOf = ys.flatMap Piece.textOf) : List.Forall₂ Post.SameData xs ys := by
  rcases Nat.le_total xs.length ys.length with hle | hle
  · exact sameData_of_text hxs hle heq
  · exact (sameData_of_text hys hle heq.symm).flip.imp fun _ _ h => Post.SameData.symm h

/-- With a post that is not plain among them, others can be written in the place of the posts. -/
theorem exists_others_of_not_plain (hp : p ∈ xs) (h : ¬ p.Plain) :
    ∃ ys, xs.length = ys.length ∧ xs.flatMap Piece.textOf = ys.flatMap Piece.textOf ∧
      ¬ List.Forall₂ Post.SameData xs ys := by
  obtain ⟨q, htext, hdiff⟩ := Post.exists_other_of_not_plain h
  obtain ⟨before, after, rfl⟩ := List.append_of_mem hp
  refine ⟨before ++ q :: after, by simp, by simp [htext], ?_⟩
  intro hsame
  have hget := hsame.get (i := before.length) (by simp) (by simp)
  exact hdiff (by simpa using hget)

namespace Piece

variable {piece piece' : Piece} {post : Post}

theorem filled_setup (id : UInt64) : (setup id).Filled := rfl

theorem Filled.addDropping (h : piece.Filled) (post : Post) : (piece.addDropping true post).Filled := by
  rw [Piece.addDropping, add]
  by_cases hfull : piece.posts.length > pieceSize
  · rwa [if_pos hfull]
  · rw [if_neg hfull]
    show piece.written ++ textOf post = (piece.posts ++ [post]).flatMap textOf
    rw [h, List.flatMap_append]
    simp

end Piece

/-- The text of a piece determines its posts, up to the counts, exactly when they are plain. So do, of
plain posts, the hashes of two pieces that do not collide. -/
theorem pieceText_determines_posts_iff (P : Prims) (xs : List Post) :
    ((∀ ys : List Post, xs.length ≤ ys.length →
        xs.flatMap Piece.textOf = ys.flatMap Piece.textOf → List.Forall₂ Post.SameData xs ys) ↔
      ∀ p ∈ xs, p.Plain) ∧
    ∀ piece piece' : Piece, piece.Filled → piece'.Filled → piece.posts = xs →
      (∀ p ∈ xs, p.Plain) → (∀ p ∈ piece'.posts, p.Plain) →
      (piece.hash P = piece'.hash P → piece.written = piece'.written) →
      piece.hash P = piece'.hash P → List.Forall₂ Post.SameData xs piece'.posts := by
  refine ⟨⟨fun hpins p hp => ?_, fun hplain ys hlen heq => sameData_of_text hplain hlen heq⟩, ?_⟩
  · by_contra hbar
    obtain ⟨ys, hlen, htext, hdiff⟩ := exists_others_of_not_plain hp hbar
    exact hdiff (hpins ys hlen.le htext)
  · intro piece piece' hfilled hfilled' hposts hxs hys hcollision hhash
    have hwritten := hcollision hhash
    rw [hfilled, hfilled', hposts] at hwritten
    exact sameData_of_plain hxs hys hwritten

/-- The info hash `a|b` with the title `c` is written like the info hash `a` with the title `b|c`. -/
theorem moved_separator_same_text :
    let post := fun infoHash title : Bytes =>
      (⟨1, infoHash, title, 0, 0, 0, 0, 0, [], []⟩ : Post)
    let xs := [post [97, 124, 98] [99]]
    let ys := [post [97] [98, 124, 99]]
    xs.flatMap Piece.textOf = ys.flatMap Piece.textOf ∧ ¬ List.Forall₂ Post.SameData xs ys := by
  refine ⟨by decide +kernel, ?_⟩
  rintro (_ | ⟨hsame, -⟩)
  exact absurd hsame.2.1 (by decide)

end Zif.Data
