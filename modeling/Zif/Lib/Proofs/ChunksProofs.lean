import Zif.Lib.Proofs.BufferedProofs
import Zif.Lib.Proofs.DecodingProofs

/-!
# Proofs: a buffer delivers what arrives

Through the buffer a decoder gets all that it would get from the list, however the list is cut into pieces
(`run_complete`). No piece is empty, since a read that gives nothing is the end of the stream, and as much
may be taken from the stream as is needed.
-/

namespace Buffered.Reader

variable {β α : Type} {size k : Nat} {r : Reader β} {rest : List β}

/-- No piece is empty. -/
def Solid (r : Reader β) : Prop := ∀ c ∈ r.src, c ≠ []

/-- How much can still be read. -/
def allowed (r : Reader β) : Nat := r.buf.length + r.left

theorem Solid.fetch (h : r.Solid) (k : Nat) : (r.fetch k).2.Solid := by
  cases hsrc : r.src with
  | nil =>
    rw [fetch_nil hsrc]
    exact h
  | cons c cs =>
    rw [fetch_cons hsrc]
    have hcs : ∀ d ∈ cs, d ≠ [] := fun d hd => h d (hsrc ▸ .tail c hd)
    intro d hd
    simp only at hd
    split_ifs at hd with hc
    · exact hcs d hd
    · rcases List.mem_cons.mp hd with rfl | hd
      · exact List.drop_eq_nil_iff.not.mpr hc
      · exact hcs d hd

/-- A read gives something when there is something, and it may be taken. -/
theorem Solid.fetch_ne_nil (h : r.Solid) (hsrc : r.src ≠ []) (hk : 0 < k) (hleft : 0 < r.left) :
    (r.fetch k).1 ≠ [] := by
  obtain ⟨c, cs, hcons⟩ := List.exists_cons_of_ne_nil hsrc
  have hc : c ≠ [] := h c (hcons ▸ .head cs)
  rw [fetch_cons hcons]
  intro hnil
  rcases List.take_eq_nil_iff.mp hnil with hzero | hzero
  · omega
  · exact hc hzero

theorem Solid.fill (h : r.Solid) : (r.fill size).Solid := by
  by_cases hbuf : r.buf = []
  · rw [fill_of_nil hbuf]
    exact h.fetch size
  · rwa [fill_eq_self hbuf]

theorem allowed_fill (size : Nat) (r : Reader β) : (r.fill size).allowed = r.allowed := by
  by_cases hbuf : r.buf = []
  · rw [fill_of_nil hbuf, allowed, allowed, hbuf]
    have hleft := fetch_left r size
    simp only [List.length_nil]
    omega
  · rw [fill_eq_self hbuf]

theorem Solid.fill_ne_nil (h : r.Solid) (hsize : 0 < size) (hall : r.all ≠ []) (hpos : 0 < r.allowed) :
    (r.fill size).buf ≠ [] := by
  by_cases hbuf : r.buf = []
  · rw [allowed, hbuf, List.length_nil, Nat.zero_add] at hpos
    rw [fill_of_nil hbuf]
    refine h.fetch_ne_nil (fun hsrc => hall ?_) hsize hpos
    rw [all, hbuf, hsrc]
    rfl
  · rwa [fill_eq_self hbuf]

/-- The first element is in the buffer when it has been filled. -/
theorem Solid.fill_cons {b : β} {bs : List β} (h : r.Solid) (hsize : 0 < size) (hall : r.all = b :: bs)
    (hpos : 0 < r.allowed) :
    ∃ buf, (r.fill size).buf = b :: buf ∧ buf ++ (r.fill size).src.flatten = bs := by
  obtain ⟨b', buf, hbuf⟩ := List.exists_cons_of_ne_nil
    (h.fill_ne_nil hsize (hall ▸ List.cons_ne_nil b bs) hpos)
  have hfill := fill_all size r
  rw [hall, all, hbuf, List.cons_append] at hfill
  injection hfill with hb hbs
  exact ⟨buf, hb ▸ hbuf, hbs⟩

/-- What a read leaves. -/
structure ReadSome (size : Nat) (r : Reader β) (k : Nat) : Prop where
  ne_nil : (r.read size k).1 ≠ []
  solid : (r.read size k).2.Solid
  allowed : (r.read size k).1.length + (r.read size k).2.allowed = r.allowed

theorem Solid.read (h : r.Solid) (hsize : 0 < size) (hk : 0 < k) (hall : r.all ≠ [])
    (hpos : 0 < r.allowed) : ReadSome size r k := by
  rcases read_cases size r k with ⟨hbuf, -, heq⟩ | ⟨-, heq⟩
  · have hallowed : r.allowed = r.left := by rw [Reader.allowed, hbuf, List.length_nil, Nat.zero_add]
    refine ⟨?_, ?_, ?_⟩
    · rw [heq]
      refine h.fetch_ne_nil (fun hsrc => hall ?_) hk (hallowed ▸ hpos)
      rw [all, hbuf, hsrc]
      rfl
    · rw [heq]
      exact h.fetch k
    · have hleft := fetch_left r k
      rw [heq, hallowed, Reader.allowed, fetch_buf, hbuf, List.length_nil]
      omega
  · refine ⟨?_, ?_, ?_⟩
    · rw [heq]
      intro hnil
      rcases List.take_eq_nil_iff.mp hnil with hzero | hzero
      · omega
      · exact h.fill_ne_nil hsize hall hpos hzero
    · rw [heq]
      exact h.fill
    · have hlen : ((r.fill size).take k).1.length + ((r.fill size).take k).2.buf.length =
          (r.fill size).buf.length := by
        rw [← List.length_append]
        exact congrArg List.length (List.take_append_drop k _)
      have hleft : ((r.fill size).take k).2.left = (r.fill size).left := rfl
      rw [heq, ← allowed_fill size r, Reader.allowed, Reader.allowed]
      omega

/-- As many elements as there are, and as may be taken, are read. -/
theorem readLoop_complete {fuel : Nat} (h : r.Solid) (hsize : 0 < size) (hfuel : k ≤ fuel)
    (hall : k ≤ r.all.length) (hk : k ≤ r.allowed) :
    ∃ r', readLoop size fuel r k = (some (r.all.take k), r') ∧ r'.Solid ∧ k + r'.allowed = r.allowed := by
  induction fuel generalizing r k with
  | zero =>
    obtain rfl : k = 0 := by omega
    exact ⟨r, rfl, h, Nat.zero_add _⟩
  | succ fuel ih =>
    cases k with
    | zero => exact ⟨r, by rw [readLoop.eq_def]; rfl, h, Nat.zero_add _⟩
    | succ k =>
      have hne : r.all ≠ [] := List.ne_nil_of_length_pos (by omega)
      have hread : ReadSome size r (k + 1) := h.read hsize k.succ_pos hne (by omega)
      have hempty : (r.read size (k + 1)).1.isEmpty = false := by simpa using hread.ne_nil
      have hpos : 0 < (r.read size (k + 1)).1.length := List.length_pos_of_ne_nil hread.ne_nil
      have hle := length_read_le size r (k + 1)
      have hsplit : (r.read size (k + 1)).1 ++ (r.read size (k + 1)).2.all = r.all := read_all r (k + 1)
      have hlen := congrArg List.length hsplit
      rw [List.length_append] at hlen
      have hallowed := hread.allowed
      obtain ⟨r', hloop, hsolid, hr'⟩ := ih (k := k + 1 - (r.read size (k + 1)).1.length) hread.solid
        (by omega) (by omega) (by omega)
      refine ⟨r', ?_, hsolid, by omega⟩
      rw [readLoop]
      simp only [hempty, hloop, Bool.false_eq_true, if_false, Option.map_some]
      rw [← hsplit, List.take_append, List.take_of_length_le hle]

/-- A decoder gets what it needs. -/
theorem run_complete {p : Parse β α} {a : α} (h : r.Solid) (hsize : 0 < size)
    (hon : p.on r.all = some (a, rest)) (hlen : r.all.length < rest.length + r.allowed) :
    ∃ r', run size p r = (some a, r') ∧ r'.all = rest ∧ r'.Solid := by
  induction p generalizing r with
  | done b =>
    injection hon with hon
    injection hon with hb hrest
    exact ⟨r, by rw [run, hb], hrest, h⟩
  | fail => cases hon
  | byte next ih =>
    cases hall : r.all with
    | nil =>
      rw [hall] at hon
      cases hon
    | cons b bs =>
      rw [hall] at hon hlen
      rw [List.length_cons] at hlen
      have hrest : rest.length ≤ bs.length := (Parse.on_suffix (p := next b) hon).length_le
      obtain ⟨buf, hbuf, hbs⟩ := h.fill_cons hsize hall (by omega)
      have hallowed : (r.fill size).allowed = r.allowed := allowed_fill size r
      rw [allowed, hbuf, List.length_cons] at hallowed
      obtain ⟨r', hrun, hr'⟩ := ih b (r := ⟨buf, (r.fill size).left, (r.fill size).src⟩) h.fill
        (by rw [all, hbs]; exact hon) (by rw [all, hbs, allowed]; simp only; omega)
      refine ⟨r', ?_, hr'⟩
      rw [run, take, hbuf]
      exact hrun
  | peek next ih =>
    cases hall : r.all with
    | nil =>
      rw [hall] at hon
      cases hon
    | cons b bs =>
      rw [hall] at hon
      have hrest : rest.length ≤ (b :: bs).length := (Parse.on_suffix (p := next b) hon).length_le
      rw [hall] at hlen
      obtain ⟨buf, hbuf, -⟩ := h.fill_cons hsize hall (by omega)
      obtain ⟨r', hrun, hr'⟩ := ih b (r := r.fill size) h.fill
        (by rw [fill_all, hall]; exact hon) (by rw [fill_all, hall, allowed_fill]; exact hlen)
      refine ⟨r', ?_, hr'⟩
      rw [run, hbuf]
      exact hrun
  | full n next ih =>
    rw [Parse.on] at hon
    split_ifs at hon with hn
    have hrest := (Parse.on_suffix hon).length_le
    rw [List.length_drop] at hrest
    obtain ⟨r1, hloop, hsolid, hallowed⟩ := readLoop_complete (k := n) h hsize le_rfl hn (by omega)
    have hr1 : r1.all = r.all.drop n := by
      have hsplit := (readLoop_all hloop).1
      exact List.append_cancel_left (hsplit.trans (List.take_append_drop n r.all).symm)
    obtain ⟨r', hrun, hr'⟩ := ih (r.all.take n) hsolid (by rw [hr1]; exact hon)
      (by rw [hr1, List.length_drop]; omega)
    refine ⟨r', ?_, hr'⟩
    rw [run, readFull, hloop]
    exact hrun

end Buffered.Reader
