import Zif.Lib.Buffered

/-!
# Proofs: reading through a buffer

What is read through the buffer is what is read from the list (`run_all`). The rest of the file is about
what stays in the buffer when a decoder has returned. If one of the pieces ends where the message ends,
the buffer never goes beyond it, and nothing stays (`run_cut`). If none does, and the message is shorter
than the buffer, then the read that completes the message takes more (`run_joined`).
-/

namespace Buffered

variable {β α : Type} {size k : Nat} {r r' : Reader β} {msg rest tail : List β}

namespace Reader

/-! ## Nothing is lost -/

theorem fetch_nil (h : r.src = []) : r.fetch k = ([], r) := by
  rw [fetch, h]

theorem fetch_cons {c : List β} {cs : List (List β)} (h : r.src = c :: cs) :
    r.fetch k = (c.take (min k r.left), ⟨r.buf, r.left - (c.take (min k r.left)).length,
      if c.length ≤ min k r.left then cs else c.drop (min k r.left) :: cs⟩) := by
  rw [fetch, h]

theorem fetch_buf (r : Reader β) (k : Nat) : (r.fetch k).2.buf = r.buf := by
  cases h : r.src with
  | nil => rw [fetch_nil h]
  | cons c cs => rw [fetch_cons h]

theorem fetch_src (r : Reader β) (k : Nat) :
    (r.fetch k).1 ++ (r.fetch k).2.src.flatten = r.src.flatten := by
  cases h : r.src with
  | nil =>
    rw [fetch_nil h, h]
    rfl
  | cons c cs =>
    rw [fetch_cons h]
    simp only
    split_ifs with hc
    · rw [List.take_of_length_le hc, List.flatten_cons]
    · rw [List.flatten_cons, List.flatten_cons, ← List.append_assoc, List.take_append_drop]

theorem length_fetch_le (r : Reader β) (k : Nat) : (r.fetch k).1.length ≤ min k r.left := by
  cases h : r.src with
  | nil =>
    rw [fetch_nil h]
    exact Nat.zero_le _
  | cons c cs =>
    rw [fetch_cons h]
    exact List.length_take_le _ _

theorem fetch_left (r : Reader β) (k : Nat) : (r.fetch k).1.length + (r.fetch k).2.left = r.left := by
  have hle := length_fetch_le r k
  cases h : r.src with
  | nil =>
    rw [fetch_nil h]
    exact Nat.zero_add _
  | cons c cs =>
    rw [fetch_cons h] at hle ⊢
    simp only at hle ⊢
    omega

theorem fill_eq_self (h : r.buf ≠ []) : r.fill size = r := by
  simp [fill, h]

theorem fill_of_nil (h : r.buf = []) :
    r.fill size = ⟨(r.fetch size).1, (r.fetch size).2.left, (r.fetch size).2.src⟩ := by
  simp [fill, h]

theorem fill_all (size : Nat) (r : Reader β) : (r.fill size).all = r.all := by
  by_cases h : r.buf = []
  · rw [fill_of_nil h, all, all, h]
    exact fetch_src r size
  · rw [fill_eq_self h]

theorem take_all (r : Reader β) (k : Nat) : (r.take k).1 ++ (r.take k).2.all = r.all := by
  rw [all, all, ← List.append_assoc]
  exact congrArg (· ++ _) (List.take_append_drop k r.buf)

/-- A read goes past the buffer, or takes from it. -/
theorem read_cases (size : Nat) (r : Reader β) (k : Nat) :
    (r.buf = [] ∧ size ≤ k ∧ r.read size k = r.fetch k) ∨
      ((r.buf ≠ [] ∨ k < size) ∧ r.read size k = (r.fill size).take k) := by
  by_cases h : r.buf = [] ∧ size ≤ k
  · exact .inl ⟨h.1, h.2, by simp [read, h.1, h.2]⟩
  · refine .inr ⟨?_, ?_⟩
    · by_cases hbuf : r.buf = []
      · exact .inr (not_le.mp fun hk => h ⟨hbuf, hk⟩)
      · exact .inl hbuf
    · rw [read, if_neg]
      simpa using h

theorem read_all (r : Reader β) (k : Nat) : (r.read size k).1 ++ (r.read size k).2.all = r.all := by
  rcases read_cases size r k with ⟨hbuf, -, heq⟩ | ⟨-, heq⟩
  · rw [heq, all, all, fetch_buf, hbuf]
    exact fetch_src r k
  · rw [heq, take_all, fill_all]

theorem length_read_le (size : Nat) (r : Reader β) (k : Nat) : (r.read size k).1.length ≤ k := by
  rcases read_cases size r k with ⟨-, -, heq⟩ | ⟨-, heq⟩
  · rw [heq]
    exact (length_fetch_le r k).trans (min_le_left _ _)
  · rw [heq]
    exact List.length_take_le k _

/-- A loop that succeeds has either nothing to read, or makes a read and goes on. -/
theorem readLoop_cases {fuel : Nat} {bs : List β} (h : readLoop size fuel r k = (some bs, r')) :
    (k = 0 ∧ bs = [] ∧ r' = r) ∨
      ∃ n cs, 0 < k ∧ fuel = n + 1 ∧ bs = (r.read size k).1 ++ cs ∧ (r.read size k).1 ≠ [] ∧
        readLoop size n (r.read size k).2 (k - (r.read size k).1.length) = (some cs, r') := by
  cases k with
  | zero =>
    rw [readLoop.eq_def] at h
    injection h with hbs hr
    injection hbs with hbs
    exact .inl ⟨rfl, hbs.symm, hr.symm⟩
  | succ k =>
    cases fuel with
    | zero =>
      rw [readLoop] at h
      injection h with hbs
      cases hbs
    | succ n =>
      rw [readLoop] at h
      by_cases hempty : (r.read size (k + 1)).1.isEmpty
      · simp only [hempty, if_true] at h
        injection h with hbs
        cases hbs
      · simp only [hempty, if_false, Bool.false_eq_true] at h
        injection h with hbs hr
        obtain ⟨cs, hcs, rfl⟩ := Option.map_eq_some_iff.mp hbs
        refine .inr ⟨n, cs, k.succ_pos, rfl, rfl, by simpa using hempty, ?_⟩
        exact Prod.ext hcs hr

theorem readLoop_all {fuel : Nat} {bs : List β} (h : readLoop size fuel r k = (some bs, r')) :
    bs ++ r'.all = r.all ∧ bs.length = k := by
  induction fuel generalizing r k bs with
  | zero =>
    rcases readLoop_cases h with ⟨rfl, rfl, rfl⟩ | ⟨n, cs, -, hn, -⟩
    · exact ⟨rfl, rfl⟩
    · omega
  | succ n ih =>
    rcases readLoop_cases h with ⟨rfl, rfl, rfl⟩ | ⟨m, cs, -, hm, rfl, -, hloop⟩
    · exact ⟨rfl, rfl⟩
    · obtain rfl : n = m := by omega
      obtain ⟨hall, hlen⟩ := ih hloop
      have hle := length_read_le size r k
      rw [List.append_assoc, hall, read_all, List.length_append, hlen]
      exact ⟨rfl, by omega⟩

/-! ## What a decoder keeps -/

/-- Holds between what is left of a message and the reader, whatever is read of the message. -/
structure Kept (size : Nat) (I : List β → Reader β → Prop) : Prop where
  ahead : ∀ {msg r}, I msg r → msg <+: r.all
  fill : ∀ {msg r}, I msg r → msg ≠ [] → I msg (r.fill size)
  take : ∀ {msg r} (k : Nat), I ((r.take k).1 ++ msg) r → I msg (r.take k).2
  fetch : ∀ {msg r k}, r.buf = [] → size ≤ k → k ≤ ((r.fetch k).1 ++ msg).length →
    I ((r.fetch k).1 ++ msg) r → I msg (r.fetch k).2

variable {I : List β → Reader β → Prop} (hI : Kept size I)
include hI

theorem Kept.read (h : I msg r) (hpos : 0 < k) (hk : k ≤ msg.length) :
    ∃ msg', msg = (r.read size k).1 ++ msg' ∧ I msg' (r.read size k).2 := by
  have hread : (r.read size k).1 <+: msg :=
    List.prefix_of_prefix_length_le ⟨_, read_all r k⟩ (hI.ahead h) ((length_read_le size r k).trans hk)
  obtain ⟨msg', rfl⟩ := hread
  refine ⟨msg', rfl, ?_⟩
  rcases read_cases size r k with ⟨hbuf, hsize, heq⟩ | ⟨-, heq⟩
  · rw [heq] at hk h ⊢
    exact hI.fetch hbuf hsize hk h
  · have hfill := hI.fill h (List.ne_nil_of_length_pos (hpos.trans_le hk))
    rw [heq] at hfill ⊢
    exact hI.take k hfill

theorem Kept.readLoop {fuel : Nat} {bs : List β} (h : I msg r) (hk : k ≤ msg.length)
    (hloop : Reader.readLoop size fuel r k = (some bs, r')) : ∃ msg', msg = bs ++ msg' ∧ I msg' r' := by
  induction fuel generalizing r k bs msg with
  | zero =>
    rcases readLoop_cases hloop with ⟨-, rfl, rfl⟩ | ⟨n, cs, -, hn, -⟩
    · exact ⟨msg, rfl, h⟩
    · omega
  | succ n ih =>
    rcases readLoop_cases hloop with ⟨-, rfl, rfl⟩ | ⟨m, cs, hpos, hm, rfl, -, hrest⟩
    · exact ⟨msg, rfl, h⟩
    · obtain rfl : n = m := by omega
      obtain ⟨msg', hmsg, h'⟩ := hI.read h hpos hk
      have hlen : k - (r.read size k).1.length ≤ msg'.length := by
        rw [hmsg, List.length_append] at hk
        omega
      obtain ⟨msg'', rfl, h''⟩ := ih h' hlen hrest
      exact ⟨msg'', by rw [hmsg, List.append_assoc], h''⟩

theorem Kept.head_eq {b b' : β} {bs cs : List β} (h : I (b :: msg) r) (hall : b' :: bs ++ cs = r.all) :
    b' = b := by
  obtain ⟨t, ht⟩ := hI.ahead h
  rw [← hall] at ht
  injection ht with hb
  exact hb.symm

/-- A decoder that needs `msg` up to `rest`, and returns, has returned what it does on the list. -/
theorem Kept.run {p : Parse β α} {a a' : α} (hon : p.on msg = some (a, rest)) (h : I msg r)
    (hrun : run size p r = (some a', r')) : a' = a ∧ I rest r' := by
  induction p generalizing msg r with
  | done b =>
    injection hon with hon
    injection hon with ha hrest
    injection hrun with hb hr
    injection hb with hb
    subst ha hrest hb hr
    exact ⟨rfl, h⟩
  | fail => cases hon
  | byte next ih =>
    cases msg with
    | nil => cases hon
    | cons b msg =>
      have hfill := hI.fill h (List.cons_ne_nil b msg)
      rw [Reader.run] at hrun
      cases htake : ((r.fill size).take 1).1 with
      | nil =>
        rw [htake] at hrun
        injection hrun with hnone
        cases hnone
      | cons b' bs =>
        have hlen : bs = [] := by
          have hle : (b' :: bs).length ≤ 1 := htake ▸ List.length_take_le 1 (r.fill size).buf
          exact List.eq_nil_of_length_eq_zero (Nat.le_zero.mp (Nat.le_of_succ_le_succ hle))
        have hb : b' = b := hI.head_eq hfill (htake ▸ take_all (r.fill size) 1)
        rw [htake] at hrun
        subst hlen hb
        exact ih b' hon (hI.take 1 (htake ▸ hfill)) hrun
  | peek next ih =>
    cases msg with
    | nil => cases hon
    | cons b msg =>
      have hfill := hI.fill h (List.cons_ne_nil b msg)
      rw [Reader.run] at hrun
      cases hbuf : (r.fill size).buf with
      | nil =>
        rw [hbuf] at hrun
        injection hrun with hnone
        cases hnone
      | cons b' bs =>
        have hb : b' = b := hI.head_eq hfill (by rw [all, hbuf])
        rw [hbuf] at hrun
        subst hb
        exact ih b' hon hfill hrun
  | full n next ih =>
    rw [Parse.on] at hon
    split_ifs at hon with hn
    rw [Reader.run] at hrun
    cases hloop : r.readFull size n with
    | mk res r1 =>
      rw [hloop] at hrun
      cases res with
      | none =>
        injection hrun with hnone
        cases hnone
      | some bs =>
        obtain ⟨msg', rfl, h'⟩ := hI.readLoop h hn hloop
        have hlen := (readLoop_all hloop).2
        rw [List.take_left' hlen, List.drop_left' hlen] at hon
        exact ih bs hon h' hrun

omit hI

/-! ## What stays in the buffer -/

/-- What is left of the message comes first, and then `tail`. -/
theorem kept_all (size : Nat) (tail : List β) : Kept size fun msg r => r.all = msg ++ tail where
  ahead h := ⟨tail, h.symm⟩
  fill h _ := (fill_all size _).trans h
  take k h := by
    rw [← take_all _ k, List.append_assoc] at h
    exact List.append_cancel_left h
  fetch {msg r k} hbuf _ _ h := by
    rw [all, hbuf, List.nil_append, ← fetch_src r k, List.append_assoc] at h
    rw [all, fetch_buf, hbuf, List.nil_append]
    exact List.append_cancel_left h

/-- One of the pieces ends where the message ends; after it come `post`. -/
def Cut (post : List (List β)) (msg : List β) (r : Reader β) : Prop :=
  ∃ pre, r.src = pre ++ post ∧ r.buf ++ pre.flatten = msg

theorem fetch_cut {pre post : List (List β)} (h : r.src = pre ++ post) (hne : pre.flatten ≠ []) :
    ∃ pre', (r.fetch k).2.src = pre' ++ post ∧ (r.fetch k).1 ++ pre'.flatten = pre.flatten := by
  cases pre with
  | nil => exact absurd rfl hne
  | cons c pre =>
    rw [fetch_cons h]
    by_cases hc : c.length ≤ min k r.left
    · exact ⟨pre, if_pos hc, by rw [List.take_of_length_le hc, List.flatten_cons]⟩
    · refine ⟨c.drop (min k r.left) :: pre, if_neg hc, ?_⟩
      rw [List.flatten_cons, List.flatten_cons, ← List.append_assoc, List.take_append_drop]

theorem kept_cut (hsize : 0 < size) (post : List (List β)) : Kept size (Cut post) where
  ahead := by
    rintro msg r ⟨pre, hsrc, rfl⟩
    rw [all, hsrc, List.flatten_append, ← List.append_assoc]
    exact List.prefix_append _ _
  fill := by
    rintro msg r ⟨pre, hsrc, rfl⟩ hne
    by_cases hbuf : r.buf = []
    · rw [hbuf, List.nil_append] at hne ⊢
      rw [fill_of_nil hbuf]
      exact fetch_cut hsrc hne
    · rw [fill_eq_self hbuf]
      exact ⟨pre, hsrc, rfl⟩
  take := by
    rintro msg r k ⟨pre, hsrc, hmsg⟩
    refine ⟨pre, hsrc, ?_⟩
    rw [← List.take_append_drop k r.buf, List.append_assoc] at hmsg
    exact List.append_cancel_left hmsg
  fetch := by
    rintro msg r k hbuf hk hlen ⟨pre, hsrc, hmsg⟩
    rw [hbuf, List.nil_append] at hmsg
    have hne : pre.flatten ≠ [] := by
      rw [hmsg]
      exact List.ne_nil_of_length_pos (by omega)
    obtain ⟨pre', hsrc', hmsg'⟩ := fetch_cut (k := k) hsrc hne
    rw [hmsg] at hmsg'
    exact ⟨pre', hsrc', by rw [fetch_buf, hbuf]; exact List.append_cancel_left hmsg'⟩

/-- No piece ends where the message ends, and one read could take all of it. -/
structure Joined (size : Nat) (msg : List β) (r : Reader β) : Prop where
  ahead : msg <+: r.all
  uncut : ∀ post, ¬ Cut post msg r
  short : msg.length < size
  allowed : msg.length < r.buf.length + r.left

theorem Joined.fill (h : Joined size msg r) : Joined size msg (r.fill size) := by
  by_cases hbuf : r.buf = []
  · have hall := fill_all size r
    rw [fill_of_nil hbuf] at hall ⊢
    have hallowed := h.allowed
    rw [hbuf, List.length_nil, Nat.zero_add, ← fetch_left r size] at hallowed
    refine ⟨hall ▸ h.ahead, ?_, h.short, hallowed⟩
    rintro post ⟨pre, hsrc, hmsg⟩
    cases hr : r.src with
    | nil =>
      rw [fetch_nil hr] at hsrc hmsg
      exact h.uncut post ⟨pre, hsrc, by rw [hbuf]; exact hmsg⟩
    | cons c cs =>
      rw [fetch_cons hr] at hsrc hmsg
      by_cases hc : c.length ≤ min size r.left
      · -- the whole piece is taken, and the end of the message lies among those that follow
        simp only [if_pos hc, List.take_of_length_le hc] at hsrc hmsg
        refine h.uncut post ⟨c :: pre, by rw [hr, hsrc, List.cons_append], ?_⟩
        rw [hbuf, List.nil_append, List.flatten_cons, hmsg]
      · -- the buffer is full and goes beyond the message
        have hlen := congrArg List.length hmsg
        have hshort := h.short
        have hleft := h.allowed
        rw [hbuf, List.length_nil, Nat.zero_add] at hleft
        simp only [List.length_append, List.length_take] at hlen
        omega
  · rw [fill_eq_self hbuf]
    exact h

theorem kept_joined (size : Nat) : Kept size (Joined (β := β) size) where
  ahead h := h.ahead
  fill h _ := h.fill
  take {msg r} k h := by
    have hshort := h.short
    have hallowed := h.allowed
    rw [List.length_append] at hshort hallowed
    refine ⟨?_, ?_, by omega, ?_⟩
    · obtain ⟨t, ht⟩ := h.ahead
      rw [← take_all r k, List.append_assoc] at ht
      exact ⟨t, List.append_cancel_left ht⟩
    · rintro post ⟨pre, hsrc, hmsg⟩
      refine h.uncut post ⟨pre, hsrc, ?_⟩
      rw [← hmsg, ← List.append_assoc]
      exact congrArg (· ++ pre.flatten) (List.take_append_drop k r.buf).symm
    · have hlen : (r.take k).1.length + (r.take k).2.buf.length = r.buf.length := by
        rw [← List.length_append]
        exact congrArg List.length (List.take_append_drop k r.buf)
      have hleft : (r.take k).2.left = r.left := rfl
      omega
  fetch _ hk hlen h := by
    have hshort := h.short
    omega

/-- After a short message the rest is still to come exactly when a piece ends where the message ends.
Otherwise some of it stays in the buffer. -/
theorem run_src_iff {p : Parse β α} {a a' : α} (hmsg : Encodes p msg a) (hbuf : r.buf = [])
    (hsrc : r.src.flatten = msg ++ tail) (hsize : msg.length < size) (hleft : msg.length < r.left)
    (hrun : run size p r = (some a', r')) :
    r'.src.flatten = tail ↔ ∃ pre post, r.src = pre ++ post ∧ pre.flatten = msg := by
  have hall : r'.buf ++ r'.src.flatten = tail :=
    ((kept_all size tail).run hmsg (by rw [all, hbuf, hsrc, List.nil_append]) hrun).2
  constructor
  · intro h
    by_contra hcut
    have hjoined : Joined size msg r := by
      refine ⟨⟨tail, by rw [all, hbuf, hsrc, List.nil_append]⟩, ?_, hsize, ?_⟩
      · rintro post ⟨pre, hpre, hflat⟩
        rw [hbuf, List.nil_append] at hflat
        exact hcut ⟨pre, post, hpre, hflat⟩
      · rw [hbuf, List.length_nil, Nat.zero_add]
        exact hleft
    have hend := ((kept_joined size).run hmsg hjoined hrun).2
    rw [h] at hall
    have hempty : r'.buf = [] := List.append_left_eq_self.mp hall
    exact hend.uncut r'.src ⟨[], rfl, by rw [hempty]; rfl⟩
  · rintro ⟨pre, post, hpre, hflat⟩
    have hcut : Cut post msg r := ⟨pre, hpre, by rw [hbuf, hflat, List.nil_append]⟩
    obtain ⟨-, pre', -, hend⟩ := (kept_cut (Nat.zero_lt_of_lt hsize) post).run hmsg hcut hrun
    rw [(List.append_eq_nil_iff.mp hend).1, List.nil_append] at hall
    exact hall

end Reader

end Buffered
