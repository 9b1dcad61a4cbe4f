import Zif.Lib.Decoding

/-!
# Proofs: decoders that fail

Rules for what a composed decoder comes to, reads and avoids.
-/

namespace Buffered.Parse

variable {β α γ : Type}

theorem on_bind (p : Parse β α) (f : α → Parse β γ) (bs : List β) :
    (p.bind f).on bs = (p.on bs).bind fun r => (f r.1).on r.2 := by
  induction p generalizing bs with
  | done a => rfl
  | fail => rfl
  | byte next ih =>
    cases bs with
    | nil => rfl
    | cons b bs => exact ih b bs
  | peek next ih =>
    cases bs with
    | nil => rfl
    | cons b bs => exact ih b (b :: bs)
  | full n next ih =>
    rw [bind, on, on]
    split_ifs
    · exact ih _ _
    · rfl

/-- What is left is the end of the input. -/
theorem on_suffix {p : Parse β α} {bs rest : List β} {a : α} (h : p.on bs = some (a, rest)) :
    rest <:+ bs := by
  induction p generalizing bs with
  | done b =>
    injection h with h
    injection h with _ hrest
    rw [hrest]
  | fail => cases h
  | byte next ih =>
    cases bs with
    | nil => cases h
    | cons b bs => exact (ih b h).trans (List.suffix_cons b bs)
  | peek next ih =>
    cases bs with
    | nil => cases h
    | cons b bs => exact ih b h
  | full n next ih =>
    rw [on] at h
    split_ifs at h
    exact (ih _ h).trans (List.drop_suffix n bs)

/-- What follows the input stays. -/
theorem on_append {p : Parse β α} {bs rest : List β} {a : α} (h : p.on bs = some (a, rest))
    (cs : List β) : p.on (bs ++ cs) = some (a, rest ++ cs) := by
  induction p generalizing bs with
  | done b =>
    injection h with h
    injection h with hb hrest
    rw [on, hb, hrest]
  | fail => cases h
  | byte next ih =>
    cases bs with
    | nil => cases h
    | cons b bs => exact ih b h
  | peek next ih =>
    cases bs with
    | nil => cases h
    | cons b bs => exact ih b h
  | full n next ih =>
    rw [on] at h
    split_ifs at h with hn
    rw [on, if_pos (by rw [List.length_append]; omega), List.take_append_of_le_length hn,
      List.drop_append_of_le_length hn]
    exact ih _ h

end Buffered.Parse

namespace Decoding

open Go Buffered

variable {α γ : Type} {d : Decoder α} {f : α → Decoder γ} {bs cs rest : Bytes} {a : α} {b : γ}

/-! ## Outcomes -/

@[simp] theorem outcome_peekByte (c : UInt8) (bs : Bytes) :
    outcome peekByte (c :: bs) = some (.ok c, c :: bs) := rfl

theorem outcome_readN (n : Nat) (bs : Bytes) :
    outcome (readN n) bs = if n ≤ bs.length then some (.ok (bs.take n), bs.drop n) else none := rfl

theorem outcome_bind (d : Decoder α) (f : α → Decoder γ) (bs : Bytes) :
    outcome (d >>= f) bs = (outcome d bs).bind fun r => Parse.on (ExceptT.bindCont f r.1) r.2 :=
  Parse.on_bind _ _ bs

theorem outcome_bind_ok (h : outcome d bs = some (.ok a, rest)) :
    outcome (d >>= f) bs = outcome (f a) rest := by
  rw [outcome_bind, h]
  rfl

theorem outcome_bind_error {e : Fault} (h : outcome d bs = some (.error e, rest)) :
    outcome (d >>= f) bs = some (.error e, rest) := by
  rw [outcome_bind, h]
  rfl

theorem outcome_bind_none (h : outcome d bs = none) : outcome (d >>= f) bs = none := by
  rw [outcome_bind, h]
  rfl

theorem outcome_tryCatch (d : Decoder α) (h : Fault → Decoder α) (bs : Bytes) :
    outcome (tryCatch d h) bs = (outcome d bs).bind fun r =>
      Parse.on (r.1.casesOn (fun e => h e) fun a => .done (.ok a)) r.2 := by
  refine (Parse.on_bind _ _ bs).trans (congrArg _ (funext fun r => ?_))
  rcases r with ⟨_ | _, _⟩ <;> rfl

theorem outcome_tryCatch_ok {h : Fault → Decoder α} (hd : outcome d bs = some (.ok a, rest)) :
    outcome (tryCatch d h) bs = some (.ok a, rest) := by
  rw [outcome_tryCatch, hd]
  rfl

theorem outcome_tryCatch_error {h : Fault → Decoder α} {e : Fault}
    (hd : outcome d bs = some (.error e, rest)) : outcome (tryCatch d h) bs = outcome (h e) rest := by
  rw [outcome_tryCatch, hd]
  rfl

theorem outcome_tryCatch_none {h : Fault → Decoder α} (hd : outcome d bs = none) :
    outcome (tryCatch d h) bs = none := by
  rw [outcome_tryCatch, hd]
  rfl

/-! ## What is read -/

theorem Decodes.pure (a : α) : Decodes (Pure.pure a : Decoder α) [] a := fun _ => rfl

theorem Decodes.bind (h : Decodes d bs a) (h' : Decodes (f a) cs b) :
    Decodes (d >>= f) (bs ++ cs) b := by
  intro rest
  rw [List.append_assoc, outcome_bind_ok (h _), h' rest]

/-- The last step of a decoder needs no more input. -/
theorem Decodes.bind_pure {g : α → γ} (h : Decodes d bs a) :
    Decodes (d >>= fun x => Pure.pure (g x)) bs (g a) := by
  intro rest
  rw [outcome_bind_ok (h rest)]
  rfl

theorem Decodes.map {g : α → γ} (h : Decodes d bs a) : Decodes (g <$> d) bs (g a) :=
  h.bind_pure

/-- A part of an encoding is too short. -/
theorem Decodes.take {n : Nat} (h : Decodes d bs a) (hn : n < bs.length) :
    outcome d (bs.take n) = none := by
  cases ho : outcome d (bs.take n) with
  | none => rfl
  | some r =>
    obtain ⟨r, rest⟩ := r
    have hall := Parse.on_append ho (bs.drop n)
    rw [List.take_append_drop] at hall
    have hread := h []
    rw [List.append_nil] at hread
    have heq := congrArg List.length (congrArg Prod.snd (Option.some.inj (hall.symm.trans hread)))
    rw [List.length_append, List.length_drop, List.length_nil] at heq
    omega

theorem decodes_readByte (c : UInt8) : Decodes readByte [c] c := fun _ => rfl

theorem decodes_readN (bs : Bytes) : Decodes (readN bs.length) bs bs := by
  intro rest
  rw [outcome_readN, if_pos (by simp), List.take_left, List.drop_left]

/-- A decoder that looks at the first byte and goes on. -/
theorem Decodes.peek {c : UInt8} {f : UInt8 → Decoder γ} (h : Decodes (f c) (c :: bs) b) :
    Decodes (peekByte >>= f) (c :: bs) b := by
  intro rest
  rw [List.cons_append, outcome_bind_ok (outcome_peekByte c _)]
  exact h rest

/-- A decoder that takes the first byte and goes on. -/
theorem Decodes.code {c : UInt8} {f : UInt8 → Decoder γ} (h : Decodes (f c) bs b) :
    Decodes (readByte >>= f) (c :: bs) b :=
  (decodes_readByte c).bind h

/-- What is left of an encoding after its first byte. -/
theorem Decodes.tail {c : UInt8} {f : UInt8 → Decoder γ} (h : Decodes (readByte >>= f) (c :: bs) b) :
    Decodes (f c) bs b := h

theorem outcome_assoc {δ : Type} (d : Decoder α) (f : α → Decoder γ) (g : γ → Decoder δ) (bs : Bytes) :
    outcome (d >>= f >>= g) bs = outcome (d >>= fun a => f a >>= g) bs := by
  cases h : outcome d bs with
  | none => rw [outcome_bind_none h, outcome_bind_none (outcome_bind_none h)]
  | some r =>
    obtain ⟨e | a, rest⟩ := r
    · rw [outcome_bind_error h, outcome_bind_error (outcome_bind_error h)]
    · rw [outcome_bind_ok h, outcome_bind, outcome_bind_ok h, ← outcome_bind]

/-- A decoder in two steps, the first of which is followed by another decoder. -/
theorem Decodes.bind_bind {δ : Type} {g : γ → Decoder δ} {e : δ} (h : Decodes (d >>= f) bs b)
    (h' : Decodes (g b) cs e) : Decodes (d >>= fun a => f a >>= g) (bs ++ cs) e := by
  intro rest
  rw [← outcome_assoc]
  exact h.bind h' rest

/-! ## What is read, or has a fault in it -/

theorem Decodes.comes (h : Decodes d bs a) : Comes d bs (.ok a) :=
  fun rest => ⟨rest, h rest, fun _ _ => rfl⟩

theorem Comes.bind {r : Result α} {g : α → Result γ} (h : Comes d bs r)
    (hf : ∀ a, r = .ok a → Comes (f a) cs (g a)) : Comes (d >>= f) (bs ++ cs) (r >>= g) := by
  intro rest
  obtain ⟨rest', hd, hrest⟩ := h (cs ++ rest)
  rw [List.append_assoc]
  cases r with
  | error e => exact ⟨rest', outcome_bind_error hd, fun b hb => by cases hb⟩
  | ok a =>
    rw [outcome_bind_ok hd, hrest a rfl]
    exact hf a rfl rest

/-- The last step of a decoder needs no more input. -/
theorem Comes.bind_pure {r : Result α} {g : α → γ} (h : Comes d bs r) :
    Comes (d >>= fun a => Pure.pure (g a)) bs (r >>= fun a => .ok (g a)) := by
  rw [← List.append_nil bs]
  exact h.bind fun a _ => (Decodes.pure (g a)).comes

/-- A decoder in two steps, the first of which is followed by another decoder. -/
theorem Decodes.bind_comes {δ : Type} {g : γ → Decoder δ} {r : Result δ} (h : Decodes (d >>= f) bs b)
    (h' : Comes (g b) cs r) : Comes (d >>= fun a => f a >>= g) (bs ++ cs) r := by
  intro rest
  rw [← outcome_assoc, List.append_assoc, outcome_bind_ok (h _)]
  exact h' rest

/-! ## What is avoided -/

theorem Safe.pure (a : α) : Safe (Pure.pure a : Decoder α) := by
  intro bs rest h
  cases h

theorem safe_readByte : Safe readByte := by
  rintro (_ | ⟨b, bs⟩) rest h <;> cases h

theorem safe_peekByte : Safe peekByte := by
  rintro (_ | ⟨b, bs⟩) rest h <;> cases h

theorem safe_readN (n : Nat) : Safe (readN n) := by
  intro bs rest h
  rw [outcome_readN] at h
  split_ifs at h
  cases h

theorem safe_endOfInput : Safe (endOfInput : Decoder α) := by
  intro bs rest h
  cases h

theorem safe_throw (msg : String) : Safe (throw (.error msg) : Decoder α) := by
  intro bs rest h
  cases h

theorem Safe.bind (h : Safe d) (hf : ∀ a, Safe (f a)) : Safe (d >>= f) := by
  intro bs rest hb
  cases ho : outcome d bs with
  | none => simp [outcome_bind_none ho] at hb
  | some r =>
    obtain ⟨e | a, rest'⟩ := r
    · rw [outcome_bind_error ho] at hb
      injection hb with hb
      injection hb with he hrest
      injection he with he
      exact h bs rest' (he ▸ ho)
    · rw [outcome_bind_ok ho] at hb
      exact hf a rest' rest hb

/-- A panic is caught like an error; here there is none. -/
theorem Safe.tryCatch {h : Fault → Decoder α} (hd : Safe d) (hh : ∀ msg, Safe (h (.error msg))) :
    Safe (tryCatch d h) := by
  intro bs rest hb
  cases ho : outcome d bs with
  | none => simp [outcome_tryCatch_none ho] at hb
  | some r =>
    obtain ⟨e | a, rest'⟩ := r
    · rw [outcome_tryCatch_error ho] at hb
      cases e with
      | error msg => exact hh msg rest' rest hb
      | panic => exact hd bs rest' ho
    · rw [outcome_tryCatch_ok ho] at hb
      cases hb

theorem Safe.map {g : α → γ} (h : Safe d) : Safe (g <$> d) := h.bind fun _ => .pure _

theorem Safe.times {d : Decoder Unit} (h : Safe d) (n : Nat) : Safe (times n d) := by
  induction n with
  | zero => exact .pure ()
  | succ n ih => exact h.bind fun _ => ih

end Decoding
