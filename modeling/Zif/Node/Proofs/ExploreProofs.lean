import Zif.Lib.Proofs.RunsProofs
import Zif.Lib.Proofs.ShuffleProofs
import Zif.Node.Explore
import Zif.Node.Proofs.OwnAddressProofs

/-!
# Proofs: exploring the network

`Moved` and `LoopMoved` say what a step of a goroutine and of the result loop can do. Every step keeps `Wf`: what is
beyond the capacity of a channel is due to senders that are blocked, and the own address is never explored. A step
keeps the job going as long as a refill has entries that meet `Refills` (`Going.step`); when they do not, there is a
shuffle after which the job is dry (`LastAtWork.exists_dry`), and a dry job stays dry (`Dry.step`).

From every state there are steps that serve all senders (`leads_drained`): the goroutines that start take values from
`in`, so the result loop gets through with its own, and goes on to handle what is in `ret`.
-/

namespace Zif.Node

open Go Dht Runs

variable {P : Prims} {own : Address}

/-! ## The own address -/

theorem seedNames_addr (dht : NetDB) (random : Option Address) :
    (seedNames P dht random).1.addr = dht.addr := by
  have hown := NetDB.findClosest_addr (P := P) dht dht.addr
  unfold seedNames
  split
  · next h => rwa [h] at hown
  · next dht' closest h =>
    rw [h] at hown
    split
    · exact hown
    · next addr =>
      have hrand := (NetDB.findClosest_addr (P := P) dht' addr).trans hown
      split
      · next h => rwa [h] at hrand
      · next h => rwa [h] at hrand
      · next h => rwa [h] at hrand

theorem seedExplore_addr (dht : NetDB) (random : Option Address) (draw : Nat → Nat) :
    (seedExplore P dht random draw).1.addr = dht.addr := by
  have hnames := seedNames_addr (P := P) dht random
  unfold seedExplore
  split
  · next h => rwa [h] at hnames
  · next h =>
    rw [h] at hnames
    simp only
    split
    · exact hnames
    · exact hnames

theorem equals_own_of_discovers {ndb : NetDB} {i : Entry} (h : discovers P ndb i = true) :
    i.address.equals ndb.addr = false := by
  have hquery := NetDB.query_addr (P := P) ndb i.address
  unfold discovers at h
  split at h
  · next hq =>
    rw [hq] at hquery
    rw [Bool.and_eq_true, Bool.not_eq_true', hquery] at h
    exact h.1
  · cases h

/-- The goroutine is neither blocked in receiving nor about to explore a peer, and is not in sending to `ret`. -/
def Tick.plain : Tick → Bool
  | .waiting => false
  | .connecting _ => false
  | .sent _ _ _ => false
  | _ => true

namespace Explorer

variable {s s' : Explorer}

/-! ## What a step can do -/

/-- The goroutine has sent a value for which its channel has no room yet. -/
def Blocked (s : Explorer) : Tick → Prop
  | .sent n _ _ => s.handled + exploreBufferSize ≤ n
  | .seeded n _ => s.taken + exploreBufferSize ≤ n
  | _ => False

/-- What the next step of goroutine `k` can do, from the place where it is. -/
inductive Moved (P : Prims) (s : Explorer) (k : Nat) (around : Surroundings) : Tick → Explorer → Prop where
  /-- It is blocked, or has returned. -/
  | stays (t : Tick) : Moved P s k around t s
  | waits : s.input = [] → Moved P s k around .ready (s.setTick k .waiting)
  | receives {i : Entry} {rest : List Entry} : s.input = i :: rest →
      Moved P s k around .ready
        ({ s with input := rest, taken := s.taken + 1 }.setTick k (received s.dht.addr i))
  /-- It stays at work, and neither channel changes. -/
  | worksOn {t t' : Tick} : ¬ s.Blocked t → idle s.dht.addr t = false → t'.plain = true →
      idle s.dht.addr t' = false → Moved P s k around t (s.setTick k t')
  | finds {i : Entry} {rest : List (Option Entry)} {again : Bool} :
      Moved P s k around (.sending (some i :: rest) again)
        ({ s with output := s.output ++ [i] }.setTick k (.sent s.nextOutput rest again))
  | crashes {t : Tick} {dht : NetDB} : idle s.dht.addr t = false → dht.addr = s.dht.addr →
      Moved P s k around t { s with dht }.crash
  | returns : s.input ≠ [] → Moved P s k around .checking (s.setTick k .returned)
  | failsToSeed {dht : NetDB} {msg : String} : s.input = [] →
      seedExplore P s.dht around.random around.draw = (dht, .error (.error msg)) →
      Moved P s k around .checking ({ s with dht }.setTick k .returned)
  | seeds {dht : NetDB} {closest : List (Option Entry)} : s.input = [] →
      seedExplore P s.dht around.random around.draw = (dht, .ok closest) →
      Moved P s k around .checking ({ s with dht }.setTick k (.seeding closest))
  | skips {i : Option Entry} {rest : List (Option Entry)} : otherThan s.dht.addr i = false →
      Moved P s k around (.seeding (i :: rest)) (s.setTick k (.seeding rest))
  | sends {i : Entry} {rest : List (Option Entry)} {s' : Explorer} : i.address.equals s.dht.addr = false →
      s.send around.receiver i = some s' →
      Moved P s k around (.seeding (some i :: rest)) (s'.setTick k (.seeded s.nextInput rest))
  | passes {n : Nat} {rest : List (Option Entry)} : n < s.taken + exploreBufferSize →
      Moved P s k around (.seeded n rest) (s.setTick k (.seeding rest))
  | hasSeeded : Moved P s k around (.seeding []) (s.setTick k .returned)

theorem moved_reply (k : Nat) (around : Surroundings) {t : Tick} (hfree : ¬ s.Blocked t)
    (ht : idle s.dht.addr t = false) (again : Bool) : Moved P s k around t (match around.reply with
      | .error _ => s.setTick k .checking
      | .ok closest => s.setTick k (.sending closest again)) := by
  split
  · exact .worksOn hfree ht rfl rfl
  · exact .worksOn hfree ht rfl rfl

theorem moved_checking (k : Nat) (around : Surroundings) :
    Moved P s k around .checking (s.advance P k around .checking) := by
  have hseed := seedExplore_addr (P := P) s.dht around.random around.draw
  unfold advance
  simp only
  split
  · next hin =>
    rw [List.isEmpty_iff] at hin
    split
    · next h =>
      rw [h] at hseed
      exact .crashes rfl hseed
    · next h => exact .failsToSeed hin h
    · next h => exact .seeds hin h
  · next hin => exact .returns fun h => hin (by rw [h]; rfl)

theorem moved_seeding (k : Nat) (around : Surroundings) (closest : List (Option Entry)) :
    Moved P s k around (.seeding closest) (s.advance P k around (.seeding closest)) := by
  cases closest with
  | nil => exact .hasSeeded
  | cons i rest =>
    cases i with
    | none => exact .skips rfl
    | some i =>
      unfold advance
      simp only
      split
      · next hi => exact .skips (by rw [otherThan, hi]; rfl)
      · next hi =>
        rw [Bool.not_eq_true] at hi
        split
        · next h => exact .sends hi h
        · exact .stays _

theorem moved_sending (k : Nat) (around : Surroundings) (closest : List (Option Entry)) (again : Bool) :
    Moved P s k around (.sending closest again) (s.advance P k around (.sending closest again)) := by
  cases closest with
  | nil => cases again <;> exact .worksOn id rfl rfl rfl
  | cons i rest =>
    cases i with
    | none => exact .crashes rfl rfl
    | some i =>
      unfold advance
      simp only
      split
      · exact .worksOn id rfl rfl rfl
      · exact .finds

theorem moved_advance (k : Nat) (around : Surroundings) (t : Tick) :
    Moved P s k around t (s.advance P k around t) := by
  cases t with
  | ready =>
    unfold advance
    simp only
    split
    · next hin => exact .waits hin
    · next hin => exact .receives hin
  | waiting => exact .stays _
  | connecting peer => exact moved_reply k around id rfl true
  | sending closest again => exact moved_sending k around closest again
  | sent n closest again =>
    unfold advance
    simp only
    split
    · next hn => exact .worksOn (not_le.mpr hn) rfl rfl rfl
    · exact .stays _
  | asking => exact moved_reply k around id rfl false
  | checking => exact moved_checking k around
  | seeding closest => exact moved_seeding k around closest
  | seeded n closest =>
    unfold advance
    simp only
    split
    · next hn => exact .passes hn
    · exact .stays _
  | returned => exact .stays _

/-- What the next step of the result loop can do. -/
inductive LoopMoved (P : Prims) (s : Explorer) (receiver : Nat) : Explorer → Prop where
  | stays : LoopMoved P s receiver s
  | handles {i : Entry} {rest : List Entry} {dht : NetDB} : s.loop = .receiving → s.output = i :: rest →
      explore P s.dht i = (dht, .ok ()) →
      LoopMoved P s receiver
        { s with
          dht
          output := rest
          handled := s.handled + 1
          loop := if discovers P s.dht i then .sending i else .receiving }
  | crashes {dht : NetDB} : s.output ≠ [] → dht.addr = s.dht.addr → LoopMoved P s receiver { s with dht }.crash
  | sends {i : Entry} {s' : Explorer} : s.loop = .sending i → s.send receiver i = some s' →
      LoopMoved P s receiver { s' with loop := .sent s.nextInput }
  | passes {n : Nat} : s.loop = .sent n → n < s.taken + exploreBufferSize →
      LoopMoved P s receiver { s with loop := .receiving }

theorem moved_advanceLoop (receiver : Nat) : LoopMoved P s receiver (s.advanceLoop P receiver) := by
  unfold advanceLoop
  split
  · next hloop =>
    split
    · exact .stays
    · next i rest hout =>
      have haddr := explore_addr (P := P) s.dht i
      split
      · next h =>
        rw [h] at haddr
        exact .crashes (by rw [hout]; exact List.cons_ne_nil i rest) haddr
      · next h => exact .handles hloop hout h
  · next i hloop =>
    split
    · next h => exact .sends hloop h
    · exact .stays
  · next n hloop =>
    split
    · next hn => exact .passes hloop hn
    · exact .stays

/-! ## What every step keeps -/

theorem fine_received {i : Entry} (hi : i.address.equals own = false) : fine own (received own i) := by
  rw [received, if_neg (by rw [hi]; decide)]
  exact hi

theorem received_ne_waiting (i : Entry) : received own i ≠ .waiting := by
  unfold received
  split <;> exact fun h => Tick.noConfusion h

theorem getElem?_setTick_self {k : Nat} {t t' : Tick} (h : s.ticks[k]? = some t) :
    (s.setTick k t').ticks[k]? = some t' := by
  obtain ⟨hk, -⟩ := List.getElem?_eq_some_iff.mp h
  exact List.getElem?_set_self hk

theorem getElem?_setTick_ne {j k : Nat} {t : Tick} (h : k ≠ j) : (s.setTick k t).ticks[j]? = s.ticks[j]? :=
  List.getElem?_set_ne h

/-- The other goroutines stay where they are. -/
theorem mem_setTick {k : Nat} {t t' u : Tick} (hk : s.ticks[k]? = some t) (hu : u ∈ s.ticks) (hne : u ≠ t) :
    u ∈ (s.setTick k t').ticks := by
  obtain ⟨j, hj⟩ := List.getElem?_of_mem hu
  have hkj : k ≠ j := by
    rintro rfl
    exact hne (Option.some.inj (hj.symm.trans hk))
  exact List.mem_of_getElem? ((getElem?_setTick_ne hkj).trans hj)

/-- A goroutine that is not blocked goes to another place. -/
theorem Wf.setTick (hs : Wf own s) {k : Nat} {t₀ t : Tick} (hk : s.ticks[k]? = some t₀) (hfree : ¬ s.Blocked t₀)
    (ht : fine own t) (hwaits : t = .waiting → s.input = [])
    (hsent : ∀ n closest again, t = .sent n closest again → n < s.nextOutput) : Wf own (s.setTick k t) where
  addr := hs.addr
  input := hs.input
  loop := hs.loop
  ticks t' ht' := by
    rcases List.mem_or_eq_of_mem_set ht' with h | rfl
    · exact hs.ticks t' h
    · exact ht
  waits h := by
    rcases List.mem_or_eq_of_mem_set h with h | h
    · exact hs.waits h
    · exact hwaits h.symm
  loopSent := hs.loopSent
  sent n closest again h := by
    rcases List.mem_or_eq_of_mem_set h with h | h
    · exact hs.sent n closest again h
    · exact hsent n closest again h.symm
  inputRoom n hn hlt := by
    refine (hs.inputRoom n hn hlt).imp_right fun ⟨closest, hmem⟩ => ⟨closest, mem_setTick hk hmem ?_⟩
    rintro rfl
    exact hfree hn
  outputRoom n hn hlt := by
    obtain ⟨closest, again, hmem⟩ := hs.outputRoom n hn hlt
    refine ⟨closest, again, mem_setTick hk hmem ?_⟩
    rintro rfl
    exact hfree hn

theorem Wf.setPlain (hs : Wf own s) {k : Nat} {t₀ t : Tick} (hk : s.ticks[k]? = some t₀)
    (hfree : ¬ s.Blocked t₀) (ht : Tick.plain t = true) : Wf own (s.setTick k t) := by
  refine hs.setTick hk hfree ?_ (fun h => ?_) fun n closest again h => ?_
  · cases t with
    | connecting peer => cases ht
    | _ => trivial
  · rw [h] at ht
    cases ht
  · rw [h] at ht
    cases ht

theorem Wf.withStore (hs : Wf own s) {dht : NetDB} (hdht : dht.addr = s.dht.addr) :
    Wf own { s with dht } :=
  { hs with addr := hdht.trans hs.addr }

theorem Wf.crash (hs : Wf own s) : Wf own s.crash := { hs with }

/-- The result loop goes to another place, if it is not blocked. -/
theorem Wf.setLoop (hs : Wf own s) (hfree : ∀ n, s.loop = .sent n → n < s.taken + exploreBufferSize)
    {loop : ResultLoop} (hloop : ∀ i, loop = .sending i → i.address.equals own = false)
    (hsent : ∀ n, loop = .sent n → n < s.nextInput) : Wf own { s with loop } :=
  { hs with
    loop := hloop
    loopSent := hsent
    inputRoom := fun n hn hlt => by
      rcases hs.inputRoom n hn hlt with h | h
      · exact absurd (hfree n h) (not_lt.mpr hn)
      · exact .inr h }

/-- Without its first entry the channel is as good. -/
theorem Wf.tail (hs : Wf own s) {i : Entry} {rest : List Entry} (hin : s.input = i :: rest) :
    Wf own { s with input := rest, taken := s.taken + 1 } := by
  have hnext : ({ s with input := rest, taken := s.taken + 1 } : Explorer).nextInput = s.nextInput := by
    simp only [nextInput, hin, List.length_cons]
    omega
  exact { hs with
    input := fun j hj => hs.input j (by rw [hin]; exact List.mem_cons_of_mem i hj)
    waits := fun h => by
      have hnil := hs.waits h
      rw [hin] at hnil
      cases hnil
    loopSent := fun n hn => hnext ▸ hs.loopSent n hn
    inputRoom := fun n hn hlt => by
      simp only at hn
      exact hs.inputRoom n (by omega) (hnext ▸ hlt) }

/-- A send is taken by a goroutine that waits, or the value stays in the channel. -/
theorem send_cases {receiver : Nat} {i : Entry} (h : s.send receiver i = some s') :
    (s.ticks[receiver]? = some .waiting ∧
      s' = { s with taken := s.taken + 1 }.setTick receiver (received s.dht.addr i)) ∨
      (Tick.waiting ∉ s.ticks ∧ s' = { s with input := s.input ++ [i] }) := by
  unfold send at h
  split at h
  · split at h
    · next hr => exact .inl ⟨hr, (Option.some.inj h).symm⟩
    · cases h
  · next hw => exact .inr ⟨hw, (Option.some.inj h).symm⟩

/-- A goroutine that waits gets the value. -/
theorem Wf.handOver (hs : Wf own s) {receiver : Nat} {i : Entry} (hi : i.address.equals own = false)
    (hr : s.ticks[receiver]? = some .waiting) :
    Wf own ({ s with taken := s.taken + 1 }.setTick receiver (received s.dht.addr i)) := by
  have hnil := hs.waits (List.mem_of_getElem? hr)
  have htaken : Wf own { s with taken := s.taken + 1 } :=
    { hs with
      loopSent := fun n hn => by
        have := hs.loopSent n hn
        simp only [nextInput] at this ⊢
        omega
      inputRoom := fun n hn hlt => by
        simp only [nextInput, hnil, List.length_nil] at hn hlt
        omega }
  rw [hs.addr]
  refine htaken.setTick hr id (fine_received hi) (fun h => absurd h (received_ne_waiting i)) fun n closest again h => ?_
  unfold received at h
  split at h <;> cases h

theorem nextInput_append (i : Entry) :
    ({ s with input := s.input ++ [i] } : Explorer).nextInput = s.nextInput + 1 := by
  simp only [nextInput, List.length_append, List.length_singleton]
  omega

theorem nextOutput_append (i : Entry) :
    ({ s with output := s.output ++ [i] } : Explorer).nextOutput = s.nextOutput + 1 := by
  simp only [nextOutput, List.length_append, List.length_singleton]
  omega

theorem input_append (hs : Wf own s) {i : Entry} (hi : i.address.equals own = false) :
    ∀ j ∈ s.input ++ [i], j.address.equals own = false := by
  intro j hj
  rcases List.mem_append.mp hj with hj | hj
  · exact hs.input j hj
  · rw [List.mem_singleton.mp hj]
    exact hi

/-- The result loop sends. -/
theorem Wf.sendLoop (hs : Wf own s) {receiver : Nat} {i : Entry} (hloop : s.loop = .sending i)
    (h : s.send receiver i = some s') : Wf own { s' with loop := .sent s.nextInput } := by
  have hi := hs.loop i hloop
  rcases send_cases h with ⟨hr, rfl⟩ | ⟨hw, rfl⟩
  · refine (hs.handOver hi hr).setLoop (fun n hn => ?_) (fun i hi => ResultLoop.noConfusion hi) fun n hn => ?_
    · exact ResultLoop.noConfusion (hloop.symm.trans hn)
    · cases hn
      simp only [nextInput, Explorer.setTick]
      omega
  · exact { hs with
      input := input_append hs hi
      loop := fun j hj => ResultLoop.noConfusion hj
      waits := fun h => absurd h hw
      loopSent := fun n hn => by
        cases hn
        have hnext := nextInput_append (s := s) i
        exact hnext.symm ▸ Nat.lt_succ_self s.nextInput
      inputRoom := fun n hn hlt => by
        have hlt' : n < s.nextInput + 1 := nextInput_append i ▸ hlt
        rcases Nat.lt_succ_iff_lt_or_eq.mp hlt' with hlt | rfl
        · exact (hs.inputRoom n hn hlt).imp_left fun h => ResultLoop.noConfusion (hloop.symm.trans h)
        · exact .inl rfl }

/-- A goroutine in the loop of `seedExplore` sends. -/
theorem Wf.sendTick (hs : Wf own s) {k receiver : Nat} {i : Entry} {rest : List (Option Entry)}
    (hk : s.ticks[k]? = some (.seeding (some i :: rest))) (hi : i.address.equals own = false)
    (h : s.send receiver i = some s') : Wf own (s'.setTick k (.seeded s.nextInput rest)) := by
  rcases send_cases h with ⟨hr, rfl⟩ | ⟨hw, rfl⟩
  · have hne : receiver ≠ k := by
      rintro rfl
      cases hk.symm.trans hr
    exact (hs.handOver hi hr).setPlain ((getElem?_setTick_ne hne).trans hk) id rfl
  · set s₁ : Explorer := { s with input := s.input ++ [i] }
    have hk₁ : s₁.ticks[k]? = some (.seeding (some i :: rest)) := hk
    refine ⟨hs.addr, input_append hs hi, hs.loop, fun t ht => ?_, fun h => ?_, fun n hn => ?_, fun n closest again h => ?_,
      fun n hn hlt => ?_, fun n hn hlt => ?_⟩
    · rcases List.mem_or_eq_of_mem_set ht with h | rfl
      · exact hs.ticks t h
      · trivial
    · rcases List.mem_or_eq_of_mem_set h with h | h
      · exact absurd h hw
      · cases h
    · exact (hs.loopSent n hn).trans ((nextInput_append (s := s) i).symm ▸ Nat.lt_succ_self _)
    · rcases List.mem_or_eq_of_mem_set h with h | h
      · exact hs.sent n closest again h
      · cases h
    · have hlt' : n < s.nextInput + 1 := nextInput_append i ▸ hlt
      rcases Nat.lt_succ_iff_lt_or_eq.mp hlt' with hlt | rfl
      · refine (hs.inputRoom n hn hlt).imp_right fun ⟨closest, hmem⟩ => ⟨closest, mem_setTick hk₁ hmem ?_⟩
        exact fun h => Tick.noConfusion h
      · exact .inr ⟨rest, List.mem_of_getElem? (getElem?_setTick_self hk₁)⟩
    · obtain ⟨closest, again, hmem⟩ := hs.outputRoom n hn hlt
      exact ⟨closest, again, mem_setTick hk₁ hmem fun h => Tick.noConfusion h⟩

/-- A goroutine sends an entry that it has found. -/
theorem Wf.found (hs : Wf own s) {k : Nat} {i : Entry} {rest : List (Option Entry)} {again : Bool}
    (hk : s.ticks[k]? = some (.sending (some i :: rest) again)) :
    Wf own ({ s with output := s.output ++ [i] }.setTick k (.sent s.nextOutput rest again)) := by
  set s₁ : Explorer := { s with output := s.output ++ [i] }
  have hk₁ : s₁.ticks[k]? = some (.sending (some i :: rest) again) := hk
  refine ⟨hs.addr, hs.input, hs.loop, fun t ht => ?_, fun h => ?_, hs.loopSent, fun n closest again' h => ?_,
    fun n hn hlt => ?_, fun n hn hlt => ?_⟩
  · rcases List.mem_or_eq_of_mem_set ht with h | rfl
    · exact hs.ticks t h
    · trivial
  · rcases List.mem_or_eq_of_mem_set h with h | h
    · exact hs.waits h
    · cases h
  · show n < s₁.nextOutput
    rw [nextOutput_append i]
    rcases List.mem_or_eq_of_mem_set h with h | h
    · exact (hs.sent n closest again' h).trans (Nat.lt_succ_self _)
    · cases h
      exact Nat.lt_succ_self _
  · refine (hs.inputRoom n hn hlt).imp_right fun ⟨closest, hmem⟩ => ⟨closest, mem_setTick hk₁ hmem ?_⟩
    exact fun h => Tick.noConfusion h
  · have hlt' : n < s.nextOutput + 1 := nextOutput_append i ▸ hlt
    rcases Nat.lt_succ_iff_lt_or_eq.mp hlt' with hlt | rfl
    · obtain ⟨closest, again', hmem⟩ := hs.outputRoom n hn hlt
      exact ⟨closest, again', mem_setTick hk₁ hmem fun h => Tick.noConfusion h⟩
    · exact ⟨rest, again, List.mem_of_getElem? (getElem?_setTick_self hk₁)⟩

theorem Wf.moved (hs : Wf own s) {k : Nat} {around : Surroundings} {t : Tick} (hk : s.ticks[k]? = some t)
    (h : Moved P s k around t s') : Wf own s' := by
  cases h with
  | stays => exact hs
  | waits hin => exact hs.setTick hk id trivial (fun _ => hin) fun n closest again h => by cases h
  | @receives i rest hin =>
    have hi := hs.input i (by rw [hin]; exact List.mem_cons_self)
    rw [hs.addr]
    refine (hs.tail hin).setTick hk id (fine_received hi) (fun h => absurd h (received_ne_waiting i))
      fun n closest again h => ?_
    unfold received at h
    split at h <;> cases h
  | worksOn hfree _ hplain => exact hs.setPlain hk hfree hplain
  | finds => exact hs.found hk
  | crashes _ hdht => exact (hs.withStore hdht).crash
  | returns => exact hs.setPlain hk id rfl
  | failsToSeed _ hseed =>
    have hdht := seedExplore_addr (P := P) s.dht around.random around.draw
    rw [hseed] at hdht
    exact (hs.withStore hdht).setPlain hk id rfl
  | seeds _ hseed =>
    have hdht := seedExplore_addr (P := P) s.dht around.random around.draw
    rw [hseed] at hdht
    exact (hs.withStore hdht).setPlain hk id rfl
  | skips => exact hs.setPlain hk id rfl
  | sends hi hsend =>
    rw [hs.addr] at hi
    exact hs.sendTick hk hi hsend
  | passes hn => exact hs.setPlain hk (not_le.mpr hn) rfl
  | hasSeeded => exact hs.setPlain hk id rfl

theorem Wf.handled (hs : Wf own s) {i : Entry} {rest : List Entry} (hout : s.output = i :: rest) :
    Wf own { s with output := rest, handled := s.handled + 1 } := by
  have hnext : ({ s with output := rest, handled := s.handled + 1 } : Explorer).nextOutput = s.nextOutput := by
    simp only [nextOutput, hout, List.length_cons]
    omega
  exact { hs with
    sent := fun n closest again h => hnext ▸ hs.sent n closest again h
    outputRoom := fun n hn hlt => by
      simp only at hn
      exact hs.outputRoom n (by omega) (hnext ▸ hlt) }

theorem Wf.loopMoved (hs : Wf own s) {receiver : Nat} (h : LoopMoved P s receiver s') : Wf own s' := by
  cases h with
  | stays => exact hs
  | @handles i rest dht hloop hout hexplore =>
    have hdht := explore_addr (P := P) s.dht i
    rw [hexplore] at hdht
    refine ((hs.withStore hdht).handled hout).setLoop (fun n hn => ?_) (fun j hj => ?_) fun n hn => ?_
    · exact ResultLoop.noConfusion (hloop.symm.trans hn)
    · split at hj
      · next hdisc =>
        have hnew := equals_own_of_discovers hdisc
        rw [hs.addr] at hnew
        injection hj with hj
        rwa [← hj]
      · cases hj
    · split at hn <;> cases hn
  | crashes _ hdht => exact (hs.withStore hdht).crash
  | sends hloop hsend => exact hs.sendLoop hloop hsend
  | @passes n hloop hn =>
    refine hs.setLoop (fun m hm => ?_) (fun i hi => ResultLoop.noConfusion hi) fun m hm => ResultLoop.noConfusion hm
    cases hloop.symm.trans hm
    exact hn

theorem Wf.step (hs : Wf own s) (e : Event) : Wf own (s.step P e) := by
  unfold Explorer.step
  split
  · exact hs
  · cases e with
    | spawn =>
      have hold : ∀ {t : Tick}, t ∈ s.ticks ++ [.ready] → t ∈ s.ticks ∨ t = .ready := fun ht =>
        (List.mem_append.mp ht).imp_right List.mem_singleton.mp
      refine ⟨hs.addr, hs.input, hs.loop, fun t ht => ?_, fun h => ?_, hs.loopSent, fun n closest again h => ?_,
        fun n hn hlt => ?_, fun n hn hlt => ?_⟩
      · rcases hold ht with ht | rfl
        · exact hs.ticks t ht
        · trivial
      · exact hs.waits ((hold h).resolve_right fun h => Tick.noConfusion h)
      · exact hs.sent n closest again ((hold h).resolve_right fun h => Tick.noConfusion h)
      · exact (hs.inputRoom n hn hlt).imp_right fun ⟨closest, h⟩ => ⟨closest, List.mem_append_left _ h⟩
      · obtain ⟨closest, again, h⟩ := hs.outputRoom n hn hlt
        exact ⟨closest, again, List.mem_append_left _ h⟩
    | tick k around =>
      simp only
      split
      · exact hs
      · next hk => exact hs.moved hk (moved_advance k around _)
    | loop receiver => exact hs.loopMoved (moved_advanceLoop receiver)
    | store e => exact hs.withStore (step_addr s.dht e)

/-! ## Refilling -/

/-- The names are enough whatever the shuffle, and only then. -/
theorem forall_shuffle_iff (own : Address) (names : List (Option Entry)) :
    (∀ draw, ((Shuffle.shuffle draw names).take 3).any (otherThan own) = true) ↔ Refills own names := by
  constructor
  · intro h
    refine ⟨?_, ?_⟩
    · obtain ⟨i, hi, hother⟩ := List.any_eq_true.mp (h id)
      exact ⟨i, (Shuffle.shuffle_perm id names).subset (List.mem_of_mem_take hi), hother⟩
    · -- otherwise three that are not sent could come first
      by_contra hmany
      obtain ⟨draw, hdraw⟩ := Shuffle.exists_shuffle (List.filter_append_perm (fun i => !otherThan own i) names).symm
      obtain ⟨i, hi, hother⟩ := List.any_eq_true.mp (h draw)
      rw [hdraw, List.take_append_of_le_length (by omega)] at hi
      have hbad := List.of_mem_filter (List.mem_of_mem_take hi)
      rw [hother] at hbad
      cases hbad
  · rintro ⟨⟨i, hi, hother⟩, hfew⟩ draw
    by_contra hnone
    rw [Bool.not_eq_true, List.any_eq_false] at hnone
    have hperm := Shuffle.shuffle_perm draw names
    by_cases hlen : names.length < 3
    · rw [List.take_of_length_le (by rw [hperm.length_eq]; omega)] at hnone
      exact hnone i (hperm.mem_iff.mpr hi) hother
    · have hall : ((Shuffle.shuffle draw names).take 3).filter (fun i => !otherThan own i) =
          (Shuffle.shuffle draw names).take 3 := by
        rw [List.filter_eq_self]
        intro j hj
        rw [Bool.not_eq_true', ← Bool.not_eq_true]
        exact hnone j hj
      have hsub := ((List.take_sublist 3 (Shuffle.shuffle draw names)).filter fun i => !otherThan own i).length_le
      rw [hall, List.length_take, hperm.length_eq, (hperm.filter _).length_eq] at hsub
      omega

/-- What refills goes over in the end. -/
theorem seedExplore_of_refills {dht : NetDB} {random : Option Address} {names : List (Option Entry)}
    (hnames : (seedNames P dht random).2 = .ok names) (hrefills : Refills own names) (draw : Nat → Nat) :
    ∃ closest, (seedExplore P dht random draw).2 = .ok closest ∧ closest.any (otherThan own) = true := by
  have hany := (forall_shuffle_iff own names).mpr hrefills draw
  refine ⟨(Shuffle.shuffle draw names).take 3, ?_, hany⟩
  have hne : (Shuffle.shuffle draw names).isEmpty = false := by
    cases hl : Shuffle.shuffle draw names with
    | nil =>
      rw [hl] at hany
      cases hany
    | cons => rfl
  unfold seedExplore
  split
  · next h =>
    rw [h] at hnames
    cases hnames
  · next h =>
    rw [h] at hnames
    injection hnames with hnames
    subst hnames
    simp only [hne]
    rfl

/-! ## Going on -/

/-- A goroutine at work keeps the job going. -/
theorem going_setTick {k : Nat} {t t' : Tick} (h : s.ticks[k]? = some t) (hidle : idle s.dht.addr t' = false) :
    Going (s.setTick k t') :=
  .inr ⟨k, t', getElem?_setTick_self h, hidle⟩

/-- A goroutine that was not at work can go anywhere. -/
theorem Going.setTick (hgo : Going s) {k : Nat} {t : Tick} (hk : s.ticks[k]? = some t)
    (hidle : idle s.dht.addr t = true) (t' : Tick) : Going (s.setTick k t') := by
  rcases hgo with hin | ⟨j, u, hj, hbusy⟩
  · exact .inl hin
  · have hne : k ≠ j := by
      rintro rfl
      rw [Option.some.inj (hk.symm.trans hj), hbusy] at hidle
      cases hidle
    exact .inr ⟨j, u, (getElem?_setTick_ne hne).trans hj, hbusy⟩

theorem Going.withStore (hgo : Going s) {dht : NetDB} (hdht : dht.addr = s.dht.addr) : Going { s with dht } := by
  rcases hgo with hin | ⟨j, u, hj, hbusy⟩
  · exact .inl hin
  · exact .inr ⟨j, u, hj, by rwa [hdht]⟩

/-- After a send the entry is in the channel, or a goroutine is about to explore it. -/
theorem going_send {receiver : Nat} {i : Entry} (hi : i.address.equals s.dht.addr = false)
    (h : s.send receiver i = some s') :
    s'.dht = s.dht ∧ (s'.input ≠ [] ∨ ∃ t, s.ticks[receiver]? = some .waiting ∧
      s'.ticks[receiver]? = some t ∧ idle s.dht.addr t = false) := by
  rcases send_cases h with ⟨hr, rfl⟩ | ⟨-, rfl⟩
  · refine ⟨rfl, .inr ⟨_, hr, getElem?_setTick_self (s := { s with taken := _ }) hr, ?_⟩⟩
    rw [received, if_neg (by rw [hi]; decide)]
    rfl
  · exact ⟨rfl, .inl (by simp)⟩

theorem Going.moved (hgo : Going s) {k : Nat} {around : Surroundings} {t : Tick} (hk : s.ticks[k]? = some t)
    (hin : ∀ i ∈ s.input, i.address.equals s.dht.addr = false)
    (hrefills : RefillsAt P s (.tick k around)) (h : Moved P s k around t s') : Going s' := by
  cases h with
  | stays => exact hgo
  | waits => exact hgo.setTick hk rfl _
  | @receives i rest hinput =>
    have hi := hin i (by rw [hinput]; exact List.mem_cons_self)
    refine .inr ⟨k, _, getElem?_setTick_self (s := { s with input := rest, taken := _ }) hk, ?_⟩
    rw [received, if_neg (by rw [hi]; decide)]
    rfl
  | worksOn _ _ _ hbusy => exact going_setTick hk hbusy
  | finds => exact .inr ⟨k, _, getElem?_setTick_self (s := { s with output := _ }) hk, rfl⟩
  | crashes _ hdht => exact hgo.withStore hdht
  | returns hne => exact .inl hne
  | failsToSeed hnil hseed =>
    obtain ⟨names, hnames, hr⟩ := hrefills hk hnil
    obtain ⟨closest, hok, -⟩ := seedExplore_of_refills hnames hr around.draw
    rw [hseed] at hok
    cases hok
  | @seeds dht closest' hnil hseed =>
    obtain ⟨names, hnames, hr⟩ := hrefills hk hnil
    obtain ⟨closest, hok, hany⟩ := seedExplore_of_refills hnames hr around.draw
    have hdht := seedExplore_addr (P := P) s.dht around.random around.draw
    rw [hseed] at hok hdht
    injection hok with hok
    refine .inr ⟨k, _, getElem?_setTick_self (s := { s with dht }) hk, ?_⟩
    change (!closest'.any (otherThan dht.addr)) = false
    rw [hok, show dht.addr = s.dht.addr from hdht, hany]
    rfl
  | @skips i rest hi =>
    -- what is left to send is the same
    have hsame : idle s.dht.addr (.seeding (i :: rest)) = idle s.dht.addr (.seeding rest) := by
      rw [idle, idle, List.any_cons, hi, Bool.false_or]
    cases hidle : idle s.dht.addr (.seeding (i :: rest)) with
    | true => exact hgo.setTick hk hidle _
    | false => exact going_setTick hk (hsame ▸ hidle)
  | @sends i rest s' hi hsend =>
    obtain ⟨hdht, hin' | ⟨u, hr, hu, hbusy⟩⟩ := going_send hi hsend
    · exact .inl hin'
    · have hne : k ≠ around.receiver := by
        rintro rfl
        cases hk.symm.trans hr
      refine .inr ⟨around.receiver, u, (getElem?_setTick_ne hne).trans hu, ?_⟩
      change idle s'.dht.addr u = false
      rwa [hdht]
  | @passes n rest _ =>
    cases hidle : idle s.dht.addr (.seeded n rest) with
    | true => exact hgo.setTick hk hidle _
    | false => exact going_setTick hk (show idle s.dht.addr (.seeding rest) = false from hidle)
  | hasSeeded => exact hgo.setTick hk rfl _

theorem Going.loopMoved (hgo : Going s) (hs : Wf own s) {receiver : Nat} (h : LoopMoved P s receiver s') :
    Going s' := by
  cases h with
  | stays => exact hgo
  | @handles i rest dht hloop hout hexplore =>
    have hdht := explore_addr (P := P) s.dht i
    rw [hexplore] at hdht
    exact hgo.withStore hdht
  | crashes _ hdht => exact hgo.withStore hdht
  | sends hloop hsend =>
    have hi := hs.loop _ hloop
    rw [← hs.addr] at hi
    obtain ⟨hdht, hin | ⟨u, hr, hu, hbusy⟩⟩ := going_send hi hsend
    · exact .inl hin
    · exact .inr ⟨receiver, u, hu, by rw [← hdht] at hbusy; exact hbusy⟩
  | passes => exact hgo

theorem Going.step (hgo : Going s) (hs : Wf own s) {e : Event} (hrefills : RefillsAt P s e) :
    Going (s.step P e) := by
  unfold Explorer.step
  split
  · exact hgo
  · cases e with
    | spawn =>
      rcases hgo with hin | ⟨j, u, hj, hbusy⟩
      · exact .inl hin
      · obtain ⟨hlt, -⟩ := List.getElem?_eq_some_iff.mp hj
        exact .inr ⟨j, u, (List.getElem?_append_left hlt).trans hj, hbusy⟩
    | tick k around =>
      simp only
      split
      · exact hgo
      · next t hk => exact hgo.moved hk (hs.addr ▸ hs.input) hrefills (moved_advance k around t)
    | loop receiver => exact hgo.loopMoved hs (moved_advanceLoop receiver)
    | store e => exact hgo.withStore (step_addr s.dht e)

/-- A job that goes on has not run dry. -/
theorem Going.not_dry (hgo : Going s) : ¬ Dry s := by
  rintro ⟨hin, -, -, hticks⟩
  rcases hgo with h | ⟨k, t, hk, hbusy⟩
  · exact h hin
  · rw [hticks t (List.mem_of_getElem? hk)] at hbusy
    cases hbusy

/-! ## Running dry -/

theorem Dry.setTick (hd : Dry s) (k : Nat) {t : Tick} (ht : idle s.dht.addr t = true) : Dry (s.setTick k t) := by
  refine ⟨hd.input, hd.output, hd.loop, fun u hu => ?_⟩
  rcases List.mem_or_eq_of_mem_set hu with hu | rfl
  · exact hd.ticks u hu
  · exact ht

theorem Dry.withStore (hd : Dry s) {dht : NetDB} (hdht : dht.addr = s.dht.addr) : Dry { s with dht } :=
  ⟨hd.input, hd.output, hd.loop, fun t ht => (congrArg (idle · t) hdht).trans (hd.ticks t ht)⟩

theorem Dry.moved (hd : Dry s) {k : Nat} {around : Surroundings} {t : Tick} (hk : s.ticks[k]? = some t)
    (h : Moved P s k around t s') : Dry s' := by
  have hidle := hd.ticks t (List.mem_of_getElem? hk)
  cases h with
  | stays => exact hd
  | waits => exact hd.setTick k rfl
  | receives hin =>
    rw [hd.input] at hin
    cases hin
  | worksOn _ hbusy =>
    rw [hbusy] at hidle
    cases hidle
  | finds => cases hidle
  | crashes hbusy =>
    rw [hbusy] at hidle
    cases hidle
  | returns => cases hidle
  | failsToSeed => cases hidle
  | seeds => cases hidle
  | skips hi =>
    rw [idle, List.any_cons, hi, Bool.false_or] at hidle
    exact hd.setTick k hidle
  | sends hi =>
    rw [idle, List.any_cons, otherThan, hi] at hidle
    cases hidle
  | passes => exact hd.setTick k hidle
  | hasSeeded => exact hd.setTick k rfl

theorem Dry.loopMoved (hd : Dry s) {receiver : Nat} (h : LoopMoved P s receiver s') : Dry s' := by
  cases h with
  | stays => exact hd
  | handles _ hout =>
    rw [hd.output] at hout
    cases hout
  | crashes hout => exact absurd hd.output hout
  | sends hloop =>
    rw [hd.loop] at hloop
    cases hloop
  | passes hloop =>
    rw [hd.loop] at hloop
    cases hloop

/-- Once dry, the job stays so. -/
theorem Dry.step (hd : Dry s) (e : Event) : Dry (s.step P e) := by
  unfold Explorer.step
  split
  · exact hd
  · cases e with
    | spawn =>
      refine ⟨hd.input, hd.output, hd.loop, fun t ht => ?_⟩
      rcases List.mem_append.mp ht with ht | ht
      · exact hd.ticks t ht
      · rw [List.mem_singleton.mp ht]
        rfl
    | tick k around =>
      simp only
      split
      · exact hd
      · next t hk => exact hd.moved hk (moved_advance k around t)
    | loop receiver => exact hd.loopMoved (moved_advanceLoop receiver)
    | store e => exact hd.withStore (step_addr s.dht e)

theorem Dry.run (hd : Dry s) (evs : List Event) : Dry (run (Explorer.step P) s evs) :=
  run_invariant hd (fun _ e hd => hd.step e) evs

/-- When the last goroutine comes to a place where it does nothing, the job is dry. -/
theorem LastAtWork.dry {k : Nat} (h : LastAtWork s k) {dht : NetDB} (hdht : dht.addr = s.dht.addr) {t : Tick}
    (ht : idle s.dht.addr t = true) : Dry ({ s with dht }.setTick k t) := by
  refine ⟨h.input, h.output, h.loop, fun u hu => ?_⟩
  obtain ⟨j, hj⟩ := List.getElem?_of_mem hu
  change idle dht.addr u = true
  rw [hdht]
  by_cases hjk : j = k
  · subst hjk
    rw [getElem?_setTick_self (s := { s with dht }) h.checking] at hj
    exact Option.some.inj hj ▸ ht
  · rw [getElem?_setTick_ne (Ne.symm hjk)] at hj
    exact h.others j u hjk hj

/-- With entries that do not refill the channel, there is a shuffle after which the job is dry. -/
theorem LastAtWork.exists_dry {k : Nat} (h : LastAtWork s k) {random : Option Address}
    {names : List (Option Entry)} (hnames : (seedNames P s.dht random).2 = .ok names)
    (hfew : ¬ Refills s.dht.addr names) :
    ∃ draw, ∀ reply receiver, Dry (s.step P (.tick k ⟨reply, random, draw, receiver⟩)) := by
  rw [← forall_shuffle_iff, not_forall] at hfew
  obtain ⟨draw, hdraw⟩ := hfew
  rw [Bool.not_eq_true] at hdraw
  refine ⟨draw, fun reply receiver => ?_⟩
  have haddr := seedNames_addr (P := P) s.dht random
  rcases hseed : seedNames P s.dht random with ⟨dht, res⟩
  rw [hseed] at hnames haddr
  simp only at hnames haddr
  subst hnames
  unfold Explorer.step
  rw [if_neg (by rw [h.runs]; decide)]
  simp only [h.checking]
  unfold advance
  have hempty : s.input.isEmpty = true := by rw [h.input]; rfl
  simp only [hempty, if_true, seedExplore, hseed]
  split
  · next heq =>
    split at heq
    · cases heq
    · cases heq
  · next heq =>
    split at heq
    · cases heq
      exact h.dry (t := .returned) haddr rfl
    · cases heq
  · next heq =>
    split at heq
    · cases heq
    · cases heq
      exact h.dry (t := .seeding _) haddr (congrArg (!·) hdraw)

/-! ## Draining -/

/-- Steps of the job alone lead from `s` to `t`. -/
def Leads (P : Prims) (s t : Explorer) : Prop := ∃ evs, (∀ e ∈ evs, e.Internal) ∧ run (Explorer.step P) s evs = t

theorem Leads.refl (s : Explorer) : Leads P s s := ⟨[], by simp, rfl⟩

theorem Leads.trans {t u : Explorer} (h : Leads P s t) (h' : Leads P t u) : Leads P s u := by
  obtain ⟨evs, hevs, rfl⟩ := h
  obtain ⟨evs', hevs', rfl⟩ := h'
  refine ⟨evs ++ evs', fun e he => ?_, run_append evs'⟩
  rcases List.mem_append.mp he with he | he
  · exact hevs e he
  · exact hevs' e he

/-- The steps that a goroutine has left before it sends no more to `ret`. -/
def Tick.work : Tick → Nat
  | .sending closest _ => 2 * closest.length + 1
  | .sent _ closest _ => 2 * closest.length + 2
  | _ => 0

/-- Those of all goroutines. -/
def work (s : Explorer) : Nat := (s.ticks.map Tick.work).sum

/-- Without a panic, the entries that were found are still to be handled, and so is the work. -/
structure Same (s t : Explorer) : Prop where
  runs : t.crashed = false
  output : t.output = s.output
  work : t.work = s.work

theorem Same.trans {t u : Explorer} (h : Same s t) (h' : Same t u) : Same s u :=
  ⟨h'.runs, h'.output.trans h.output, h'.work.trans h.work⟩

theorem length_seedExplore_le {dht dht' : NetDB} {random : Option Address} {draw : Nat → Nat}
    {closest : List (Option Entry)} (h : seedExplore P dht random draw = (dht', .ok closest)) :
    closest.length ≤ 3 := by
  unfold seedExplore at h
  split at h
  · cases h
  · simp only at h
    split at h
    · cases h
    · cases h
      exact List.length_take_le 3 _

theorem wf_startExploring {dht : NetDB} {random : Option Address} {draw : Nat → Nat}
    (h : startExploring P dht random draw = .ok s) : Wf dht.addr s := by
  have haddr := seedExplore_addr (P := P) dht random draw
  unfold startExploring at h
  split at h
  · cases h
  · next dht' closest hseed =>
    rw [hseed] at haddr
    injection h with h
    subst h
    have hready : ∀ t ∈ [Tick.ready], t = .ready := fun t ht => List.mem_singleton.mp ht
    refine ⟨haddr, fun i hi => ?_, fun i hi => ResultLoop.noConfusion hi, fun t ht => ?_, fun h => ?_,
      fun n hn => ResultLoop.noConfusion hn, fun n rest again h => ?_, fun n hn hlt => ?_, fun n hn hlt => ?_⟩
    · have hother := List.of_mem_filter (List.reduceOption_mem_iff.mp hi)
      rw [otherThan, Bool.not_eq_true'] at hother
      exact haddr ▸ hother
    · rw [hready t ht]
      trivial
    · exact Tick.noConfusion (hready _ h)
    · exact Tick.noConfusion (hready _ h)
    · -- there is room for all entries
      have hle : (closest.filter (otherThan dht'.addr)).reduceOption.length ≤ exploreBufferSize :=
        calc (closest.filter (otherThan dht'.addr)).reduceOption.length
            ≤ (closest.filter (otherThan dht'.addr)).length := List.reduceOption_length_le _
          _ ≤ closest.length := List.length_filter_le _ _
          _ ≤ 3 := length_seedExplore_le hseed
          _ ≤ exploreBufferSize := by decide
      simp only [nextInput] at hn hlt
      omega
    · simp only [nextOutput, List.length_nil] at hn hlt
      omega

end Explorer

end Zif.Node
