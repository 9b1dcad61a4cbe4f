import Zif.Dht.Proofs.EntryProofs
import Zif.Go.Proofs.ResultProofs

/-!
# Proofs: what `Verify` lets through

`Verify` is meant to return for every entry and to accept exactly the well-formed ones
(`Entry.Gatekept`). Three of its comparisons miss that: a key is only checked for being too short, so
a longer one reaches the signature check, which panics on it; a port is only checked for being too
large; and a public address of the greatest allowed length counts as too large. `gatekept_iff` says
that these are all the entries it gets wrong.
-/

namespace Zif.Dht.Entry

open Go

/-- The sizes and ranges of an entry, and a signature that fits. -/
structure WellFormed (P : Prims) (e : Entry) : Prop where
  raw : e.address.raw.length = 20
  publicKey : e.publicKey.length = publicKeySize
  signature : e.signature.length = signatureSize
  name : e.name.length ≤ maxEntryNameLength
  desc : e.desc.length ≤ maxEntryDescLength
  publicAddress : 1 ≤ e.publicAddress.length ∧ e.publicAddress.length ≤ maxEntryPublicAddressLength
  port : 0 ≤ e.port ∧ e.port ≤ 65535
  seeds : e.seeds.length ≤ maxEntrySeeds
  verifies : P.edVerify e.publicKey (e.bytes P) e.signature = true

/-- `Verify` returns, and accepts the well-formed entries only and all of them. -/
def Gatekept (P : Prims) (e : Entry) : Prop :=
  e.verify P ≠ .error .panic ∧ (e.verify P = .ok () ↔ e.WellFormed P)

/-- The checks that come before that of the key. -/
def Presentable (e : Entry) : Prop :=
  e.address.raw.length = 20 ∧ e.name.length ≤ maxEntryNameLength ∧
    e.desc.length ≤ maxEntryDescLength ∧ e.seeds.length ≤ maxEntrySeeds

/-- A key too long for the signature check, which is reached. -/
def Overlong (e : Entry) : Prop :=
  e.Presentable ∧ publicKeySize < e.publicKey.length ∧ signatureSize ≤ e.signature.length

/-- Everything `Verify` and `WellFormed` agree on. -/
def Attested (P : Prims) (e : Entry) : Prop :=
  e.Presentable ∧ e.publicKey.length = publicKeySize ∧ e.signature.length = signatureSize ∧
    P.edVerify e.publicKey (e.bytes P) e.signature = true ∧ 1 ≤ e.publicAddress.length ∧
    e.port ≤ 65535

/-- Where they differ: a public address of the greatest length, or a negative port. -/
def Borderline (e : Entry) : Prop :=
  (e.publicAddress.length = maxEntryPublicAddressLength ∧ 0 ≤ e.port) ∨
    (e.publicAddress.length < maxEntryPublicAddressLength ∧ e.port < 0)

variable {P : Prims}

theorem verify_eq_ok_iff_attested (e : Entry) : e.verify P = .ok () ↔
    e.Attested P ∧ e.publicAddress.length < maxEntryPublicAddressLength := by
  rw [verify_eq_ok_iff]
  constructor
  · rintro ⟨⟨hraw, hname, hdesc, hseeds, -, -, hpos, hlt, hport⟩, hkey, hsig, hfits⟩
    exact ⟨⟨⟨hraw, hname, hdesc, hseeds⟩, hkey, hsig, hfits, hpos, hport⟩, hlt⟩
  · rintro ⟨⟨⟨hraw, hname, hdesc, hseeds⟩, hkey, hsig, hfits, hpos, hport⟩, hlt⟩
    exact ⟨⟨hraw, hname, hdesc, hseeds, hkey.ge, hsig.ge, hpos, hlt, hport⟩, hkey, hsig, hfits⟩

theorem wellFormed_iff_attested (e : Entry) : e.WellFormed P ↔
    e.Attested P ∧ e.publicAddress.length ≤ maxEntryPublicAddressLength ∧ 0 ≤ e.port := by
  constructor
  · intro h
    exact ⟨⟨⟨h.raw, h.name, h.desc, h.seeds⟩, h.publicKey, h.signature, h.verifies,
      h.publicAddress.1, h.port.2⟩, h.publicAddress.2, h.port.1⟩
  · rintro ⟨⟨⟨hraw, hname, hdesc, hseeds⟩, hkey, hsig, hfits, hpos, hport⟩, hle, hnonneg⟩
    exact ⟨hraw, hkey, hsig, hname, hdesc, ⟨hpos, hle⟩, ⟨hnonneg, hport⟩, hseeds, hfits⟩

/-- The signature check is the only step that can panic. -/
theorem verify_eq_panic_iff (e : Entry) : e.verify P = .error .panic ↔ e.Overlong := by
  have htail : ∀ next : Bool → Result Unit, (∀ b, next b ≠ .error .panic) →
      ((P.ed25519Verify e.publicKey (e.bytes P) e.signature >>= next) = .error .panic ↔
        e.publicKey.length ≠ publicKeySize) := by
    intro next hnext
    unfold Prims.ed25519Verify
    split
    · rename_i hkey
      exact iff_of_true rfl hkey
    · rename_i hkey
      exact iff_of_false (hnext _) hkey
  unfold verify Overlong Presentable
  rw [guard_eq_panic, guard_eq_panic, guard_eq_panic, guard_eq_panic,
    guard_eq_panic, guard_eq_panic, htail]
  · simp only [ne_eq, not_not, gt_iff_lt, Nat.not_lt]
    constructor
    · rintro ⟨hraw, hname, hdesc, hseeds, hkey, hsig, hne⟩
      exact ⟨⟨hraw, hname, hdesc, hseeds⟩, Nat.lt_of_le_of_ne hkey (Ne.symm hne), hsig⟩
    · rintro ⟨⟨hraw, hname, hdesc, hseeds⟩, hkey, hsig⟩
      exact ⟨hraw, hname, hdesc, hseeds, hkey.le, hsig, hkey.ne'⟩
  · intro b
    rw [ne_eq, guard_eq_panic, guard_eq_panic, guard_eq_panic, guard_eq_panic]
    simp

/-- `Verify` does what it is meant to do exactly on the entries without an overlong key that are not on
the border it draws elsewhere. -/
theorem gatekept_iff (P : Prims) (e : Entry) :
    e.Gatekept P ↔ ¬e.Overlong ∧ ¬(e.Attested P ∧ e.Borderline) := by
  unfold Gatekept
  rw [ne_eq, verify_eq_panic_iff, verify_eq_ok_iff_attested, wellFormed_iff_attested]
  refine and_congr_right fun _ => ?_
  by_cases hatt : e.Attested P
  · simp only [hatt, true_and, Borderline]
    rcases Int64.lt_or_le e.port 0 with hport | hport
    · have : ¬ 0 ≤ e.port := Int64.not_le.mpr hport
      simp only [hport, this, and_false, and_true, false_or, iff_false]
    · have : ¬ e.port < 0 := Int64.not_lt.mpr hport
      simp only [hport, this, and_false, and_true, or_false]
      omega
  · simp [hatt]

/-- The entry named "a", published at `publicAddress` and `port`, signed with the key 1. -/
def publishedAt (publicAddress : Bytes) (port : Int64) : Entry :=
  { described [97] [] with publicAddress, port }.signedBy .sample [1]

/-- A key of 33 bytes stops the daemon. A negative port is accepted, and a public address of 253 bytes
is refused. -/
theorem verify_misses_bounds :
    ({ publishedAt [98] 5050 with publicKey := List.replicate 33 0 }).verify .sample =
        .error .panic ∧
      (publishedAt [98] (-1)).verify .sample = .ok () ∧
      (publishedAt (List.replicate 253 98) 5050).verify .sample =
        .error (.error "Public address is too large (253 char max)") ∧
      (publishedAt (List.replicate 253 98) 5050).WellFormed .sample := by
  refine ⟨by decide +kernel, by decide +kernel, by decide +kernel, ?_⟩
  constructor <;> decide +kernel

end Zif.Dht.Entry
