import Zif.Dht.Entry
import Zif.Dht.Proofs.Base58Proofs

/-!
# Proofs: what a signature covers

`Verify` checks lengths and ranges (`Entry.Checked`) and the signature over `Bytes`. `Bytes` is a
plain concatenation, so it does not determine the fields it is made of: whatever an entry holds, there
is another one with the same signed bytes for another address, and one with another list of peers it is
seeding (`bytes_ambiguous`).
-/

namespace Zif.Dht

open Go

variable {P : Prims}

namespace Entry

/-- The length and range checks of `Verify`. -/
def Checked (e : Entry) : Prop :=
  e.address.raw.length = 20 ∧ e.name.length ≤ maxEntryNameLength ∧
    e.desc.length ≤ maxEntryDescLength ∧ e.seeds.length ≤ maxEntrySeeds ∧
    publicKeySize ≤ e.publicKey.length ∧ signatureSize ≤ e.signature.length ∧
    0 < e.publicAddress.length ∧ e.publicAddress.length < maxEntryPublicAddressLength ∧
    e.port ≤ 65535

instance (e : Entry) : Decidable e.Checked := by
  unfold Checked
  infer_instance

/-- The fields that `Bytes` is made of. -/
def SameContents (e e' : Entry) : Prop :=
  e.address.raw = e'.address.raw ∧ e.name = e'.name ∧ e.desc = e'.desc ∧
    e.publicAddress = e'.publicAddress ∧ e.publicKey = e'.publicKey ∧ e.port = e'.port ∧
    e.postCount = e'.postCount ∧ e.updated = e'.updated ∧ e.collectionHash = e'.collectionHash ∧
    e.seeding = e'.seeding

instance (e e' : Entry) : Decidable (e.SameContents e') := by
  unfold SameContents
  infer_instance

/-- A guard is passed when its condition is false. -/
theorem error_ite_eq_ok {α : Type} {c : Prop} [Decidable c] {f : Fault} {next : Result α} {x : α} :
    (if c then .error f else next) = Except.ok x ↔ ¬ c ∧ next = .ok x := by
  split <;> simp_all

/-- What `Verify` accepts: the checks, a key and a signature of the right sizes, and a signature that
fits. -/
theorem verify_eq_ok_iff (e : Entry) : e.verify P = .ok () ↔
    e.Checked ∧ e.publicKey.length = publicKeySize ∧ e.signature.length = signatureSize ∧
      P.edVerify e.publicKey (e.bytes P) e.signature = true := by
  have hsig : (P.ed25519Verify e.publicKey (e.bytes P) e.signature = .ok true) ↔
      e.publicKey.length = publicKeySize ∧ e.signature.length = signatureSize ∧
        P.edVerify e.publicKey (e.bytes P) e.signature = true := by
    rw [Prims.ed25519Verify, error_ite_eq_ok]
    simp
  have htail : ∀ next : Result Unit, (do
      let verified ← P.ed25519Verify e.publicKey (e.bytes P) e.signature
      if !verified then .error (.error "Failed to verify signature") else next) = .ok () ↔
      P.ed25519Verify e.publicKey (e.bytes P) e.signature = .ok true ∧ next = .ok () := by
    intro next
    rcases P.ed25519Verify e.publicKey (e.bytes P) e.signature with f | ⟨⟨⟩⟩ <;>
      simp [bind, Except.bind]
  unfold verify Checked
  rw [error_ite_eq_ok, error_ite_eq_ok, error_ite_eq_ok, error_ite_eq_ok, error_ite_eq_ok,
    error_ite_eq_ok, htail, error_ite_eq_ok, error_ite_eq_ok, error_ite_eq_ok, hsig]
  simp only [not_not, Nat.not_lt, ge_iff_le, gt_iff_lt, Nat.not_le, Int64.not_lt,
    ← Nat.pos_iff_ne_zero, ne_eq]
  tauto

/-- An entry with the same sizes, key, signature and signed bytes passes the same checks. -/
theorem verify_of_bytes_eq {e e' : Entry} (hbytes : e'.bytes P = e.bytes P) (hchecked : e'.Checked)
    (hkey : e'.publicKey = e.publicKey) (hsig : e'.signature = e.signature)
    (h : e.verify P = .ok ()) : e'.verify P = .ok () := by
  rw [verify_eq_ok_iff] at h ⊢
  rw [hbytes, hkey, hsig]
  exact ⟨hchecked, h.2⟩

/-- What a node signs is accepted when it passes the checks. -/
theorem verify_signedBy {key : Bytes} {e : Entry} (h : (e.signedBy P key).Checked) :
    (e.signedBy P key).verify P = .ok () :=
  (verify_eq_ok_iff _).mpr ⟨h, P.edPublic_length key, P.edSign_length key _, P.edVerify_sign key _⟩

/-- The seeds are not signed. -/
theorem verify_withSeeds {e : Entry} {seeds : List Bytes} (hseeds : seeds.length ≤ maxEntrySeeds)
    (h : e.verify P = .ok ()) : ({ e with seeds } : Entry).verify P = .ok () := by
  obtain ⟨haddr, hname, hdesc, -, hrest⟩ := ((verify_eq_ok_iff e).mp h).1
  exact verify_of_bytes_eq (e := e) rfl ⟨haddr, hname, hdesc, hseeds, hrest⟩ rfl rfl h

/-- The entry under another binary address, with the old text as the cached one. -/
def readdressed (P : Prims) (raw : Bytes) (e : Entry) : Entry :=
  { e with address := { raw, encoded := e.address.string P } }

/-- The entry with an empty address at the end of the list it is seeding. -/
def seedingNobody (e : Entry) : Entry := { e with seeding := e.seeding ++ [[]] }

theorem string_ne_nil {a : Address} (ha : a.raw.length = 20) : a.string P ≠ [] := by
  unfold Address.string
  split
  · rename_i h
    exact List.length_pos_iff.mp h
  · exact List.ne_nil_of_mem (Base58.mem_encode P ha)

theorem bytes_readdressed (raw : Bytes) {e : Entry} (he : e.address.raw.length = 20) :
    (e.readdressed P raw).bytes P = e.bytes P := by
  have hstring : (e.readdressed P raw).address.string P = e.address.string P := by
    have := List.length_pos_iff.mpr (string_ne_nil (P := P) he)
    conv_lhs => rw [Address.string]
    exact if_pos this
  unfold bytes
  rw [hstring]
  rfl

theorem bytes_seedingNobody (e : Entry) : e.seedingNobody.bytes P = e.bytes P := by
  simp [bytes, seedingNobody]

/-- **The signed bytes never determine the signed fields.** For every entry that passes the length and
range checks there are one with another address and one with another list of peers it is seeding that
pass them too, have the same signed bytes, and are accepted with the same key and signature. -/
theorem bytes_ambiguous (P : Prims) (e : Entry) (he : e.Checked) :
    (∃ e' : Entry, e'.Checked ∧ e'.bytes P = e.bytes P ∧ e'.address.raw ≠ e.address.raw ∧
      ¬ e'.SameContents e ∧ (e.verify P = .ok () → e'.verify P = .ok ())) ∧
    ∃ e' : Entry, e'.Checked ∧ e'.bytes P = e.bytes P ∧ e'.seeding ≠ e.seeding ∧
      ¬ e'.SameContents e ∧ (e.verify P = .ok () → e'.verify P = .ok ()) := by
  constructor
  · obtain ⟨raw, hlen, hne⟩ : ∃ raw : Bytes, raw.length = 20 ∧ raw ≠ e.address.raw := by
      by_cases h : List.replicate 20 0 = e.address.raw
      · exact ⟨List.replicate 20 1, by simp, by rw [← h]; decide⟩
      · exact ⟨List.replicate 20 0, by simp, h⟩
    have hchecked : (e.readdressed P raw).Checked := ⟨hlen, he.2⟩
    have hbytes := bytes_readdressed (P := P) raw he.1
    exact ⟨e.readdressed P raw, hchecked, hbytes, hne, fun h => hne h.1,
      verify_of_bytes_eq hbytes hchecked rfl rfl⟩
  · have hne : e.seedingNobody.seeding ≠ e.seeding := by simp [seedingNobody]
    exact ⟨e.seedingNobody, he, bytes_seedingNobody e, hne,
      fun ⟨_, _, _, _, _, _, _, _, _, h⟩ => hne h,
      verify_of_bytes_eq (bytes_seedingNobody e) he rfl rfl⟩

/-- An entry named `name`, described by `desc`. -/
def described (name desc : Bytes) : Entry :=
  { address := { raw := List.replicate 20 0 }, name, desc, publicAddress := [98],
    publicKey := Prims.sample.edPublic [1], postCount := 0, updated := 7, signature := [],
    collectionHash := [], port := 5050, seeds := [], seeding := [], seen := 0 }

/-- The theorem at an entry that is accepted. -/
theorem bytes_ambiguous_accepted :
    let e := (described [97] []).signedBy .sample [1]
    e.verify .sample = .ok () ∧
      ∃ e' : Entry, e'.Checked ∧ e'.bytes .sample = e.bytes .sample ∧ e'.address.raw ≠ e.address.raw ∧
        ¬ e'.SameContents e ∧ (e.verify .sample = .ok () → e'.verify .sample = .ok ()) := by
  have hchecked : ((described [97] []).signedBy .sample [1]).Checked := by decide +kernel
  exact ⟨verify_signedBy hchecked,
    (bytes_ambiguous .sample ((described [97] []).signedBy .sample [1]) hchecked).1⟩

/-- One signature for the name "ab" without a description and for the name "a" described by "b". -/
theorem signature_carried_over :
    let e := (described [97, 98] []).signedBy .sample [1]
    let e' := { e with name := [97], desc := [98] }
    e.Checked ∧ e'.Checked ∧ e.bytes .sample = e'.bytes .sample ∧ ¬ e.SameContents e' ∧
      e.verify .sample = .ok () ∧ e'.verify .sample = .ok () := by
  decide +kernel

end Entry

/-! ## Small entries -/

/-- The address of the key pair that the private key `k` belongs to. -/
def sampleAddress (k : UInt8) : Address :=
  { raw := (Address.newAddress .sample (Prims.sample.edPublic [k])).raw }

/-- A small entry for the address of `owner`, updated at `updated`, signed with the key `k`. -/
def sampleEntry (owner k : UInt8) (updated : UInt64) (seeding : List Bytes := []) : Entry :=
  Entry.signedBy .sample [k]
    { address := sampleAddress owner, name := [97], desc := [], publicAddress := [98],
      publicKey := [], postCount := 0, updated, signature := [], collectionHash := [], port := 5050,
      seeds := [], seeding, seen := 0 }

theorem length_sampleAddress (k : UInt8) : (sampleAddress k).raw.length = 20 :=
  Prims.sample.blake2_length _

theorem verify_sampleEntry (owner k : UInt8) (updated : UInt64) (seeding : List Bytes) :
    (sampleEntry owner k updated seeding).verify .sample = .ok () := by
  refine Entry.verify_signedBy ⟨length_sampleAddress owner, ?_⟩
  simp [Entry.signedBy, maxEntryNameLength, maxEntryPublicAddressLength, publicKeySize, signatureSize,
    Prims.sample.edPublic_length, Prims.sample.edSign_length]

end Zif.Dht
