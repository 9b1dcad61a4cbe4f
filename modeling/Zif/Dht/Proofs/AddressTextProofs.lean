import Zif.Dht.Proofs.AddressProofs

/-!
# Proofs: the text form of an address

`DecodeAddress` undoes `String` for every binary address. It never looks at the version byte or the
checksum, and cuts them off without asking whether they are there: of the strings over the alphabet
it treats only the texts of addresses as it should (`faithful_iff_illegal_or_text`).
-/

namespace Zif.Dht.Address

open Go

theorem decodeAddress_string (P : Prims) :
    (∀ raw : Bytes,
      ({ raw } : Address).string P =
          Base58.encodeBigOnto [] (BigEndian.value (Base58.withChecksum P 0x51 raw)) ∧
        decodeAddress (({ raw } : Address).string P) = .ok { raw }) ∧
      ∀ raw raw' : Bytes,
        ({ raw } : Address).string P = ({ raw := raw' } : Address).string P → raw = raw' := by
  refine ⟨fun raw => ⟨?_, ?_⟩, fun raw raw' h => ?_⟩
  · have hcons : Base58.withChecksum P 0x51 raw =
        0x51 :: (raw ++ (P.sha256 (P.sha256 (0x51 :: raw))).take 4) := rfl
    rw [string_of_encoded_nil, Base58.encodeBigOnto_eq, encodeRaw, Base58.encode, hcons]
    rfl
  · rw [string_of_encoded_nil, decodeAddress_encodeRaw]
  · rw [string_of_encoded_nil, string_of_encoded_nil] at h
    exact encodeRaw_injective P h

/-- A text is decoded or reported, and a decoded text is written again as it was. -/
def Faithful (P : Prims) (s : Bytes) : Prop :=
  decodeAddress s ≠ .error .panic ∧ ∀ a, decodeAddress s = .ok a → a.string P = s

theorem decodeAddress_of_decode {s raw : Bytes} (h : Base58.decode s = .ok raw) :
    decodeAddress s = .ok { raw } := by
  rw [decodeAddress, h]
  rfl

theorem decodeAddress_of_error {s : Bytes} {e : Fault} (h : Base58.decode s = .error e) :
    decodeAddress s = .error e := by
  rw [decodeAddress, h]
  rfl

/-- `DecodeAddress` is faithful on the texts with a byte outside the alphabet and on the texts of
addresses, and on no other. -/
theorem faithful_iff_illegal_or_text (P : Prims) (s : Bytes) :
    Faithful P s ↔ Base58.Illegal s ∨ ∃ raw, s = encodeRaw P raw := by
  by_cases hillegal : Base58.Illegal s
  · obtain ⟨k, hk⟩ := Base58.decode_illegal hillegal
    refine iff_of_true ⟨?_, ?_⟩ (.inl hillegal)
    · rw [decodeAddress_of_error hk]
      intro h
      cases h
    · rw [decodeAddress_of_error hk]
      intro a h
      cases h
  · constructor
    · rintro ⟨hpanic, htext⟩
      rcases Base58.decode_legal hillegal with hd | ⟨raw, hd⟩
      · exact absurd (decodeAddress_of_error hd) hpanic
      · have h := htext _ (decodeAddress_of_decode hd)
        rw [string_of_encoded_nil] at h
        exact .inr ⟨raw, h.symm⟩
    · rintro (h | ⟨raw, rfl⟩)
      · exact absurd h hillegal
      · rw [Faithful, decodeAddress_encodeRaw]
        refine ⟨?_, ?_⟩
        · intro h
          cases h
        · intro a h
          injection h with h
          rw [← h, string_of_encoded_nil]

/-- The empty text stops the daemon. A text with another version byte and one with a wrong checksum
are both accepted. -/
theorem decodeAddress_accepts_others :
    decodeAddress [] = .error .panic ∧
      decodeAddress (Base58.encode Prims.sample 0x52 (List.replicate 20 7)) =
        .ok { raw := List.replicate 20 7 } ∧
      ¬Faithful Prims.sample (Base58.encode Prims.sample 0x52 (List.replicate 20 7)) ∧
      decodeAddress (Base58.encodeBig (BigEndian.value (0x51 :: List.replicate 24 7))) =
        .ok { raw := List.replicate 20 7 } ∧
      ¬Faithful Prims.sample (Base58.encodeBig (BigEndian.value (0x51 :: List.replicate 24 7))) := by
  obtain ⟨h1, h2, hversion, hchecksum⟩ :
      decodeAddress (Base58.encode Prims.sample 0x52 (List.replicate 20 7)) =
        .ok { raw := List.replicate 20 7 } ∧
      decodeAddress (Base58.encodeBig (BigEndian.value (0x51 :: List.replicate 24 7))) =
        .ok { raw := List.replicate 20 7 } ∧
      string Prims.sample { raw := List.replicate 20 7 } ≠
        Base58.encode Prims.sample 0x52 (List.replicate 20 7) ∧
      string Prims.sample { raw := List.replicate 20 7 } ≠
        Base58.encodeBig (BigEndian.value (0x51 :: List.replicate 24 7)) := by decide +kernel
  exact ⟨rfl, h1, fun hf => hversion (hf.2 _ h1), h2, fun hf => hchecksum (hf.2 _ h2)⟩

end Zif.Dht.Address
