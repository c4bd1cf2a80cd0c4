import CommandLink.Frame.Basic
import CommandLink.Proofs.Command.Sound
import Mathlib.Data.UInt

namespace CommandLink

theorem word16_octets16 (w : UInt16) : word16 w.toUInt8 (w >>> 8).toUInt8 = w := by
  have hlo : w.toNat % 256 < 2 ^ 8 := Nat.mod_lt _ (by decide)
  have hhi : w.toNat / 256 < 256 := Nat.div_lt_of_lt_mul w.toNat_lt
  have hor := Nat.two_pow_add_eq_or_of_lt hlo (w.toNat / 256)
  apply UInt16.toNat_inj.mp
  calc (word16 w.toUInt8 (w >>> 8).toUInt8).toNat
    _ = w.toNat % 256 ||| w.toNat / 256 % 256 * 256 % 65536 := by
      simp [word16, Nat.shiftRight_eq_div_pow, Nat.shiftLeft_eq]
    _ = w.toNat % 256 ||| 2 ^ 8 * (w.toNat / 256) := by
      congr 1
      omega
    _ = w.toNat := by
      rw [Nat.or_comm, ← hor]
      omega

namespace Frame

theorem endsIn_octets16 (w : UInt16) : endsIn w (octets16 w) = true := by
  simp only [octets16, endsIn, word16_octets16, decide_true]

theorem length_trailer (c : Coverage) (t : Tag) (payload : List UInt8) :
    (trailer c t payload).length = if c.hasChecksum payload.length then Checksum.width else 0 := by
  rw [trailer]
  split <;> rfl

theorem length_encode (c : Coverage) (t : Tag) (payload : List UInt8) :
    (encode c t payload).length = length c payload.length := by
  rw [encode, List.length_append, List.length_append, length_trailer]
  rfl

theorem tag_prefix_encode (c : Coverage) (t : Tag) (payload : List UInt8) :
    t.toOctets <+: encode c t payload := by
  rw [encode, List.append_assoc]
  exact List.prefix_append _ _

/-- A frame can be read back. Without a checksum its length tells that it has no
payload. -/
theorem verify_encode (c : Coverage) (t : Tag) (payload : List UInt8) :
    verify c (encode c t payload) = .ok (t, payload) := by
  have htag : Tag.ofOctets? (encode c t payload) = some t := by
    rw [encode, List.append_assoc]
    exact Tag.ofOctets?_toOctets t _
  have hlen := length_encode c t payload
  have hw : Tag.width = 4 := rfl
  have hcw : Checksum.width = 2 := rfl
  rw [verify]
  simp only [htag]
  cases hsum : c.hasChecksum payload.length with
  | false =>
    have hnone : payload.length = 0 ∧ c.hasChecksum 0 = false := by
      cases c with
      | tagAndPayload => simp [Coverage.hasChecksum] at hsum
      | payloadOnly => exact ⟨by simpa [Coverage.hasChecksum] using hsum, rfl⟩
    have hfour : (encode c t payload).length = Tag.width := by
      rw [hlen, length, hsum, hnone.1]
      rfl
    rw [if_pos ⟨hfour, hnone.2⟩, List.length_eq_zero_iff.mp hnone.1]
  | true =>
    have hsix : (encode c t payload).length = Tag.width + payload.length + Checksum.width := by
      rw [hlen, length, hsum]
      rfl
    have htrailer : trailer c t payload = octets16 (c.checksum t payload) := by
      rw [trailer, if_pos hsum]
    have hbody : (encode c t payload).length - Checksum.width =
        (t.toOctets ++ payload).length := by
      rw [hsix, List.length_append]
      rfl
    rw [if_neg (by omega), if_neg (by omega), hbody, encode, List.take_left, List.drop_left,
      htrailer]
    have hpayload : (t.toOctets ++ payload).drop Tag.width = payload := rfl
    simp only [hpayload, endsIn_octets16, ↓reduceIte]

end Frame

end CommandLink
