import CommandLink.Proofs.Checksum.Patterns
import CommandLink.Proofs.Frame.Encode

namespace CommandLink

open Checksum (ofBits seed bits)

/-- The octets of a frame that its checksum covers, and the checksum. -/
def Coverage.covered : Coverage → List UInt8 → List UInt8
  | .tagAndPayload, frame => frame
  | .payloadOnly, frame => frame.drop Tag.width

theorem Coverage.checksum_eq (c : Coverage) (t : Tag) (payload : List UInt8) :
    c.checksum t payload = ofBits seed (c.covered (t.toOctets ++ payload)) := by
  cases c with
  | tagAndPayload =>
    rw [checksum, Checksum.Register.addAll_eq, Checksum.Register.addAll_eq, covered,
      Checksum.ofBits_append]
  | payloadOnly =>
    rw [checksum, Checksum.Register.addAll_eq]
    rfl

theorem Coverage.covered_append (c : Coverage) (t : Tag) (q q' : List UInt8) :
    c.covered (t.toOctets ++ q ++ q') = c.covered (t.toOctets ++ q) ++ q' := by
  cases c <;> rfl

theorem Checksum.ofBits_pair (c : UInt16) (lo hi : UInt8) :
    ofBits c [lo, hi] = 0 ↔ word16 lo hi = c := by
  have hlen : (bits [lo, hi]).length ≤ 16 := Nat.le_of_ble_eq_true rfl
  rw [ofBits_eq, ← shifts_word c hlen, shifts_eq_zero_iff, word_pair, UInt16.xor_eq_zero_iff,
    eq_comm]

namespace Frame

variable {c : Coverage} {frame mask : List UInt8} {r : Tag × List UInt8}

theorem exists_layout (h : Tag.width + Checksum.width ≤ frame.length) :
    ∃ t payload lo hi, frame = Tag.toOctets t ++ payload ++ [lo, hi] := by
  obtain ⟨t, ht⟩ : ∃ t, Tag.ofOctets? (frame.take (frame.length - Checksum.width)) = some t := by
    rw [← Option.ne_none_iff_exists', Ne, Tag.ofOctets?_eq_none_iff, List.length_take]
    omega
  obtain ⟨payload, hp⟩ := Tag.ofOctets?_eq_some ht
  have htwo : (frame.drop (frame.length - Checksum.width)).length = 2 := by
    rw [List.length_drop, Nat.sub_sub_self (by omega)]
    rfl
  obtain ⟨lo, hi, hend⟩ := List.length_eq_two.mp htwo
  refine ⟨t, payload, lo, hi, ?_⟩
  rw [← hend, ← hp, List.take_append_drop]

theorem verify_layout (c : Coverage) (t : Tag) (payload : List UInt8) (lo hi : UInt8) :
    verify c (t.toOctets ++ payload ++ [lo, hi]) =
      if word16 lo hi = c.checksum t payload then .ok (t, payload)
      else .error .checksumMismatch := by
  have htag : Tag.ofOctets? (t.toOctets ++ payload ++ [lo, hi]) = some t := rfl
  have hlen : (t.toOctets ++ payload ++ [lo, hi]).length =
      (t.toOctets ++ payload).length + Checksum.width := List.length_append
  have hbody : (t.toOctets ++ payload).length = Tag.width + payload.length := List.length_append
  have hpos : 0 < Checksum.width := by decide
  have hpayload : (t.toOctets ++ payload).drop Tag.width = payload := rfl
  rw [verify]
  simp only [htag]
  rw [hlen, Nat.add_sub_cancel, List.take_left, List.drop_left, hpayload,
    if_neg (by omega), if_neg (by omega)]
  simp only [endsIn, decide_eq_true_eq]

/-- A frame as long as its request is whole: all that can be wrong with it is the
checksum. -/
theorem verify_request {m : Nat} {t : Tag} (ht : Tag.ofOctets? frame = some t)
    (hlen : frame.length = length c m) :
    (∃ payload, payload.length = m ∧ verify c frame = .ok (t, payload)) ∨
      verify c frame = .error .checksumMismatch := by
  by_cases hsum : c.hasChecksum m = true
  · have hwhole : frame.length = Tag.width + m + Checksum.width := by
      rw [hlen, length, if_pos hsum]
    have hwide : Tag.width + Checksum.width ≤ frame.length := by omega
    obtain ⟨t', payload, lo, hi, rfl⟩ := exists_layout hwide
    obtain rfl : t' = t := Option.some.inj ht
    rw [verify_layout]
    by_cases hw : word16 lo hi = c.checksum t' payload
    · refine .inl ⟨payload, ?_, if_pos hw⟩
      rw [List.length_append, List.length_append] at hwhole
      have hwidth : t'.toOctets.length = Tag.width := rfl
      have htwo : [lo, hi].length = Checksum.width := rfl
      omega
    · exact .inr (if_neg hw)
  · obtain ⟨rfl, rfl⟩ : c = .payloadOnly ∧ m = 0 := by
      cases c <;> simp_all [Coverage.hasChecksum]
    refine .inl ⟨[], rfl, ?_⟩
    have hfour : frame.length = Tag.width := hlen
    rw [verify, ht]
    exact if_pos ⟨hfour, rfl⟩

/-- A register that takes in its own checksum comes out zero. -/
theorem verify_eq_of_le (h : Tag.width + Checksum.width ≤ frame.length) :
    (ofBits seed (c.covered frame) = 0 ∧ ∃ r, verify c frame = .ok r) ∨
      (ofBits seed (c.covered frame) ≠ 0 ∧ verify c frame = .error .checksumMismatch) := by
  obtain ⟨t, payload, lo, hi, rfl⟩ := exists_layout h
  have hsum : ofBits seed (c.covered (t.toOctets ++ payload ++ [lo, hi])) = 0 ↔
      word16 lo hi = c.checksum t payload := by
    rw [Coverage.covered_append, Checksum.ofBits_append, Checksum.ofBits_pair, c.checksum_eq]
  rw [verify_layout, Ne, hsum]
  by_cases hw : word16 lo hi = c.checksum t payload
  · rw [if_pos hw]
    exact .inl ⟨hw, _, rfl⟩
  · rw [if_neg hw]
    exact .inr ⟨hw, rfl⟩

/-- Short of a checksum there is at most a tag. -/
theorem length_of_verify (h : verify c frame = .ok r) :
    (frame.length = Tag.width ∧ c = .payloadOnly) ∨
      Tag.width + Checksum.width ≤ frame.length := by
  rw [verify] at h
  split at h
  · cases h
  · split at h
    · next hbare =>
      cases c with
      | tagAndPayload => cases hbare.2
      | payloadOnly => exact .inl ⟨hbare.1, rfl⟩
    · split at h
      · cases h
      · next hlong => exact .inr (Nat.le_of_not_lt hlong)

/-- Flip the bits of a frame that a mask sets. -/
def damage (frame mask : List UInt8) : List UInt8 := List.zipWith (· ^^^ ·) frame mask

theorem length_damage (hlen : mask.length = frame.length) :
    (damage frame mask).length = frame.length := by
  rw [damage, List.length_zipWith, hlen, Nat.min_self]

theorem covered_damage (c : Coverage) (frame mask : List UInt8) :
    c.covered (damage frame mask) =
      List.zipWith (· ^^^ ·) (c.covered frame) (c.covered mask) := by
  cases c with
  | tagAndPayload => rfl
  | payloadOnly => exact List.drop_zipWith

/-- The checksum is linear, so that damage goes unseen only where the mask alone
leads a register from zero back to zero. -/
theorem verify_damage (hok : verify c frame = .ok r) (hlen : mask.length = frame.length)
    (hmask : ofBits 0 (c.covered mask) ≠ 0) :
    verify c (damage frame mask) = .error .checksumMismatch := by
  have hlong : Tag.width + Checksum.width ≤ frame.length := by
    obtain ⟨hshort, rfl⟩ | hlong := length_of_verify hok
    · have hnil : Coverage.payloadOnly.covered mask = [] :=
        List.drop_eq_nil_of_le (by omega)
      rw [hnil] at hmask
      exact absurd rfl hmask
    · exact hlong
  have hcovered : (c.covered frame).length = (c.covered mask).length := by
    cases c with
    | tagAndPayload => exact hlen.symm
    | payloadOnly => rw [Coverage.covered, Coverage.covered, List.length_drop, List.length_drop, hlen]
  have hzero : ofBits seed (c.covered frame) = 0 := by
    obtain ⟨hzero, -⟩ | ⟨-, herr⟩ := verify_eq_of_le (c := c) hlong
    · exact hzero
    · rw [hok] at herr
      cases herr
  have hsum : ofBits seed (c.covered (damage frame mask)) = ofBits 0 (c.covered mask) := by
    rw [covered_damage, ← UInt16.xor_zero (a := seed), Checksum.ofBits_xor _ _ hcovered,
      hzero, UInt16.zero_xor]
  obtain ⟨hbad, -⟩ | ⟨-, herr⟩ := verify_eq_of_le (c := c) ((length_damage hlen).symm ▸ hlong)
  · exact absurd (hsum ▸ hbad) hmask
  · exact herr

/-- A mask leaves alone the tag that no checksum covers. -/
def Spares (c : Coverage) (mask : List UInt8) : Prop :=
  c = .payloadOnly → ∀ b ∈ mask.take Tag.width, b = 0

theorem ofBits_zeros {bs : List UInt8} (h : ∀ b ∈ bs, b = 0) : ofBits 0 bs = 0 := by
  induction bs with
  | nil => rfl
  | cons b bs ih =>
    obtain ⟨rfl, hbs⟩ := List.forall_mem_cons.mp h
    exact ih hbs

theorem ofBits_covered (hspares : Spares c mask) : ofBits 0 (c.covered mask) = ofBits 0 mask := by
  cases c with
  | tagAndPayload => rfl
  | payloadOnly =>
    rw [← List.take_append_drop Tag.width mask, Checksum.ofBits_append, List.take_append_drop,
      ofBits_zeros (hspares rfl)]
    rfl

/-- Bit `i` of octet `j` has position `8 * j + i`. The bits that a mask sets are a
burst when sixteen positions hold them all. -/
def Burst (mask : List UInt8) : Prop :=
  ∃ start, ∀ j (hj : j < mask.length), ∀ i < 8, mask[j].toBitVec.getLsbD i = true →
    start ≤ 8 * j + i ∧ 8 * j + i < start + 16

theorem verify_burst (hok : verify c frame = .ok r) (hlen : mask.length = frame.length)
    (hspares : Spares c mask) (hset : ∃ b ∈ mask, b ≠ 0) (hburst : Burst mask) :
    verify c (damage frame mask) = .error .checksumMismatch := by
  obtain ⟨start, hburst⟩ := hburst
  have hbits : ∀ p, (bits mask)[p]? = some true → start ≤ p ∧ p < start + 16 := by
    intro p hp
    have hi : p % 8 < 8 := Nat.mod_lt p (by decide)
    have hsplit : 8 * (p / 8) + p % 8 = p := Nat.div_add_mod p 8
    rw [← hsplit, Checksum.getElem?_bits mask hi, Option.map_eq_some_iff] at hp
    obtain ⟨b, hb, hbit⟩ := hp
    obtain ⟨hj, rfl⟩ := List.getElem?_eq_some_iff.mp hb
    have hwithin := hburst (p / 8) hj (p % 8) hi hbit
    rwa [hsplit] at hwithin
  refine verify_damage hok hlen fun hzero => ?_
  rw [ofBits_covered hspares, Checksum.ofBits_eq] at hzero
  obtain ⟨b, hb, hne⟩ := hset
  exact hne (Checksum.eq_zero_of_bits (Checksum.forall_false_of_burst hbits hzero) b hb)

theorem getElem_damage {i : Nat} (hf : i < frame.length) (hm : i < mask.length)
    (hi : i < (damage frame mask).length) : (damage frame mask)[i] = frame[i] ^^^ mask[i] :=
  List.getElem_zipWith

/-- Any two frames of one length differ by a mask. -/
theorem damage_damage {frame' : List UInt8} (hlen : frame'.length = frame.length) :
    damage frame (damage frame frame') = frame' := by
  have hmask := length_damage hlen
  refine List.ext_getElem ((length_damage hmask).trans hlen.symm) fun i _ hi => ?_
  have hf : i < frame.length := hlen ▸ hi
  rw [getElem_damage hf (hmask.symm ▸ hf), getElem_damage hf hi, ← UInt8.xor_assoc,
    UInt8.xor_self, UInt8.zero_xor]

theorem exists_ne_zero_of_ne {frame' : List UInt8} (hlen : frame'.length = frame.length)
    (hne : frame' ≠ frame) : ∃ b ∈ damage frame frame', b ≠ 0 := by
  by_contra hnone
  push Not at hnone
  refine hne (List.ext_getElem hlen fun i hi hf => ?_)
  have hb := hnone _ (List.getElem_mem ((length_damage hlen).symm ▸ hf))
  rw [getElem_damage hf hi, UInt8.xor_eq_zero_iff] at hb
  exact hb.symm

theorem spares_damage {frame' : List UInt8}
    (htag : c = .payloadOnly → frame'.take Tag.width = frame.take Tag.width) :
    Spares c (damage frame frame') := by
  intro hc b hb
  rw [damage, List.take_zipWith, htag hc, List.zipWith_self] at hb
  obtain ⟨b', -, rfl⟩ := List.mem_map.mp hb
  exact UInt8.xor_self

theorem burst_damage {frame' : List UInt8} {j : Nat} (hlen : frame'.length = frame.length)
    (hsame : ∀ i, i ≠ j → i ≠ j + 1 → frame'[i]? = frame[i]?) : Burst (damage frame frame') := by
  refine ⟨8 * j, fun k hk i hi hset => ?_⟩
  by_cases hnear : k = j ∨ k = j + 1
  · omega
  · have hf : k < frame.length := length_damage hlen ▸ hk
    have hm : k < frame'.length := hlen.symm ▸ hf
    have hk' := hsame k (fun h => hnear (.inl h)) (fun h => hnear (.inr h))
    rw [List.getElem?_eq_getElem hm, List.getElem?_eq_getElem hf, Option.some_inj] at hk'
    rw [getElem_damage hf hm, hk', UInt8.xor_self] at hset
    exact absurd hset (Bool.eq_false_iff.mp BitVec.getLsbD_zero)

/-- A burst shows in the checksum, wherever it lies. So does any change to two
neighbouring octets. -/
theorem bursts_detected (hok : verify c frame = .ok r) :
    (∀ mask, mask.length = frame.length → Spares c mask → (∃ b ∈ mask, b ≠ 0) → Burst mask →
      verify c (damage frame mask) = .error .checksumMismatch) ∧
    ∀ frame' j, frame'.length = frame.length → frame' ≠ frame →
      (c = .payloadOnly → frame'.take Tag.width = frame.take Tag.width) →
      (∀ i, i ≠ j → i ≠ j + 1 → frame'[i]? = frame[i]?) →
      verify c frame' = .error .checksumMismatch := by
  refine ⟨fun mask => verify_burst hok, fun frame' j hlen hne htag hsame => ?_⟩
  have hbad := verify_burst hok (length_damage hlen) (spares_damage htag)
    (exists_ne_zero_of_ne hlen hne) (burst_damage hlen hsame)
  rwa [damage_damage hlen] at hbad

/-- The last bit of the payload and seven bits of the checksum behind it. -/
theorem bursts_detected_ping :
    let t := Tag.ofChars 'p' 'i' 'n' 'g'
    let mask : List UInt8 := [0, 0, 0, 0, 0, 0, 0x80, 0x7f, 0]
    verify .payloadOnly (encode .payloadOnly t [1, 2, 3]) = .ok (t, [1, 2, 3]) ∧
      mask.length = (encode .payloadOnly t [1, 2, 3]).length ∧ Spares .payloadOnly mask ∧
      Burst mask ∧
      verify .payloadOnly (damage (encode .payloadOnly t [1, 2, 3]) mask) =
        .error .checksumMismatch := by
  intro t mask
  have hok := verify_encode .payloadOnly t [1, 2, 3]
  have hlen : mask.length = (encode .payloadOnly t [1, 2, 3]).length :=
    (length_encode .payloadOnly t [1, 2, 3]).symm
  have hspares : Spares .payloadOnly mask := by
    have htag : ∀ b ∈ mask.take Tag.width, b = 0 := by simp [mask, Tag.width]
    exact fun _ => htag
  have hset : ∃ b ∈ mask, b ≠ 0 := ⟨0x80, by decide, by decide⟩
  have hburst : Burst mask := ⟨55, by decide⟩
  exact ⟨hok, hlen, hspares, hburst, (bursts_detected hok).1 mask hlen hspares hset hburst⟩

/-- How many bits a mask sets. -/
def flips (mask : List UInt8) : Nat := (bits mask).count true

theorem verify_odd (hok : verify .tagAndPayload frame = .ok r)
    (hlen : mask.length = frame.length) (hodd : Odd (flips mask)) :
    verify .tagAndPayload (damage frame mask) = .error .checksumMismatch := by
  refine verify_damage hok hlen ?_
  rw [Coverage.covered, Checksum.ofBits_eq]
  exact Checksum.foldl_ne_zero_of_odd hodd

theorem verify_two (hok : verify .tagAndPayload frame = .ok r)
    (hlen : mask.length = frame.length) (hfits : frame.length ≤ 4095) (htwo : flips mask = 2) :
    verify .tagAndPayload (damage frame mask) = .error .checksumMismatch := by
  refine verify_damage hok hlen ?_
  rw [Coverage.covered, Checksum.ofBits_eq]
  refine Checksum.foldl_ne_zero_of_two htwo ?_
  rw [Checksum.length_bits]
  omega

theorem flips_detected (hok : verify .tagAndPayload frame = .ok r)
    (hlen : mask.length = frame.length) :
    (Odd (flips mask) → verify .tagAndPayload (damage frame mask) = .error .checksumMismatch) ∧
    (frame.length ≤ 4095 → flips mask = 2 →
      verify .tagAndPayload (damage frame mask) = .error .checksumMismatch) ∧
    ∀ n ≤ 4095, frame.length ≤ n → 1 ≤ flips mask → flips mask ≤ 3 →
      verify .tagAndPayload (damage frame mask) = .error .checksumMismatch := by
  refine ⟨verify_odd hok hlen, verify_two hok hlen, fun n hn hfits hpos hle => ?_⟩
  obtain hone | htwo | hthree : flips mask = 1 ∨ flips mask = 2 ∨ flips mask = 3 := by omega
  · exact verify_odd hok hlen (hone ▸ by decide)
  · exact verify_two hok hlen (Nat.le_trans hfits hn) htwo
  · exact verify_odd hok hlen (hthree ▸ by decide)

theorem flips_detected_ping :
    let t := Tag.ofChars 'p' 'i' 'n' 'g'
    let mask : List UInt8 := [0x81, 0, 0, 0, 0, 0]
    verify .tagAndPayload (encode .tagAndPayload t []) = .ok (t, []) ∧
      mask.length = (encode .tagAndPayload t []).length ∧ flips mask = 2 ∧
      verify .tagAndPayload (damage (encode .tagAndPayload t []) mask) =
        .error .checksumMismatch := by
  intro t mask
  have hok := verify_encode .tagAndPayload t []
  have hlen : mask.length = (encode .tagAndPayload t []).length :=
    (length_encode .tagAndPayload t []).symm
  have htwo : flips mask = 2 := by decide
  exact ⟨hok, hlen, htwo, (flips_detected hok hlen).2.1 (hlen ▸ by decide) htwo⟩

end Frame

end CommandLink
