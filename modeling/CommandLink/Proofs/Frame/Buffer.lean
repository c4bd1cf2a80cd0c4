import CommandLink.Proofs.Frame.Damage

namespace CommandLink

theorem octets16_word16 (lo hi : UInt8) : octets16 (word16 lo hi) = [lo, hi] := by
  have hlo := lo.toNat_lt
  have hhi := hi.toNat_lt
  have hword : (word16 lo hi).toNat = lo.toNat + 256 * hi.toNat := by
    have hor := Nat.two_pow_add_eq_or_of_lt hlo hi.toNat
    rw [Nat.add_comm, hor, Nat.or_comm]
    simp [word16, Nat.shiftLeft_eq]
    congr 1
    omega
  have hlow : (word16 lo hi).toUInt8 = lo := by
    apply UInt8.toNat_inj.mp
    rw [UInt16.toNat_toUInt8, hword]
    omega
  have hhigh : (word16 lo hi >>> 8).toUInt8 = hi := by
    apply UInt8.toNat_inj.mp
    rw [UInt16.toNat_toUInt8, UInt16.toNat_shiftRight, hword, Nat.shiftRight_eq_div_pow]
    simp
    omega
  rw [octets16, hlow, hhigh]

theorem take_overwriteAt {out bs : List UInt8} {i : Nat} (h : i ≤ out.length) :
    (overwriteAt out i bs).take (i + bs.length) = out.take i ++ bs := by
  rw [overwriteAt, List.take_append_of_le_length, List.take_of_length_le]
  · rw [List.length_append, List.length_take]
    omega
  · rw [List.length_append, List.length_take]
    omega

theorem drop_overwriteAt {out bs : List UInt8} {i j : Nat} (h : i + bs.length ≤ j)
    (hi : i ≤ out.length) : (overwriteAt out i bs).drop j = out.drop j := by
  have hfront : (out.take i ++ bs).length = i + bs.length := by
    rw [List.length_append, List.length_take, Nat.min_eq_left hi]
  rw [overwriteAt, List.drop_append, List.drop_of_length_le (hfront ▸ h), List.nil_append,
    List.drop_drop, hfront, Nat.add_sub_cancel' h]

namespace Frame

variable {c : Coverage} {t : Tag} {payload frame out : List UInt8}

theorem width_le_length (c : Coverage) (n : Nat) : Tag.width + n ≤ length c n :=
  Nat.le_add_right _ _

theorem length_eq_add_trailer (c : Coverage) (t : Tag) (payload : List UInt8) :
    length c payload.length = Tag.width + payload.length + (trailer c t payload).length := by
  rw [length_trailer, length]

/-- A frame that is completed in place stands in front of what was behind its room. -/
theorem sealInto_of_le {n : Nat} (h : length c n ≤ out.length) :
    sealInto c t n out = (.ok (length c n),
      encode c t ((out.drop Tag.width).take n) ++ out.drop (length c n)) := by
  have hwide := width_le_length c n
  have hn : ((out.drop Tag.width).take n).length = n := by
    rw [List.length_take, List.length_drop]
    omega
  generalize hpayload : (out.drop Tag.width).take n = payload at hn
  subst hn
  have htagged : overwriteAt out 0 t.toOctets = t.toOctets ++ out.drop Tag.width := rfl
  have hdrop : (overwriteAt out 0 t.toOctets).drop Tag.width = out.drop Tag.width := rfl
  have hfront : (overwriteAt out 0 t.toOctets).take (Tag.width + payload.length) =
      t.toOctets ++ payload := by
    have hwidth : t.toOctets.length = Tag.width := rfl
    rw [← hwidth, htagged, List.take_length_add_append, hpayload]
  have hbehind : (overwriteAt out 0 t.toOctets).drop (length c payload.length) =
      out.drop (length c payload.length) := by
    apply drop_overwriteAt _ (Nat.zero_le _)
    exact Nat.le_trans (Nat.le_add_right _ _) hwide
  rw [sealInto, if_neg (Nat.not_lt.mpr h)]
  simp only [hdrop, hpayload]
  rw [overwriteAt, hfront, ← length_eq_add_trailer, hbehind, encode]

theorem encodeInto_of_le (h : length c payload.length ≤ out.length) :
    encodeInto c t payload out = (.ok (length c payload.length),
      encode c t payload ++ out.drop (length c payload.length)) := by
  have hwide := width_le_length c payload.length
  have hsize : (overwriteAt out Tag.width payload).length = out.length := by
    rw [overwriteAt, List.length_append, List.length_append, List.length_take, List.length_drop]
    omega
  have hfront : ((overwriteAt out Tag.width payload).drop Tag.width).take payload.length =
      payload := by
    rw [List.take_drop, take_overwriteAt (by omega)]
    exact List.drop_left' (List.length_take_of_le (by omega))
  rw [encodeInto, if_neg (Nat.not_lt.mpr h), sealInto_of_le (hsize ▸ h), hfront,
    drop_overwriteAt hwide (by omega)]

theorem encodeInto_of_lt (h : out.length < length c payload.length) :
    encodeInto c t payload out = (.error .bufferTooSmall, out) := by
  rw [encodeInto, if_pos h]

theorem sealInto_of_lt {n : Nat} (h : out.length < length c n) :
    sealInto c t n out = (.error .bufferTooSmall, out) := by
  rw [sealInto, if_pos h]

/-! The same over slices, which have no octets outside of their bounds. -/

def slice? (data : List UInt8) (i j : Nat) : Option (List UInt8) :=
  if i ≤ j ∧ j ≤ data.length then some ((data.take j).drop i) else none

/-- Copy octets over a slice, which has to be as long as they are. -/
def copySlice? (data : List UInt8) (i j : Nat) (bs : List UInt8) : Option (List UInt8) :=
  if i ≤ j ∧ j ≤ data.length ∧ bs.length = j - i then some (overwriteAt data i bs) else none

def sealInside? (c : Coverage) (t : Tag) (n : Nat) (out : List UInt8) :
    Option (Except FrameError Nat × List UInt8) :=
  if out.length < length c n then some (.error .bufferTooSmall, out)
  else
    (copySlice? out 0 Tag.width t.toOctets).bind fun tagged =>
      if c.hasChecksum n then
        (slice? tagged Tag.width (Tag.width + n)).bind fun payload =>
          (copySlice? tagged (Tag.width + n) (length c n) (octets16 (c.checksum t payload))).map
            fun sealed => (.ok (length c n), sealed)
      else some (.ok (length c n), tagged)

def encodeInside? (c : Coverage) (t : Tag) (payload out : List UInt8) :
    Option (Except FrameError Nat × List UInt8) :=
  if out.length < length c payload.length then some (.error .bufferTooSmall, out)
  else
    (copySlice? out Tag.width (Tag.width + payload.length) payload).bind
      (sealInside? c t payload.length)

def verifyInside? (c : Coverage) (frame : List UInt8) :
    Option (Except FrameError (Tag × List UInt8)) :=
  match Tag.ofOctets? frame with
  | none => some (.error .truncated)
  | some t =>
    if frame.length = Tag.width ∧ c.hasChecksum 0 = false then
      (slice? frame Tag.width frame.length).map fun payload => .ok (t, payload)
    else if frame.length < Tag.width + Checksum.width then some (.error .truncated)
    else
      let body := frame.length - Checksum.width
      (slice? frame Tag.width body).bind fun payload =>
        frame[body]?.bind fun lo =>
          frame[body + 1]?.map fun hi =>
            if word16 lo hi = c.checksum t payload then .ok (t, payload)
            else .error .checksumMismatch

theorem slice?_eq {data : List UInt8} {i j : Nat} (hi : i ≤ j) (hj : j ≤ data.length) :
    slice? data i j = some ((data.take j).drop i) := if_pos ⟨hi, hj⟩

theorem copySlice?_eq {data bs : List UInt8} {i j : Nat} (hi : j = i + bs.length)
    (hj : j ≤ data.length) : copySlice? data i j bs = some (overwriteAt data i bs) :=
  if_pos ⟨by omega, hj, by omega⟩

theorem length_overwriteAt {bs : List UInt8} {i : Nat} (h : i + bs.length ≤ out.length) :
    (overwriteAt out i bs).length = out.length := by
  rw [overwriteAt, List.length_append, List.length_append, List.length_take, List.length_drop]
  omega

theorem trailer_of_hasChecksum (t : Tag) (h : c.hasChecksum payload.length = true) :
    trailer c t payload = octets16 (c.checksum t payload) := by
  rw [trailer, if_pos h]

theorem trailer_of_not_hasChecksum (t : Tag) (h : ¬c.hasChecksum payload.length = true) :
    trailer c t payload = [] := by
  rw [trailer, if_neg h]

theorem overwriteAt_nil (out : List UInt8) (i : Nat) : overwriteAt out i [] = out := by
  rw [overwriteAt, List.append_nil, List.length_nil, Nat.add_zero, List.take_append_drop]

theorem sealInside?_eq (c : Coverage) (t : Tag) (n : Nat) (out : List UInt8) :
    sealInside? c t n out = some (sealInto c t n out) := by
  by_cases h : out.length < length c n
  · rw [sealInside?, if_pos h, sealInto, if_pos h]
  · have hwide := width_le_length c n
    have htag : copySlice? out 0 Tag.width t.toOctets = some (overwriteAt out 0 t.toOctets) :=
      copySlice?_eq rfl (by omega)
    have hsize : (overwriteAt out 0 t.toOctets).length = out.length :=
      length_overwriteAt (Nat.le_trans (Nat.le_add_right Tag.width n) (by omega))
    rw [sealInside?, if_neg h, htag, Option.bind_some, sealInto, if_neg h]
    simp only
    generalize overwriteAt out 0 t.toOctets = tagged at hsize
    have hn : ((tagged.drop Tag.width).take n).length = n := by
      rw [List.length_take, List.length_drop]
      omega
    by_cases hsum : c.hasChecksum n = true
    · have hlen : length c n = Tag.width + n + Checksum.width := by rw [length, if_pos hsum]
      have htrailer := trailer_of_hasChecksum t (hn.symm ▸ hsum)
      rw [if_pos hsum, slice?_eq (Nat.le_add_right _ _) (by omega), Option.bind_some,
        ← List.take_drop, copySlice?_eq hlen (by omega), htrailer]
      rfl
    · have htrailer := trailer_of_not_hasChecksum t (hn.symm ▸ hsum)
      rw [if_neg hsum, htrailer, overwriteAt_nil]

theorem encodeInside?_eq (c : Coverage) (t : Tag) (payload out : List UInt8) :
    encodeInside? c t payload out = some (encodeInto c t payload out) := by
  rw [encodeInside?, encodeInto]
  split
  · rfl
  · next h =>
    have hwide := width_le_length c payload.length
    rw [copySlice?_eq rfl (by omega), Option.bind_some, sealInside?_eq]

theorem verifyInside?_eq (c : Coverage) (frame : List UInt8) :
    verifyInside? c frame = some (verify c frame) := by
  rw [verifyInside?, verify]
  cases Tag.ofOctets? frame with
  | none => rfl
  | some t =>
    simp only
    split
    · next hbare =>
      have hnil : (frame.take frame.length).drop Tag.width = [] := by
        rw [List.take_length, List.drop_of_length_le (Nat.le_of_eq hbare.1)]
      rw [slice?_eq (Nat.le_of_eq hbare.1.symm) (Nat.le_refl _), hnil]
      rfl
    · split
      · rfl
      · next hlong =>
        have hw : Checksum.width = 2 := rfl
        have htwo : (frame.drop (frame.length - Checksum.width)).length = 2 := by
          rw [List.length_drop]
          omega
        obtain ⟨lo, hi, hend⟩ := List.length_eq_two.mp htwo
        have hlo : frame[frame.length - Checksum.width]? = some lo := by
          rw [← Nat.add_zero (frame.length - _), ← List.getElem?_drop, hend]
          rfl
        have hhi : frame[frame.length - Checksum.width + 1]? = some hi := by
          rw [← List.getElem?_drop, hend]
          rfl
        rw [slice?_eq (by omega) (Nat.sub_le _ _), Option.bind_some, hlo, Option.bind_some, hhi,
          hend, Option.map_some]
        simp only [endsIn, decide_eq_true_eq]

/-- A frame was written to a buffer: it can be read from there, and nothing behind it has
changed. -/
structure Written (c : Coverage) (t : Tag) (payload out out' : List UInt8) : Prop where
  size : out'.length = out.length
  behind : out'.drop (length c payload.length) = out.drop (length c payload.length)
  readable : verify c (out'.take (length c payload.length)) = .ok (t, payload)

theorem written_of_le (h : length c payload.length ≤ out.length) :
    Written c t payload out (encode c t payload ++ out.drop (length c payload.length)) := by
  have hlen := length_encode c t payload
  constructor
  · rw [List.length_append, List.length_drop, hlen]
    omega
  · exact List.drop_left' hlen
  · rw [List.take_left' hlen, verify_encode]

/-- Frames are written whole or not at all, by copying the payload or around one that is
there, and are read back as they were written. -/
theorem round_trip (c : Coverage) (t : Tag) (payload out : List UInt8) :
    encodeInside? c t payload out = some (encodeInto c t payload out) ∧
      (length c payload.length ≤ out.length → ∃ out',
        encodeInto c t payload out = (.ok (length c payload.length), out') ∧
          Written c t payload out out') ∧
      (out.length < length c payload.length →
        encodeInto c t payload out = (.error .bufferTooSmall, out)) ∧
      ∀ n, sealInside? c t n out = some (sealInto c t n out) ∧
        (out.length < length c n → sealInto c t n out = (.error .bufferTooSmall, out)) ∧
        (length c n ≤ out.length → payload.length = n → (out.drop Tag.width).take n = payload →
          ∀ blank : List UInt8, blank.length = out.length →
            blank.drop (length c n) = out.drop (length c n) →
              sealInto c t n out = encodeInto c t payload blank) := by
  refine ⟨encodeInside?_eq c t payload out, fun h => ⟨_, encodeInto_of_le h, written_of_le h⟩,
    encodeInto_of_lt, fun n => ⟨sealInside?_eq c t n out, sealInto_of_lt, ?_⟩⟩
  rintro h rfl hheld blank hsize hbehind
  rw [sealInto_of_le h, hheld, encodeInto_of_le (hsize ▸ h), hbehind]

/-- An octet behind the frame is kept, whatever stood in its place; a buffer that is an octet
short is left alone. -/
theorem round_trip_ping :
    let t := Tag.ofChars 'p' 'i' 'n' 'g'
    let held : List UInt8 := [0, 0, 0, 0, 9, 8, 0, 0, 7]
    let blank : List UInt8 := [1, 1, 1, 1, 1, 1, 1, 1, 7]
    length .payloadOnly 2 ≤ held.length ∧ (held.drop Tag.width).take 2 = [9, 8] ∧
      sealInto .payloadOnly t 2 held = encodeInto .payloadOnly t [9, 8] blank ∧
      (∃ out', encodeInto .payloadOnly t [9, 8] blank = (.ok 8, out') ∧
        Written .payloadOnly t [9, 8] blank out') ∧
      encodeInto .payloadOnly t [9, 8] (held.take 7) = (.error .bufferTooSmall, held.take 7) := by
  intro t held blank
  obtain ⟨-, -, -, hseal⟩ := round_trip .payloadOnly t [9, 8] held
  obtain ⟨-, hencode, -, -⟩ := round_trip .payloadOnly t [9, 8] blank
  obtain ⟨-, -, hshort, -⟩ := round_trip .payloadOnly t [9, 8] (held.take 7)
  exact ⟨by decide, rfl, (hseal 2).2.2 (by decide) rfl rfl blank rfl rfl, hencode (by decide),
    hshort (by decide)⟩

/-- The octets that a tag and a payload are written as, into any buffer with room for them. -/
def Writes (c : Coverage) (t : Tag) (payload frame : List UInt8) : Prop :=
  ∀ out : List UInt8, frame.length ≤ out.length →
    encodeInto c t payload out = (.ok frame.length, frame ++ out.drop frame.length)

theorem writes_iff : Writes c t payload frame ↔ frame = encode c t payload := by
  constructor
  · intro h
    have hframe := h frame (Nat.le_refl _)
    rw [List.drop_length, List.append_nil] at hframe
    by_cases hfits : length c payload.length ≤ frame.length
    · rw [encodeInto_of_le hfits, Prod.mk.injEq, Except.ok.injEq] at hframe
      obtain ⟨hlen, hlayout⟩ := hframe
      rw [hlen, List.drop_length, List.append_nil] at hlayout
      exact hlayout.symm
    · rw [encodeInto_of_lt (Nat.lt_of_not_le hfits)] at hframe
      cases hframe
  · rintro rfl out hfits
    rw [length_encode] at hfits ⊢
    exact encodeInto_of_le hfits

/-- A bare tag under a coverage that gives it no checksum, with the checksum of nothing
behind it all the same. -/
def Padded (c : Coverage) (t : Tag) (payload frame : List UInt8) : Prop :=
  c = .payloadOnly ∧ payload = [] ∧ frame = t.toOctets ++ octets16 Checksum.seed

theorem verify_padded (h : Padded c t payload frame) : verify c frame = .ok (t, payload) := by
  obtain ⟨rfl, rfl, rfl⟩ := h
  have hlayout := verify_layout .payloadOnly t [] Checksum.seed.toUInt8
    (Checksum.seed >>> 8).toUInt8
  have hnothing : Checksum.seed = Coverage.payloadOnly.checksum t [] := rfl
  rw [word16_octets16, if_pos hnothing] at hlayout
  exact hlayout

theorem writes_or_padded (h : verify c frame = .ok (t, payload)) :
    Writes c t payload frame ∨ Padded c t payload frame := by
  rw [writes_iff]
  obtain ⟨hshort, rfl⟩ | hlong := length_of_verify h
  · cases ht : Tag.ofOctets? frame with
    | none => simp [verify, ht] at h
    | some t' =>
      obtain ⟨rest, rfl⟩ := Tag.ofOctets?_eq_some ht
      have hrest : rest = [] := by
        rw [List.length_append] at hshort
        exact List.eq_nil_of_length_eq_zero (Nat.add_eq_left.mp hshort)
      subst hrest
      have hbare : verify .payloadOnly (t'.toOctets ++ []) = .ok (t', []) :=
        verify_encode .payloadOnly t' []
      rw [hbare] at h
      cases h
      exact .inl rfl
  · obtain ⟨t', payload', lo, hi, rfl⟩ := exists_layout hlong
    rw [verify_layout] at h
    split at h
    · next hword =>
      cases h
      by_cases hsum : c.hasChecksum payload.length = true
      · left
        rw [encode, trailer_of_hasChecksum t hsum, ← hword, octets16_word16]
      · obtain ⟨rfl, hnil⟩ : c = .payloadOnly ∧ payload = [] := by
          cases c with
          | tagAndPayload => exact absurd rfl hsum
          | payloadOnly => exact ⟨rfl, by simpa [Coverage.hasChecksum] using hsum⟩
        subst hnil
        right
        refine ⟨rfl, rfl, ?_⟩
        have hseed : word16 lo hi = Checksum.seed := hword
        rw [← hseed, octets16_word16]
        rfl
    · cases h

/-- A frame that is accepted is what its parts are written as, with one exception: where
an empty payload has no checksum, one is accepted all the same if it is right. -/
theorem verify_eq_ok_iff (c : Coverage) (t : Tag) (payload frame : List UInt8) :
    (verify c frame = .ok (t, payload) ↔ Writes c t payload frame ∨ Padded c t payload frame) ∧
      ¬(Writes c t payload frame ∧ Padded c t payload frame) := by
  refine ⟨⟨writes_or_padded, ?_⟩, ?_⟩
  · rintro (hwrites | hpadded)
    · rw [writes_iff.mp hwrites, verify_encode]
    · exact verify_padded hpadded
  · rintro ⟨hwrites, rfl, rfl, rfl⟩
    have hlen := congrArg List.length (writes_iff.mp hwrites)
    simp [length_encode, length, Coverage.hasChecksum, octets16, Tag.toOctets, Tag.width] at hlen

/-- Six octets are accepted of which only the first four are written. -/
theorem not_writes_padded :
    let t := Tag.ofChars 'p' 'i' 'n' 'g'
    let frame := t.toOctets ++ [0xFF, 0xFF]
    verify .payloadOnly frame = .ok (t, []) ∧
      encodeInto .payloadOnly t [] (List.replicate 6 0) = (.ok 4, t.toOctets ++ [0, 0]) ∧
      ¬Writes .payloadOnly t [] frame := by
  refine ⟨by decide, by decide, fun h => ?_⟩
  have hblank := h (List.replicate 6 0) (by decide)
  revert hblank
  decide

end Frame

end CommandLink
