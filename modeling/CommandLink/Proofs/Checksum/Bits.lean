import CommandLink.Checksum.Crc
import CommandLink.Octets
import Mathlib.Data.List.GetD
import Mathlib.Data.UInt

namespace CommandLink.Checksum

theorem eq_of_bits {c d : UInt16}
    (h : ∀ i < 16, c.toBitVec.getLsbD i = d.toBitVec.getLsbD i) : c = d :=
  UInt16.toBitVec_inj.mp (BitVec.eq_of_getLsbD_eq h)

theorem getLsbD_half (c : UInt16) (i : Nat) :
    (c >>> 1).toBitVec.getLsbD i = c.toBitVec.getLsbD (i + 1) := by
  rw [Nat.add_comm, UInt16.toBitVec_shiftRight]
  exact BitVec.getLsbD_ushiftRight _ _ _

theorem and_one_ne_zero_iff (c : UInt16) : c &&& 1 ≠ 0 ↔ c.toBitVec.getLsbD 0 = true := by
  have h : (c &&& 1).toNat = c.toNat % 2 := by
    rw [UInt16.toNat_and]
    exact Nat.and_one_is_mod c.toNat
  rw [Ne, ← UInt16.toNat_inj, h, BitVec.getLsbD, UInt16.toNat_toBitVec, Nat.testBit_zero]
  simp

theorem shift_eq (c : UInt16) :
    shift c = (c >>> 1) ^^^ if c.toBitVec.getLsbD 0 then polynomial else 0 := by
  rw [shift]
  simp only [and_one_ne_zero_iff]
  split
  · rfl
  · rw [UInt16.xor_zero]

/-- The register is a vector of bits, and a shift is linear. -/
theorem shift_xor (c d : UInt16) : shift (c ^^^ d) = shift c ^^^ shift d := by
  have hcarry (a b : Bool) : (if a ^^ b then polynomial else 0) =
      (if a then polynomial else 0) ^^^ if b then polynomial else 0 := by
    cases a <;> cases b <;> rfl
  rw [shift_eq, shift_eq, shift_eq, UInt16.shiftRight_xor, UInt16.toBitVec_xor, BitVec.getLsbD_xor,
    hcarry]
  ac_rfl

theorem shift_zero : shift 0 = 0 := rfl

/-- A shift loses nothing: a bit that leaves the register shows in its highest one. -/
theorem shift_eq_zero_iff {c : UInt16} : shift c = 0 ↔ c = 0 := by
  refine ⟨fun h => ?_, fun h => h ▸ shift_zero⟩
  rw [shift_eq, UInt16.xor_eq_zero_iff] at h
  have hlow : c.toBitVec.getLsbD 0 = false := by
    cases hodd : c.toBitVec.getLsbD 0 with
    | false => rfl
    | true =>
      have htop := getLsbD_half c 15
      rw [h, hodd, BitVec.getLsbD_of_ge _ _ (Nat.le_refl _)] at htop
      cases htop
  rw [hlow] at h
  apply eq_of_bits
  intro i _
  cases i with
  | zero => exact hlow
  | succ i =>
    rw [← getLsbD_half, h]
    exact BitVec.getLsbD_zero.trans BitVec.getLsbD_zero.symm

theorem shifts_xor (n : Nat) (c d : UInt16) : shifts n (c ^^^ d) = shifts n c ^^^ shifts n d := by
  induction n generalizing c d with
  | zero => rfl
  | succ n ih => rw [shifts, shift_xor, ih, shifts, shifts]

theorem shifts_eq_zero_iff (n : Nat) {c : UInt16} : shifts n c = 0 ↔ c = 0 := by
  induction n generalizing c with
  | zero => rfl
  | succ n ih => rw [shifts, ih, shift_eq_zero_iff]

/-- Up to sixteen bits in a register, the first one lowest. -/
def word (bits : List Bool) : UInt16 := ⟨(BitVec.ofBoolListLE bits).setWidth 16⟩

theorem getLsbD_word (bits : List Bool) {i : Nat} (hi : i < 16) :
    (word bits).toBitVec.getLsbD i = bits.getD i false := by
  rw [word, BitVec.getLsbD_setWidth, BitVec.getLsbD_ofBoolListLE, decide_eq_true hi, Bool.true_and]

theorem word_nil : word [] = 0 := rfl

theorem half_word (b : Bool) {bits : List Bool} (h : bits.length < 16) :
    word (b :: bits) >>> 1 = word bits := by
  apply eq_of_bits
  intro i hi
  rw [getLsbD_half, getLsbD_word bits hi]
  by_cases hlast : i + 1 < 16
  · rw [getLsbD_word _ hlast, List.getD_cons_succ]
  · rw [BitVec.getLsbD_of_ge _ _ (Nat.le_of_not_lt hlast), List.getD_eq_default _ _ (by omega)]

theorem word_eq_zero {bits : List Bool} (hlen : bits.length ≤ 16) (h : word bits = 0) :
    ∀ b ∈ bits, b = false := by
  intro b hb
  obtain ⟨i, hi, rfl⟩ := List.mem_iff_getElem.mp hb
  have hbit := getLsbD_word bits (Nat.lt_of_lt_of_le hi hlen)
  rw [h, List.getD_eq_getElem _ _ hi] at hbit
  rw [← hbit]
  exact BitVec.getLsbD_zero

/-- Take in one bit. -/
def addBit (c : UInt16) (b : Bool) : UInt16 := shift (c ^^^ b.toUInt16)

theorem shift_word (c : UInt16) (b : Bool) {bits : List Bool} (h : bits.length < 16) :
    shift (c ^^^ word (b :: bits)) = addBit c b ^^^ word bits := by
  have hlow : (word (b :: bits)).toBitVec.getLsbD 0 = b := getLsbD_word (b :: bits) (by decide)
  have hbit : shift b.toUInt16 = if b then polynomial else 0 := by cases b <;> rfl
  rw [addBit, shift_xor, shift_xor, shift_eq (word _), half_word b h, hlow, hbit]
  ac_rfl

/-- Bits that stand in the register already are taken in by shifts alone. -/
theorem shifts_word_append (c : UInt16) (bits rest : List Bool)
    (h : bits.length + rest.length ≤ 16) :
    shifts bits.length (c ^^^ word (bits ++ rest)) = bits.foldl addBit c ^^^ word rest := by
  induction bits generalizing c with
  | nil => rfl
  | cons b bits ih =>
    rw [List.length_cons] at h
    have hlen : (bits ++ rest).length < 16 := by
      rw [List.length_append]
      omega
    rw [List.length_cons, shifts, List.cons_append, shift_word c b hlen, ih _ (by omega),
      List.foldl_cons]

theorem shifts_word (c : UInt16) {bits : List Bool} (h : bits.length ≤ 16) :
    shifts bits.length (c ^^^ word bits) = bits.foldl addBit c := by
  have hs := shifts_word_append c bits [] h
  rwa [List.append_nil, word_nil, UInt16.xor_zero] at hs

/-- Zeros are shifts. -/
theorem foldl_addBit_false {bits : List Bool} (h : ∀ b ∈ bits, b = false) (c : UInt16) :
    bits.foldl addBit c = shifts bits.length c := by
  induction bits generalizing c with
  | nil => rfl
  | cons b bits ih =>
    obtain ⟨rfl, hbits⟩ := List.forall_mem_cons.mp h
    have hzero : addBit c false = shift c := congrArg shift UInt16.xor_zero
    rw [List.foldl_cons, ih hbits, hzero]
    rfl

/-- The bits of octets in the order in which a register takes them in: the lowest
bit of each octet comes first. -/
def bits (bs : List UInt8) : List Bool :=
  bs.flatMap fun b => (List.range 8).map b.toBitVec.getLsbD

theorem bits_cons (b : UInt8) (bs : List UInt8) : bits (b :: bs) = bits [b] ++ bits bs := rfl

theorem length_bits (bs : List UInt8) : (bits bs).length = 8 * bs.length := by
  induction bs with
  | nil => rfl
  | cons b bs ih =>
    rw [bits_cons, List.length_append, ih, List.length_cons, Nat.mul_succ, Nat.add_comm]
    rfl

theorem getElem?_bits (bs : List UInt8) {j i : Nat} (hi : i < 8) :
    (bits bs)[8 * j + i]? = bs[j]?.map fun b => b.toBitVec.getLsbD i := by
  induction bs generalizing j with
  | nil => rfl
  | cons b bs ih =>
    have hlen : (bits [b]).length = 8 := rfl
    rw [bits_cons]
    cases j with
    | zero =>
      rw [List.getElem?_append_left (by omega)]
      simp [bits, hi]
    | succ j =>
      have hback : 8 * (j + 1) + i - 8 = 8 * j + i := by omega
      rw [List.getElem?_append_right (by omega), hlen, hback, ih, List.getElem?_cons_succ]

theorem eq_zero_of_bits {bs : List UInt8} (h : ∀ b ∈ bits bs, b = false) : ∀ b ∈ bs, b = 0 := by
  intro b hb
  apply UInt8.toBitVec_inj.mp
  apply BitVec.eq_of_getLsbD_eq
  intro i hi
  rw [h (b.toBitVec.getLsbD i)]
  · exact BitVec.getLsbD_zero.symm
  · exact List.mem_flatMap.mpr ⟨b, hb, List.mem_map_of_mem (List.mem_range.mpr hi)⟩

theorem getD_octet (b : UInt8) (i : Nat) : (bits [b]).getD i false = b.toBitVec.getLsbD i := by
  by_cases hi : i < 8
  · simp [bits, hi]
  · have hlen : 8 ≤ i := Nat.le_of_not_lt hi
    rw [List.getD_eq_default _ _ hlen]
    exact (BitVec.getLsbD_of_ge _ _ hlen).symm

theorem getD_pair (lo hi : UInt8) (i : Nat) : (bits [lo, hi]).getD i false =
    if i < 8 then lo.toBitVec.getLsbD i else hi.toBitVec.getLsbD (i - 8) := by
  rw [bits_cons]
  split
  · next h => rw [List.getD_append _ _ _ _ h, getD_octet]
  · next h =>
    rw [List.getD_append_right _ _ _ _ (Nat.le_of_not_lt h)]
    exact getD_octet hi (i - 8)

theorem word_octet (b : UInt8) : word (bits [b]) = b.toUInt16 := by
  apply eq_of_bits
  intro i hi
  rw [getLsbD_word _ hi, getD_octet]
  simp [hi]

theorem word_pair (lo hi : UInt8) : word (bits [lo, hi]) = word16 lo hi := by
  apply eq_of_bits
  intro i hi'
  rw [getLsbD_word _ hi', getD_pair, word16]
  by_cases h : i < 8
  · simp [h, hi']
  · have hlo : lo.toBitVec.getLsbD i = false := BitVec.getLsbD_of_ge _ _ (Nat.le_of_not_lt h)
    simp [h, hi', hlo]

theorem word_octets16 (w : UInt16) : word (bits (octets16 w)) = w := by
  apply eq_of_bits
  intro i hi
  rw [octets16, getLsbD_word _ hi, getD_pair]
  by_cases h : i < 8
  · simp [h]
  · have hback : 8 + (i - 8) = i := Nat.add_sub_cancel' (Nat.le_of_not_lt h)
    have hhigh : i - 8 < 8 := by omega
    simp [h, hback, hhigh]

theorem addBits_eq (c : UInt16) (b : UInt8) : addBits c b = (bits [b]).foldl addBit c := by
  have hlen : (bits [b]).length ≤ 16 := Nat.le_of_ble_eq_true rfl
  rw [addBits, ← word_octet, ← shifts_word c hlen]
  rfl

theorem ofBits_eq (c : UInt16) (bs : List UInt8) : ofBits c bs = (bits bs).foldl addBit c := by
  induction bs generalizing c with
  | nil => rfl
  | cons b bs ih =>
    rw [bits_cons, List.foldl_append, ← addBits_eq, ← ih]
    rfl

theorem ofBits_append (c : UInt16) (bs bs' : List UInt8) :
    ofBits c (bs ++ bs') = ofBits (ofBits c bs) bs' := List.foldl_append

theorem ofBits_xor (c d : UInt16) {bs bs' : List UInt8} (h : bs.length = bs'.length) :
    ofBits (c ^^^ d) (List.zipWith (· ^^^ ·) bs bs') = ofBits c bs ^^^ ofBits d bs' := by
  induction bs generalizing c d bs' with
  | nil =>
    rw [List.eq_nil_of_length_eq_zero h.symm]
    rfl
  | cons b bs ih =>
    cases bs' with
    | nil => cases h
    | cons b' bs' =>
      have hstep : addBits (c ^^^ d) (b ^^^ b') = addBits c b ^^^ addBits d b' := by
        rw [addBits, addBits, addBits, ← shifts_xor, UInt8.toUInt16_xor]
        congr 1
        ac_rfl
      have hrest := ih (addBits c b) (addBits d b') (Nat.succ.inj h)
      rw [← hstep] at hrest
      exact hrest

/-- The low octet of a register goes through eight shifts, and the high one only
moves down. -/
theorem shifts_eight (c : UInt16) :
    shifts 8 c = (c >>> 8) ^^^ shifts 8 c.toUInt8.toUInt16 := by
  have hhigh : (c >>> 8).toUInt8.toUInt16 = c >>> 8 := by
    have hc := c.toNat_lt
    apply UInt16.toNat_inj.mp
    simp [Nat.shiftRight_eq_div_pow]
    omega
  have hboth : word (bits [c.toUInt8] ++ bits [(c >>> 8).toUInt8]) = c := word_octets16 c
  have hsplit := shifts_word_append 0 (bits [c.toUInt8]) (bits [(c >>> 8).toUInt8])
    (Nat.le_of_ble_eq_true rfl)
  rw [hboth, ← addBits_eq, word_octet, hhigh, addBits, UInt16.zero_xor, UInt16.zero_xor,
    UInt16.xor_comm] at hsplit
  exact hsplit

theorem get_table (b : UInt8) : table.get b.toFin = shifts 8 b.toUInt16 := by
  have h : table.get b.toFin = shifts 8 (UInt16.ofNat b.toNat) :=
    Vector.getElem_ofFn b.toNat_lt
  rw [h, UInt16.ofNat_uInt8ToNat]

/-- The table takes in an octet in one step. -/
theorem Register.add_eq (r : Register) (b : UInt8) : r.add b = ⟨addBits r.value b⟩ := by
  have hlow : (r.value ^^^ b.toUInt16).toUInt8 = r.value.toUInt8 ^^^ b := by
    rw [UInt16.toUInt8_xor, UInt8.toUInt8_toUInt16]
  have hhigh : (r.value ^^^ b.toUInt16) >>> 8 = r.value >>> 8 := by
    have hb := b.toNat_lt
    have hzero : b.toUInt16 >>> 8 = 0 := by
      apply UInt16.toNat_inj.mp
      simp [Nat.shiftRight_eq_div_pow]
      omega
    rw [UInt16.shiftRight_xor, hzero, UInt16.xor_zero]
  rw [add, get_table, addBits, shifts_eight (r.value ^^^ b.toUInt16), hlow, hhigh]

theorem Register.addAll_eq (r : Register) (bs : List UInt8) :
    r.addAll bs = ⟨ofBits r.value bs⟩ := by
  induction bs generalizing r with
  | nil => rfl
  | cons b bs ih =>
    have hstep : r.addAll (b :: bs) = (r.add b).addAll bs := rfl
    rw [hstep, ih, r.add_eq]
    rfl

end CommandLink.Checksum
