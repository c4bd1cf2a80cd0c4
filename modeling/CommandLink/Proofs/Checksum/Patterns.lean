import CommandLink.Proofs.Checksum.Bits
import Mathlib.Algebra.Ring.Parity
import Mathlib.Dynamics.PeriodicPts.Lemmas
import Mathlib.Tactic.NormNum.Prime

namespace CommandLink.Checksum

/-- A register that starts at zero comes back to it behind a burst only if no bit
of the burst is set. -/
theorem forall_false_of_burst {bits : List Bool} {start : Nat}
    (hburst : ∀ p, bits[p]? = some true → start ≤ p ∧ p < start + 16)
    (hzero : bits.foldl addBit 0 = 0) : ∀ b ∈ bits, b = false := by
  let window := (bits.drop start).take 16
  let after := (bits.drop start).drop 16
  have hsplit : bits = bits.take start ++ (window ++ after) := by
    rw [List.take_append_drop, List.take_append_drop]
  have hclear {p : Nat} (hp : p < bits.length) (hout : p < start ∨ start + 16 ≤ p) :
      bits[p] = false := by
    rw [Bool.eq_false_iff]
    intro ht
    have hin := hburst p (List.getElem?_eq_some_iff.mpr ⟨hp, ht⟩)
    omega
  have hbefore : ∀ b ∈ bits.take start, b = false := by
    intro b hb
    obtain ⟨i, hi, rfl⟩ := List.mem_iff_getElem.mp hb
    rw [List.getElem_take]
    rw [List.length_take] at hi
    exact hclear _ (.inl (by omega))
  have hafter : ∀ b ∈ after, b = false := by
    intro b hb
    obtain ⟨i, hi, rfl⟩ := List.mem_iff_getElem.mp hb
    rw [List.getElem_drop, List.getElem_drop]
    exact hclear _ (.inr (by omega))
  have hlen : window.length ≤ 16 := List.length_take_le 16 _
  have hwindow : ∀ b ∈ window, b = false := by
    apply word_eq_zero hlen
    rw [hsplit, List.foldl_append, List.foldl_append, foldl_addBit_false hbefore,
      foldl_addBit_false hafter, shifts_eq_zero_iff, (shifts_eq_zero_iff _).mpr rfl,
      ← shifts_word 0 hlen, UInt16.zero_xor, shifts_eq_zero_iff] at hzero
    exact hzero
  rw [hsplit]
  simp only [List.forall_mem_append]
  exact ⟨hbefore, hwindow, hafter⟩

/-- Whether an odd number of bits is set. -/
def odd (bits : List Bool) : Bool := bits.foldr (· ^^ ·) false

theorem odd_cons (b : Bool) (bits : List Bool) : odd (b :: bits) = (b ^^ odd bits) := rfl

theorem odd_append (bits bits' : List Bool) : odd (bits ++ bits') = (odd bits ^^ odd bits') := by
  induction bits with
  | nil => exact (Bool.false_xor _).symm
  | cons b bits ih => rw [List.cons_append, odd_cons, ih, odd_cons, Bool.xor_assoc]

theorem odd_iff (bits : List Bool) : odd bits = true ↔ Odd (bits.count true) := by
  induction bits with
  | nil => decide
  | cons b bits ih =>
    rw [odd_cons, List.count_cons]
    cases b with
    | false => simpa using ih
    | true => simp [Nat.odd_add_one, ← ih]

theorem odd_map_xor (f g : Nat → Bool) (is : List Nat) :
    odd (is.map fun i => f i ^^ g i) = (odd (is.map f) ^^ odd (is.map g)) := by
  induction is with
  | nil => rfl
  | cons i is ih =>
    rw [List.map_cons, List.map_cons, List.map_cons, odd_cons, odd_cons, odd_cons, ih,
      Bool.xor_assoc, Bool.xor_assoc, Bool.xor_left_comm (g i)]

def parity (c : UInt16) : Bool := odd ((List.range 16).map c.toBitVec.getLsbD)

theorem parity_xor (c d : UInt16) : parity (c ^^^ d) = (parity c ^^ parity d) := by
  rw [parity, parity, parity, ← odd_map_xor]
  congr 2
  funext i
  rw [UInt16.toBitVec_xor, BitVec.getLsbD_xor]

theorem parity_half (c : UInt16) : parity c = (c.toBitVec.getLsbD 0 ^^ parity (c >>> 1)) := by
  have hbits : (c >>> 1).toBitVec.getLsbD = fun i => c.toBitVec.getLsbD (i + 1) :=
    funext (getLsbD_half c)
  have htop : c.toBitVec.getLsbD (15 + 1) = false := BitVec.getLsbD_of_ge _ _ (Nat.le_refl 16)
  have hrest : parity (c >>> 1) = odd ((List.range 15).map fun i => c.toBitVec.getLsbD (i + 1)) := by
    rw [parity, hbits, List.range_succ, List.map_append, odd_append, List.map_singleton, htop]
    exact Bool.xor_false _
  rw [hrest, parity, List.range_succ_eq_map, List.map_cons, odd_cons, List.map_map]
  rfl

/-- The generator has four terms, so that a shift keeps the parity. -/
theorem parity_shift (c : UInt16) : parity (shift c) = parity c := by
  have hcarry (b : Bool) : parity (if b then polynomial else 0) = b := by cases b <;> rfl
  rw [shift_eq, parity_xor, hcarry, parity_half c, Bool.xor_comm]

theorem parity_foldl (c : UInt16) (bits : List Bool) :
    parity (bits.foldl addBit c) = (parity c ^^ odd bits) := by
  induction bits generalizing c with
  | nil => exact (Bool.xor_false _).symm
  | cons b bits ih =>
    have hbit : parity b.toUInt16 = b := by cases b <;> rfl
    rw [List.foldl_cons, ih, addBit, parity_shift, parity_xor, hbit, Bool.xor_assoc]
    rfl

theorem foldl_ne_zero_of_odd {bits : List Bool} (h : Odd (bits.count true)) :
    bits.foldl addBit 0 ≠ 0 := by
  intro hzero
  have hp := parity_foldl 0 bits
  rw [hzero, (odd_iff bits).mpr h] at hp
  cases hp

section Order

open Function

theorem shifts_eq_iterate (n : Nat) (c : UInt16) : shifts n c = shift^[n] c := by
  induction n generalizing c with
  | zero => rfl
  | succ n ih => rw [shifts, ih, iterate_succ_apply]

/-- A shift as arithmetic. -/
def shiftNat (c : Nat) : Nat := (c / 2) ^^^ (c % 2 * 40961)

theorem toNat_shift (c : UInt16) : (shift c).toNat = shiftNat c.toNat := by
  have hhalf : (c >>> 1).toNat = c.toNat / 2 := by
    rw [UInt16.toNat_shiftRight]
    exact Nat.shiftRight_one _
  have hcarry : (if c.toBitVec.getLsbD 0 then polynomial else 0).toNat = c.toNat % 2 * 40961 := by
    rw [BitVec.getLsbD, UInt16.toNat_toBitVec, Nat.testBit_zero]
    obtain h | h := Nat.mod_two_eq_zero_or_one c.toNat <;> rw [h] <;> rfl
  rw [shift_eq, UInt16.toNat_xor, hhalf, hcarry, shiftNat]

/-- Iteration that evaluates every step before it takes the next one. -/
def strictly (f : Nat → Nat) : Nat → Nat → Nat
  | 0, c => c
  | n + 1, c =>
    match f c with
    | 0 => strictly f n 0
    | m + 1 => strictly f n (m + 1)

theorem strictly_eq (f : Nat → Nat) (n c : Nat) : strictly f n c = f^[n] c := by
  induction n generalizing c with
  | zero => rfl
  | succ n ih =>
    rw [strictly, iterate_succ_apply]
    split <;> next h => rw [ih, h]

theorem isPeriodicPt_iff (n k : Nat) :
    IsPeriodicPt shift (n * k) 1 ↔ strictly shiftNat^[n] k 1 = 1 := by
  have hsemi : Semiconj UInt16.toNat shift shiftNat := toNat_shift
  have hnat : (shift^[n * k] 1).toNat = shiftNat^[n * k] 1 := hsemi.iterate_right (n * k) 1
  rw [strictly_eq, ← iterate_mul, ← hnat, IsPeriodicPt, IsFixedPt, ← UInt16.toNat_inj]
  rfl

/-- The generator is `x + 1` times a primitive polynomial of degree fifteen, so
that shifts lead a single bit through `2 ^ 15 - 1` registers. -/
theorem minimalPeriod_shift : minimalPeriod shift 1 = 32767 := by
  have hmiss {n k : Nat} (h : strictly shiftNat^[n] k 1 ≠ 1) : ¬minimalPeriod shift 1 ∣ n * k :=
    fun hdvd => h ((isPeriodicPt_iff n k).mp (isPeriodicPt_iff_minimalPeriod_dvd.mpr hdvd))
  have h7 : ¬minimalPeriod shift 1 ∣ 31 * 151 := hmiss (by decide +kernel)
  have h31 : ¬minimalPeriod shift 1 ∣ 7 * 151 := hmiss (by decide +kernel)
  have h151 : ¬minimalPeriod shift 1 ∣ 7 * 31 := hmiss (by decide +kernel)
  have hfull : IsPeriodicPt shift (151 * 217) 1 := (isPeriodicPt_iff 151 217).mpr (by decide +kernel)
  obtain ⟨q, hq⟩ := hfull.minimalPeriod_dvd
  by_contra hne
  -- A smaller period would divide the whole one with a prime to spare.
  obtain ⟨r, hr, t, rfl⟩ := Nat.exists_prime_and_dvd (show q ≠ 1 by rintro rfl; omega)
  rw [Nat.mul_left_comm] at hq
  have hprimes : r = 7 ∨ r = 31 ∨ r = 151 := by
    have hdvd : r ∣ 7 * (31 * 151) := ⟨minimalPeriod shift 1 * t, hq⟩
    rw [hr.dvd_mul, hr.dvd_mul] at hdvd
    simpa only [Nat.prime_dvd_prime_iff_eq hr (show Nat.Prime 7 by norm_num),
      Nat.prime_dvd_prime_iff_eq hr (show Nat.Prime 31 by norm_num),
      Nat.prime_dvd_prime_iff_eq hr (show Nat.Prime 151 by norm_num)] using hdvd
  obtain rfl | rfl | rfl := hprimes
  · exact h7 ⟨t, by omega⟩
  · exact h31 ⟨t, by omega⟩
  · exact h151 ⟨t, by omega⟩

theorem shifts_one_ne {n : Nat} (hpos : 0 < n) (hlt : n < 32767) : shifts n 1 ≠ 1 := by
  rw [shifts_eq_iterate]
  exact not_isPeriodicPt_of_pos_of_lt_minimalPeriod (Nat.ne_of_gt hpos)
    (minimalPeriod_shift ▸ hlt)

end Order

theorem exists_first_set {bits : List Bool} {k : Nat} (h : bits.count true = k + 1) :
    ∃ before after, bits = before ++ true :: after ∧ (∀ b ∈ before, b = false) ∧
      after.count true = k := by
  have hmem : true ∈ bits := List.count_pos_iff.mp (by omega)
  obtain ⟨before, after, rfl, hbefore⟩ := List.eq_append_cons_of_mem hmem
  refine ⟨before, after, rfl, fun b hb => ?_, ?_⟩
  · exact Bool.eq_false_iff.mpr fun ht => hbefore (ht ▸ hb)
  · rw [List.count_append, List.count_cons_self, List.count_eq_zero.mpr hbefore] at h
    omega

/-- Two bits would have to be a whole period apart to cancel out. -/
theorem foldl_ne_zero_of_two {bits : List Bool} (h : bits.count true = 2)
    (hlen : bits.length ≤ 32767) : bits.foldl addBit 0 ≠ 0 := by
  obtain ⟨before, rest, rfl, hbefore, hrest⟩ := exists_first_set h
  obtain ⟨between, after, rfl, hbetween, hafter⟩ := exists_first_set hrest
  have hnone : ∀ b ∈ after, b = false := fun b hb =>
    Bool.eq_false_iff.mpr fun ht => List.count_eq_zero.mp hafter (ht ▸ hb)
  have hzero : shifts before.length 0 = 0 := (shifts_eq_zero_iff _).mpr rfl
  have hone (c : UInt16) : addBit c true = shift (c ^^^ 1) := rfl
  simp only [List.foldl_append, List.foldl_cons, foldl_addBit_false hbefore,
    foldl_addBit_false hbetween, foldl_addBit_false hnone, hzero, hone, UInt16.zero_xor]
  rw [Ne, shifts_eq_zero_iff, shift_eq_zero_iff, UInt16.xor_eq_zero_iff]
  refine shifts_one_ne (n := between.length + 1) (Nat.succ_pos _) ?_
  simp only [List.length_append, List.length_cons] at hlen
  omega

end CommandLink.Checksum
