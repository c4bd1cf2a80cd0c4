namespace CommandLink.Text

/-- A decimal literal without its sign: `digits` times ten to the `exponent`. -/
structure Decimal where
  digits : Nat
  exponent : Int
  deriving DecidableEq

namespace Decimal

def tens (k : Nat) : Nat := Nat.pow 10 k

/-- The middle between the greatest double and the power of two above it. -/
def bound : Nat := Nat.pow 2 1024 - Nat.pow 2 970

/-- Whether the nearest double is infinite. The middle itself counts, since a
tie goes to the even neighbour. No power of ten is computed that is longer
than the bound or the digits. -/
def isInfinite (d : Decimal) : Bool :=
  match d.exponent with
  | .ofNat k => d.digits ≠ 0 && (308 < k || bound ≤ d.digits * tens k)
  | .negSucc k => k < d.digits.log2 && bound * tens (k + 1) ≤ d.digits

theorem bound_pos : 0 < bound := by decide +kernel

theorem tens_le_tens {j k : Nat} (h : j ≤ k) : tens j ≤ tens k :=
  Nat.pow_le_pow_right (by decide) h

theorem bound_le_tens {k : Nat} (h : 308 < k) : bound ≤ tens k :=
  Nat.le_trans (by decide +kernel : bound ≤ tens 309) (tens_le_tens h)

theorem lt_tens {m k : Nat} (h : m.log2 ≤ k) : m < tens (k + 1) :=
  Nat.lt_of_lt_of_le Nat.lt_log2_self
    (Nat.le_trans (Nat.pow_le_pow_right (by decide) (Nat.succ_le_succ h))
      (Nat.pow_le_pow_left (by decide) _))

theorem isInfinite_iff (d : Decimal) :
    d.isInfinite = true ↔
      bound * tens (-d.exponent).toNat ≤ d.digits * tens d.exponent.toNat := by
  obtain ⟨m, e⟩ := d
  have hone : tens 0 = 1 := rfl
  have hpos := bound_pos
  cases e with
  | ofNat k =>
    have hneg : (-Int.ofNat k).toNat = 0 := by simp
    show (decide (m ≠ 0) && (decide (308 < k) || decide (bound ≤ m * tens k))) = true ↔
      bound * tens (-Int.ofNat k).toNat ≤ m * tens k
    rw [hneg, hone, Nat.mul_one]
    by_cases hm : m = 0
    · simp [hm, Nat.pos_iff_ne_zero.mp hpos]
    · by_cases hk : 308 < k
      · have hle : tens k ≤ m * tens k := Nat.le_mul_of_pos_left _ (Nat.pos_of_ne_zero hm)
        simp [hm, hk, Nat.le_trans (bound_le_tens hk) hle]
      · simp [hm, hk]
  | negSucc k =>
    show (decide (k < m.log2) && decide (bound * tens (k + 1) ≤ m)) = true ↔
      bound * tens (k + 1) ≤ m * tens 0
    rw [hone, Nat.mul_one]
    by_cases hk : k < m.log2
    · simp [hk]
    · have hlt := lt_tens (Nat.le_of_not_lt hk)
      have hle : tens (k + 1) ≤ bound * tens (k + 1) := Nat.le_mul_of_pos_left _ hpos
      simp [hk]
      omega

end Decimal

end CommandLink.Text
