import CommandLink.Line.Format
import Mathlib.Algebra.Order.Floor.Div

namespace CommandLink.LineFormat

variable {line : LineFormat} {m n t : Nat}

/-- At rate zero the line is taken to run at one bit a second. -/
def rate (line : LineFormat) : Nat := max line.baudrate.toNat 1

/-- Within `t` milliseconds the line moves as many bits as `n` octets have. -/
def Covers (line : LineFormat) (n t : Nat) : Prop :=
  n * line.bitsPerByte * 1000 ≤ t * line.rate

instance (line : LineFormat) (n t : Nat) : Decidable (line.Covers n t) :=
  inferInstanceAs (Decidable (_ ≤ _))

/-- The milliseconds that `n` octets take, however many these are. -/
def leastTime (line : LineFormat) (n : Nat) : Nat := n * line.bitsPerByte * 1000 ⌈/⌉ line.rate

theorem rate_pos (line : LineFormat) : 0 < line.rate := Nat.le_max_right _ _

theorem leastTime_le_iff : line.leastTime n ≤ t ↔ line.Covers n t := by
  rw [leastTime, ceilDiv_le_iff_le_mul line.rate_pos, Nat.mul_comm line.rate, Covers]

theorem isLeast_leastTime (line : LineFormat) (n : Nat) :
    IsLeast {t | line.Covers n t} (line.leastTime n) :=
  ⟨leastTime_le_iff.mp le_rfl, fun _ => leastTime_le_iff.mpr⟩

theorem Covers.fewer (h : line.Covers n t) (hm : m ≤ n) : line.Covers m t :=
  le_trans (Nat.mul_le_mul_right _ (Nat.mul_le_mul_right _ hm)) h

theorem leastTime_mono (hm : m ≤ n) : line.leastTime m ≤ line.leastTime n := by
  apply leastTime_le_iff.mpr
  exact (isLeast_leastTime line n).1.fewer hm

/-- The time is cut to a word. -/
theorem toNat_transferTime_mod (line : LineFormat) (n : Nat) :
    (line.transferTime n).toNat = line.leastTime n % 2 ^ 32 := UInt32.toNat_ofNat'

/-- A time that is cut is less than the one that it is cut from. -/
theorem covers_transferTime_iff :
    line.Covers n (line.transferTime n).toNat ↔ line.Covers n (2 ^ 32 - 1) := by
  have hcut := line.toNat_transferTime_mod n
  rw [← leastTime_le_iff, ← leastTime_le_iff]
  omega

theorem toNat_transferTime_of_covers (h : line.Covers n (2 ^ 32 - 1)) :
    (line.transferTime n).toNat = line.leastTime n := by
  have hle := leastTime_le_iff.mpr h
  rw [toNat_transferTime_mod]
  apply Nat.mod_eq_of_lt
  omega

/-- A number that a word of 64 bits can hold. -/
def word64? (k : Nat) : Option Nat := if k < 2 ^ 64 then some k else none

/-- `transferTime` in words of 64 bits, with no answer where a product overflows. What
the division leaves over counts for one more millisecond. -/
def transferTimeInside? (line : LineFormat) (n : Nat) : Option UInt32 := do
  let bits ← word64? (n * line.bitsPerByte)
  let scaled ← word64? (bits * 1000)
  let quotient := scaled / line.rate
  some (.ofNat (if scaled % line.rate = 0 then quotient else quotient + 1))

theorem ceilDiv_eq {a b : Nat} (hb : 0 < b) :
    a ⌈/⌉ b = if a % b = 0 then a / b else a / b + 1 := by
  apply eq_of_forall_ge_iff
  intro c
  rw [ceilDiv_le_iff_le_mul hb]
  by_cases hrest : a % b = 0
  · rw [if_pos hrest, Nat.mul_comm]
    exact (Nat.div_le_iff_le_mul_of_dvd hb.ne' (Nat.dvd_of_mod_eq_zero hrest)).symm
  · have hne : a ≠ b * c := by
      rintro rfl
      exact hrest (Nat.mul_mod_right b c)
    rw [if_neg hrest, Nat.succ_le_iff, Nat.div_lt_iff_lt_mul hb, Nat.mul_comm c]
    exact hne.le_iff_lt

theorem transferTimeInside?_eq (h : n * line.bitsPerByte * 1000 < 2 ^ 64) :
    line.transferTimeInside? n = some (line.transferTime n) := by
  have hbits : n * line.bitsPerByte < 2 ^ 64 := by omega
  rw [transferTimeInside?, word64?, if_pos hbits, Option.bind_eq_bind, Option.bind_some, word64?,
    if_pos h, Option.bind_some]
  dsimp only
  rw [← ceilDiv_eq line.rate_pos]
  rfl

/-- The time of a transfer whose bits, a thousandfold, fit into 64 of them. It is the
least number of milliseconds within which the line moves the octets, cut to a word: it
understates no time that a word can hold, and it understates every other one. -/
theorem transferTime_least (h : n * line.bitsPerByte * 1000 < 2 ^ 64) :
    line.transferTimeInside? n = some (line.transferTime n) ∧
      (∃ t, IsLeast {t | line.Covers n t} t ∧ (line.transferTime n).toNat = t % 2 ^ 32) ∧
      (line.Covers n (line.transferTime n).toNat ↔ line.Covers n (2 ^ 32 - 1)) ∧
      (line.Covers n (2 ^ 32 - 1) →
        IsLeast {t | line.Covers n t} (line.transferTime n).toNat ∧
          ∀ m ≤ n, line.transferTime m ≤ line.transferTime n) := by
  refine ⟨transferTimeInside?_eq h, ⟨_, isLeast_leastTime line n, toNat_transferTime_mod line n⟩,
    covers_transferTime_iff, fun hfits => ⟨?_, fun m hm => ?_⟩⟩
  · rw [toNat_transferTime_of_covers hfits]
    exact isLeast_leastTime line n
  · rw [UInt32.le_iff_toNat_le, toNat_transferTime_of_covers hfits,
      toNat_transferTime_of_covers (hfits.fewer hm)]
    exact leastTime_mono hm

/-- The longest time of ten bits an octet that a word can hold, on a line at rate zero. -/
theorem transferTime_least_idle :
    let line : LineFormat := { baudrate := 0 }
    429496 * line.bitsPerByte * 1000 < 2 ^ 64 ∧ line.Covers 429496 (2 ^ 32 - 1) ∧
      line.transferTimeInside? 429496 = some (line.transferTime 429496) ∧
      IsLeast {t | line.Covers 429496 t} 4294960000 ∧
      line.transferTime 429495 ≤ line.transferTime 429496 := by
  intro line
  have hbits : 429496 * line.bitsPerByte * 1000 < 2 ^ 64 := by decide
  have hfits : line.Covers 429496 (2 ^ 32 - 1) := by decide
  obtain ⟨hinside, -, -, hleast⟩ := transferTime_least hbits
  obtain ⟨htime, hmono⟩ := hleast hfits
  rw [show (line.transferTime 429496).toNat = 4294960000 by decide] at htime
  exact ⟨hbits, hfits, hinside, htime, hmono 429495 (by decide)⟩

/-- One octet more, and the time is cut to less than three seconds. -/
theorem transferTime_cut :
    let line : LineFormat := { baudrate := 1 }
    429497 * line.bitsPerByte * 1000 < 2 ^ 64 ∧ line.transferTime 429497 = 2704 ∧
      IsLeast {t | line.Covers 429497 t} 4294970000 ∧ ¬line.Covers 429497 2704 ∧
      line.transferTime 429497 < line.transferTime 429496 := by
  intro line
  have hleast : line.leastTime 429497 = 4294970000 := by decide
  exact ⟨by decide, by decide, hleast ▸ isLeast_leastTime line 429497, by decide, by decide⟩

end CommandLink.LineFormat
