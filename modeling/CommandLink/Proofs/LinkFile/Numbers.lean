import CommandLink.LinkFile.Reader
import CommandLink.Proofs.Text.Slices
import CommandLink.Proofs.Toml.Tokens
import Mathlib.Algebra.Group.Nat.Defs
import Mathlib.Algebra.Group.Int.Defs

namespace CommandLink.LinkFile

open Document Text Toml

theorem decimal?_eq_some {cs : List Char} {n : Nat} (h : Text.decimal? cs = some n) :
    cs ≠ [] ∧ (∀ c ∈ cs, c.isDigit = true) ∧ n = digitsValue cs := by
  unfold Text.decimal? at h
  split at h
  · cases h
  · rename_i hcs
    simp only [Bool.or_eq_true, List.isEmpty_iff, Bool.not_eq_true', not_or,
      Bool.not_eq_false, List.all_eq_true] at hcs
    exact ⟨hcs.1, hcs.2, (Option.some.inj h).symm⟩

theorem decimal?_of_digits {cs : List Char} (hne : cs ≠ []) (h : ∀ c ∈ cs, c.isDigit = true) :
    Text.decimal? cs = some (digitsValue cs) := by
  have hall : cs.all Char.isDigit = true := List.all_eq_true.mpr h
  simp [Text.decimal?, hne, hall]

theorem readNumber?_eq_some {bound n : Nat} {cs : List Char} (h : readNumber? bound cs = some n) :
    n < bound ∧ utf8Len (cs.filter (· ≠ '_')) ≤ 16 ∧
      Text.decimal? (dropPlus (cs.filter (· ≠ '_'))) = some n := by
  unfold readNumber? at h
  dsimp only at h
  split at h
  · cases h
  · rename_i hlen
    rw [Option.filter_eq_some_iff] at h
    exact ⟨of_decide_eq_true h.2, Nat.le_of_not_lt hlen, h.1⟩

theorem dropPlus_cases (cs : List Char) : dropPlus cs = cs ∨ cs = '+' :: dropPlus cs := by
  unfold dropPlus
  split
  · exact .inr rfl
  · exact .inl rfl

theorem dropPlus_of_digits {ds : List Char} (h : ∀ c ∈ ds, c.isDigit = true) :
    dropPlus ds = ds := by
  obtain heq | heq := dropPlus_cases ds
  · exact heq
  · exact absurd (h '+' (heq ▸ List.mem_cons_self)) (by decide)

/-- What reads as a number is made of digits, underscores and plus signs. -/
theorem digits_of_readNumber? {bound n : Nat} {cs : List Char}
    (h : readNumber? bound cs = some n) :
    cs ≠ [] ∧ ∀ c ∈ cs, isDigitPart c = true ∨ c = '+' := by
  obtain ⟨hne, hdigits, -⟩ := decimal?_eq_some (readNumber?_eq_some h).2.2
  refine ⟨?_, fun c hc => ?_⟩
  · rintro rfl
    exact hne rfl
  · by_cases hline : c = '_'
    · rw [hline]
      exact .inl (by decide)
    · have hkept : c ∈ cs.filter (· ≠ '_') := List.mem_filter.mpr ⟨hc, by simpa using hline⟩
      have hdigit {d : Char} (hd : d ∈ dropPlus (cs.filter (· ≠ '_'))) : isDigitPart d = true := by
        simp [isDigitPart, hdigits d hd]
      obtain heq | heq := dropPlus_cases (cs.filter (· ≠ '_'))
      · rw [← heq] at hkept
        exact .inl (hdigit hkept)
      · rw [heq, List.mem_cons] at hkept
        exact hkept.symm.imp_left hdigit

/-- Digits without a zero before others. -/
structure Natural (ds : List Char) : Prop where
  all : ∀ c ∈ ds, c.isDigit = true
  head : ∃ c rest, ds = c :: rest ∧ (c = '0' → rest = [])

theorem natural_of_natural? {cs ds : List Char} (h : natural? cs = some ds) :
    ds = cs.filter (· ≠ '_') ∧ Natural ds := by
  obtain ⟨hdigits, hzero⟩ := natural?_eq_some h
  obtain ⟨⟨hall, c, rest, rfl, hc⟩, rfl⟩ := digits?_eq_some hdigits
  refine ⟨rfl, ?_, ?_⟩
  · intro d hd
    rw [List.mem_filter] at hd
    have hpart := hall d hd.1
    rw [isDigitPart, Bool.or_eq_true] at hpart
    exact hpart.resolve_right (by simpa using hd.2)
  · have hline : c ≠ '_' := by
      rintro rfl
      exact absurd hc (by decide)
    refine ⟨c, rest.filter (· ≠ '_'), List.filter_cons_of_pos (by simpa using hline), ?_⟩
    rintro rfl
    cases rest with
    | nil => rfl
    | cons d rest => exact absurd rfl (hzero d rest)

/-- An integer without a minus sign is read digit by digit. -/
theorem integer?_eq_digitsValue {cs : List Char} {i : Int} (h : Document.integer? cs = some i)
    (hminus : '-' ∉ cs) :
    i = digitsValue (dropPlus (cs.filter (· ≠ '_'))) ∧
      Natural (dropPlus (cs.filter (· ≠ '_'))) := by
  obtain ⟨ds, hds, rfl⟩ := integer?_eq_some h
  obtain hs | ⟨sign, rest, hsign, rfl, hs⟩ := splitSign_cases cs
  · rw [hs] at hds ⊢
    obtain ⟨rfl, hnatural⟩ := natural_of_natural? hds
    rw [dropPlus_of_digits hnatural.all]
    exact ⟨rfl, hnatural⟩
  · rw [hs] at hds ⊢
    obtain ⟨rfl, hnatural⟩ := natural_of_natural? hds
    rw [List.mem_pair] at hsign
    obtain rfl | rfl := hsign
    · exact ⟨rfl, hnatural⟩
    · exact absurd List.mem_cons_self hminus

/-- A number that both readers take is the same for both. -/
theorem integer_of_readNumber? {bound n : Nat} {cs : List Char} {v : Value}
    (h : readNumber? bound cs = some n) (hv : Val cs v) :
    Document.integer? cs = some (n : Int) ∧ v = .integer n := by
  obtain ⟨hne, hdigits⟩ := digits_of_readNumber? h
  have hminus : '-' ∉ cs := fun hc => absurd (hdigits _ hc) (by decide)
  obtain ⟨c, cs, rfl⟩ := List.exists_cons_of_ne_nil hne
  have hc : c ∉ openers :=
    not_opener_of_bare ((hdigits c List.mem_cons_self).imp_left bare_of_part)
  obtain ⟨i, hi, rfl⟩ := (hv.word_of_head hc).integer_of_digits hdigits
  obtain ⟨rfl, -⟩ := integer?_eq_digitsValue hi hminus
  obtain ⟨-, -, rfl⟩ := decimal?_eq_some (readNumber?_eq_some h).2.2
  exact ⟨hi, rfl⟩

theorem digit_bounds {c : Char} (h : c.isDigit = true) : 48 ≤ c.toNat ∧ c.toNat ≤ 57 := by
  rw [Char.isDigit, Bool.and_eq_true, decide_eq_true_eq, decide_eq_true_eq] at h
  exact h

theorem utf8Size_of_digit {c : Char} (h : c.isDigit = true) : c.utf8Size = 1 := by
  have hval : c.val ≤ 127 := Nat.le_trans (digit_bounds h).2 (by decide)
  exact if_pos hval

theorem digitValue_pos {c : Char} (h : c.isDigit = true) (hc : c ≠ '0') : 0 < digitValue c := by
  have hle := (digit_bounds h).1
  have hne : c.toNat ≠ 48 := fun heq => hc (Char.toNat_inj.mp heq)
  have hzero : '0'.toNat = 48 := rfl
  rw [digitValue, hzero]
  omega

theorem mul_pow_le_foldl (n : Nat) (cs : List Char) :
    n * 10 ^ cs.length ≤ cs.foldl (fun n c => 10 * n + digitValue c) n := by
  induction cs generalizing n with
  | nil => simp
  | cons c cs ih =>
    have hstep : n * 10 ^ (c :: cs).length = 10 * n * 10 ^ cs.length := by
      rw [List.length_cons, Nat.pow_succ, Nat.mul_comm _ 10, ← Nat.mul_assoc, Nat.mul_comm n]
    rw [hstep, List.foldl_cons]
    exact Nat.le_trans (Nat.mul_le_mul_right _ (Nat.le_add_right _ _)) (ih _)

/-- A number with many digits is large. -/
theorem Natural.length_le {ds : List Char} (h : Natural ds) {k : Nat} (hk : 0 < k)
    (hlt : digitsValue ds < 10 ^ k) : ds.length ≤ k := by
  obtain ⟨c, rest, rfl, hzero⟩ := h.head
  by_cases hc : c = '0'
  · rw [hzero hc]
    exact hk
  · have hpos := digitValue_pos (h.all c List.mem_cons_self) hc
    have hfold := mul_pow_le_foldl (digitValue c) rest
    have hvalue : digitsValue (c :: rest) =
        rest.foldl (fun n c => 10 * n + digitValue c) (digitValue c) := by
      rw [digitsValue, List.foldl_cons, Nat.mul_zero, Nat.zero_add]
    have hle : 10 ^ rest.length ≤ digitsValue (c :: rest) :=
      hvalue ▸ Nat.le_trans (Nat.le_mul_of_pos_left _ hpos) hfold
    exact (Nat.pow_lt_pow_iff_right (by decide)).mp (Nat.lt_of_le_of_lt hle hlt)

/-- An integer is made of digits and underscores behind a sign. -/
theorem parts_of_integer? {cs : List Char} {i : Int} (h : Document.integer? cs = some i) :
    ∀ c ∈ cs, isDigitPart c = true ∨ c ∈ ['+', '-'] := by
  have hrun := run_of_integer? h
  obtain hs | ⟨sign, rest, hsign, rfl, hs⟩ := splitSign_cases cs
  · rw [hs] at hrun
    exact fun c hc => .inl (hrun.all c hc)
  · rw [hs] at hrun
    exact List.forall_mem_cons.mpr ⟨.inr hsign, fun c hc => .inl (hrun.all c hc)⟩

theorem minus_first {cs : List Char} {i : Int} (h : Document.integer? cs = some i)
    (hminus : '-' ∈ cs) : (∃ rest, cs = '-' :: rest) ∧ i ≤ 0 := by
  have hno : '-' ∉ (splitSign cs).2 := fun hc => absurd ((run_of_integer? h).all _ hc) (by decide)
  obtain ⟨ds, -, rfl⟩ := integer?_eq_some h
  obtain hs | ⟨sign, rest, -, rfl, hs⟩ := splitSign_cases cs
  · rw [hs] at hno
    exact absurd hminus hno
  · rw [hs] at hno ⊢
    obtain rfl : '-' = sign := (List.mem_cons.mp hminus).resolve_right hno
    exact ⟨⟨rest, rfl⟩, Int.neg_nonpos_of_nonneg (Int.natCast_nonneg _)⟩

/-- Sixteen octets are enough for the integers that the build check admits. -/
theorem readNumber?_of_integer? {bound : Nat} {cs : List Char} {i : Int}
    (h : Document.integer? cs = some i) (hpos : 0 < i) (hsmall : i < 10 ^ 15) (hbound : i < bound) :
    readNumber? bound cs = some i.toNat := by
  have hminus : '-' ∉ cs := fun hc => absurd (minus_first h hc).2 (Int.not_le.mpr hpos)
  obtain ⟨rfl, hnatural⟩ := integer?_eq_digitsValue h hminus
  have hcases := dropPlus_cases (cs.filter (· ≠ '_'))
  have hlength : utf8Len (cs.filter (· ≠ '_')) ≤ 16 := by
    generalize dropPlus (cs.filter (· ≠ '_')) = ds at hcases hnatural hsmall
    have hds : ds.length ≤ 15 := hnatural.length_le (by decide) (by exact_mod_cast hsmall)
    have hutf8 : utf8Len ds = ds.length :=
      utf8Len_eq_length fun c hc => utf8Size_of_digit (hnatural.all c hc)
    obtain rfl | heq := hcases
    · omega
    · rw [heq, utf8Len, hutf8, show '+'.utf8Size = 1 from rfl]
      omega
  obtain ⟨c, rest, hhead, -⟩ := hnatural.head
  have hdecimal := decimal?_of_digits (by rw [hhead]; simp) hnatural.all
  rw [Int.toNat_natCast]
  unfold readNumber?
  dsimp only
  rw [if_neg (Nat.not_lt.mpr hlength), hdecimal, Option.filter_some, if_pos]
  exact decide_eq_true (by exact_mod_cast hbound)

end CommandLink.LinkFile
