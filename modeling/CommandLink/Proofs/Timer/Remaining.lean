import CommandLink.Proofs.Timer.Slots

namespace CommandLink

namespace Timer

variable {t : Timer} {longest now r : UInt32}

theorem isDue_iff_left (harmed : t.armed = true) :
    t.isDue longest now = true ↔ t.deadline - now = 0 ∨ longest < t.deadline - now := by
  simp [isDue, harmed]

/-- A timer that is armed has nothing left if its deadline passes for the past, and
the way to the deadline otherwise. -/
theorem remaining_eq_some (h : t.remaining longest now = some r) :
    t.armed = true ∧
      (longest < t.deadline - now ∧ r = 0 ∨ t.deadline - now ≤ longest ∧ r = t.deadline - now) := by
  rw [remaining] at h
  split at h
  · next harmed =>
    refine ⟨harmed, ?_⟩
    dsimp only at h
    by_cases hpast : longest < t.deadline - now
    · rw [if_pos hpast, Option.some.injEq] at h
      exact .inl ⟨hpast, h.symm⟩
    · rw [if_neg hpast, Option.some.injEq] at h
      exact .inr ⟨UInt32.not_lt.mp hpast, h.symm⟩
  · cases h

theorem remaining_eq_none_iff : t.remaining longest now = none ↔ t.armed = false := by
  cases h : t.armed <;> simp [remaining, h]

theorem exists_remaining (harmed : t.armed = true) (longest now : UInt32) :
    ∃ r, t.remaining longest now = some r := by
  simp [remaining, harmed]

theorem isDue_at_remaining (h : t.remaining longest now = some r) :
    t.isDue longest (now + r) = true := by
  obtain ⟨harmed, ⟨hpast, rfl⟩ | ⟨-, rfl⟩⟩ := remaining_eq_some h
  · rw [isDue_iff_left harmed, add_zero]
    exact .inr hpast
  · rw [isDue_iff_left harmed, sub_add_eq_sub_sub, sub_self]
    exact .inl rfl

theorem not_isDue_before_remaining (h : t.remaining longest now = some r) {k : UInt32}
    (hk : k < r) : t.isDue longest (now + k) = false := by
  obtain ⟨harmed, ⟨-, rfl⟩ | ⟨hahead, rfl⟩⟩ := remaining_eq_some h
  · exact absurd hk UInt32.not_lt_zero
  · -- What is left then is not zero, and no more than what is left now.
    have hleft := UInt32.toNat_sub_of_le _ _ (UInt32.le_of_lt hk)
    rw [UInt32.lt_iff_toNat_lt] at hk
    rw [UInt32.le_iff_toNat_le] at hahead
    rw [← Bool.not_eq_true, isDue_iff_left harmed, sub_add_eq_sub_sub, UInt32.lt_iff_toNat_lt,
      ← UInt32.toNat_inj, UInt32.toNat_zero]
    omega

/-- What remains is the way to the first time at which the timer is due. -/
theorem remaining_eq_some_iff : t.remaining longest now = some r ↔
    t.isDue longest (now + r) = true ∧ ∀ k < r, t.isDue longest (now + k) = false := by
  refine ⟨fun h => ⟨isDue_at_remaining h, fun k hk => not_isDue_before_remaining h hk⟩, ?_⟩
  rintro ⟨hdue, hbefore⟩
  have harmed : t.armed = true := by
    rw [isDue, Bool.and_eq_true] at hdue
    exact hdue.1
  obtain ⟨r', hr'⟩ := exists_remaining harmed longest now
  have hle : r' ≤ r := by
    refine UInt32.not_lt.mp fun hlt => ?_
    rw [not_isDue_before_remaining hr' hlt] at hdue
    cases hdue
  have hge : r ≤ r' := by
    refine UInt32.not_lt.mp fun hlt => ?_
    have hnot := hbefore r' hlt
    rw [isDue_at_remaining hr'] at hnot
    cases hnot
  rw [hr', UInt32.le_antisymm hle hge]

theorem remaining_eq_zero_iff :
    t.remaining longest now = some 0 ↔ t.isDue longest now = true := by
  rw [remaining_eq_some_iff, add_zero, and_iff_left_iff_imp]
  exact fun _ k hk => absurd hk UInt32.not_lt_zero

/-- A timer that is never due is none that runs. -/
theorem armed_eq_false_iff (longest : UInt32) :
    t.armed = false ↔ ∀ now, t.isDue longest now = false := by
  constructor
  · intro hoff now
    rw [isDue, hoff]
    rfl
  · intro hnever
    refine Bool.eq_false_iff.mpr fun harmed => ?_
    obtain ⟨r, hr⟩ := exists_remaining harmed longest 0
    have hdue := isDue_at_remaining hr
    rw [hnever] at hdue
    cases hdue

end Timer

namespace TimerQueue

variable {s : Nat}

/-- In every state of a queue, what remains of a timer agrees with its expiry: it is
the way to the first time at which the slot is reported, nothing remains exactly if the
slot is reported at once, and one that is not armed is never reported. -/
theorem remaining_agrees (q : TimerQueue s) (slot : Fin s) (now : UInt32) :
    (∀ r, q.remaining slot now = some r ↔
        (q.expire (now + r)).1.contains slot = true ∧
          ∀ k < r, (q.expire (now + k)).1.contains slot = false) ∧
      (q.remaining slot now = some 0 ↔ (q.expire now).1.contains slot = true) ∧
      (q.remaining slot now = none ↔ q.isArmed slot = false) ∧
      (q.isArmed slot = false ↔ ∀ time, (q.expire time).1.contains slot = false) := by
  simp only [contains_expire]
  exact ⟨fun r => Timer.remaining_eq_some_iff, Timer.remaining_eq_zero_iff,
    Timer.remaining_eq_none_iff, Timer.armed_eq_false_iff q.longest⟩

/-- Asked shortly before the clock wraps, of a deadline behind it. -/
theorem remaining_agrees_wrap :
    let q : TimerQueue 2 := (new 2 5000).update 1 fun t => t.arm 2000 4294967000
    q.remaining 1 4294967200 = some 1800 ∧
      (q.expire (4294967200 + 1800)).1.contains 1 = true ∧
      ∀ k < 1800, (q.expire (4294967200 + k)).1.contains 1 = false := by
  intro q
  have hleft : q.remaining 1 4294967200 = some 1800 := by decide
  obtain ⟨hfirst, -, -, -⟩ := remaining_agrees q 1 4294967200
  obtain ⟨hfired, hbefore⟩ := (hfirst 1800).mp hleft
  exact ⟨hleft, hfired, hbefore⟩

end TimerQueue

end CommandLink
