import CommandLink.Timer.Queue
import Mathlib.Data.List.FinRange
import Mathlib.Data.UInt
import Mathlib.Order.Minimal

namespace CommandLink

/-- What is left of a timer, however the clock wraps. -/
theorem Timer.left_eq {t : Timer} {delay armed : UInt32} (h : t.deadline = armed + delay)
    (now : UInt32) : t.deadline - now = delay - (now - armed) := by
  rw [h]
  grind

/-- A timer is not due before its delay has passed. -/
theorem Timer.elapsed_of_isDue {t : Timer} {longest delay armed now : UInt32}
    (hdeadline : t.deadline = armed + delay) (hdelay : delay ≤ longest)
    (h : t.isDue longest now = true) : delay ≤ now - armed := by
  by_contra hlt
  rw [UInt32.not_le] at hlt
  have hleft := Timer.left_eq hdeadline now
  have hnat := UInt32.toNat_sub_of_le delay (now - armed) (UInt32.le_of_lt hlt)
  rw [UInt32.lt_iff_toNat_lt] at hlt
  rw [UInt32.le_iff_toNat_le] at hdelay
  rw [Timer.isDue, hleft] at h
  simp only [Bool.and_eq_true, Bool.or_eq_true, decide_eq_true_eq, UInt32.lt_iff_toNat_lt] at h
  obtain ⟨-, h0 | hpast⟩ := h
  · rw [h0] at hnat
    simp only [UInt32.toNat_zero] at hnat
    omega
  · omega

/-- A timer is due from its deadline on, for as long as the deadline can be told
from one that lies ahead. -/
theorem Timer.isDue_of_elapsed {t : Timer} {longest delay armed now : UInt32}
    (harmed : t.armed = true) (hdeadline : t.deadline = armed + delay)
    (hlate : delay ≤ now - armed)
    (hseen : (now - armed).toNat ≤ delay.toNat + (2 ^ 32 - 1 - longest.toNat)) :
    t.isDue longest now = true := by
  have hleft := Timer.left_eq hdeadline now
  have hlong := longest.toNat_lt
  have hnow := (now - armed).toNat_lt
  have hdelay := delay.toNat_lt
  rw [Timer.isDue, hleft, harmed]
  simp only [Bool.true_and, Bool.or_eq_true, decide_eq_true_eq]
  rw [UInt32.le_iff_toNat_le] at hlate
  rw [UInt32.lt_iff_toNat_lt, ← UInt32.toNat_inj, UInt32.toNat_sub, UInt32.toNat_zero]
  omega

/-- A timer is due for so long that its deadline never seems to lie ahead. -/
theorem Timer.seen_of_isDue {t : Timer} {longest delay armed now : UInt32}
    (hdeadline : t.deadline = armed + delay) (h : t.isDue longest now = true) :
    (now - armed).toNat ≤ delay.toNat + (2 ^ 32 - 1 - longest.toNat) := by
  have hleft := Timer.left_eq hdeadline now
  generalize now - armed = elapsed at hleft ⊢
  have hnow := elapsed.toNat_lt
  have hdelay := delay.toNat_lt
  have hlong := longest.toNat_lt
  rw [Timer.isDue, hleft] at h
  simp only [Bool.and_eq_true, Bool.or_eq_true, decide_eq_true_eq, UInt32.lt_iff_toNat_lt,
    ← UInt32.toNat_inj, UInt32.toNat_sub, UInt32.toNat_zero] at h
  omega

theorem Timer.isDue_iff {t : Timer} {longest delay armed now : UInt32} (harmed : t.armed = true)
    (hdeadline : t.deadline = armed + delay) (hdelay : delay ≤ longest) :
    t.isDue longest now = true ↔ delay ≤ now - armed ∧
      (now - armed).toNat ≤ delay.toNat + (2 ^ 32 - 1 - longest.toNat) :=
  ⟨fun h => ⟨Timer.elapsed_of_isDue hdeadline hdelay h, Timer.seen_of_isDue hdeadline h⟩,
    fun h => Timer.isDue_of_elapsed harmed hdeadline h.1 h.2⟩

theorem Timer.isCurrent_expire {t : Timer} {longest now : UInt32}
    (h : t.isDue longest now = true) :
    (t.expire longest now).isCurrent t.generation = true := by
  rw [Timer.expire, if_pos h]
  simp [Timer.isCurrent]

/-- A timer that has fired does not fire again by itself. -/
theorem Timer.expire_of_isCurrent {t : Timer} {generation : UInt16}
    (h : t.isCurrent generation = true) (longest now : UInt32) : t.expire longest now = t := by
  rw [Timer.isCurrent, Bool.and_eq_true, Bool.not_eq_true'] at h
  rw [Timer.expire, Timer.isDue, h.1]
  rfl

namespace TimerQueue

variable {s : Nat}

@[simp]
theorem timer_update_self (q : TimerQueue s) (slot : Fin s) (f : Timer → Timer) :
    (q.update slot f).timer slot = f (q.timer slot) :=
  Vector.getElem_set_self slot.isLt

theorem timer_update_ne (q : TimerQueue s) {slot slot' : Fin s} (h : slot' ≠ slot)
    (f : Timer → Timer) : (q.update slot f).timer slot' = q.timer slot' := by
  have hv : slot.val ≠ slot'.val := fun he => h (Fin.ext he.symm)
  exact Vector.getElem_set_ne slot.isLt slot'.isLt hv

@[simp]
theorem timer_expire (q : TimerQueue s) (now : UInt32) (slot : Fin s) :
    (q.expire now).2.timer slot = (q.timer slot).expire q.longest now :=
  Vector.getElem_map _ slot.isLt

theorem arm_of_le {q : TimerQueue s} {delay : UInt32} (h : delay ≤ q.longest) (slot : Fin s)
    (now : UInt32) : q.arm slot delay now = .ok (q.update slot fun t => t.arm delay now) := by
  rw [arm, if_neg (UInt32.not_lt.mpr h)]

theorem allocate_eq_ok {q q' : TimerQueue s} {slot : Fin s} (h : q.allocate = .ok (slot, q')) :
    (q.timer slot).allocated = false ∧ q' = q.update slot fun _ => { allocated := true } := by
  rw [allocate] at h
  split at h
  · cases h
  · next slot' hfound =>
    simp only [Except.ok.injEq, Prod.mk.injEq] at h
    obtain ⟨rfl, rfl⟩ := h
    obtain ⟨i, hi, rfl⟩ := Option.map_eq_some_iff.mp hfound
    have hfree := (Array.findFinIdx?_eq_some_iff.mp hi).1
    rw [Bool.not_eq_true'] at hfree
    exact ⟨hfree, rfl⟩

/-- The first free slot is given out. -/
theorem allocate_of_first {q : TimerQueue s} {slot : Fin s}
    (hfree : (q.timer slot).allocated = false)
    (hbelow : ∀ slot' < slot, (q.timer slot').allocated = true) :
    q.allocate = .ok (slot, q.update slot fun _ => { allocated := true }) := by
  have hfound : q.timers.findFinIdx? (fun t => !t.allocated) = some slot := by
    refine Option.map_eq_some_iff.mpr ⟨slot.cast q.timers.size_toArray.symm, ?_, rfl⟩
    refine Array.findFinIdx?_eq_some_iff.mpr ⟨?_, fun j hj => ?_⟩
    · exact (congrArg not hfree : (!(q.timer slot).allocated) = true)
    · have hused := hbelow (j.cast q.timers.size_toArray) hj
      rw [Bool.not_eq_true, Bool.not_eq_false']
      exact hused
  rw [allocate, hfound]

def fired? (q : TimerQueue s) (now : UInt32) (slot : Fin s) : Option (Fin s × UInt16) :=
  if (q.timer slot).isDue q.longest now then some (slot, (q.timer slot).generation) else none

theorem lookup_fired_of_due {q : TimerQueue s} {now : UInt32} {slot : Fin s}
    (hd : (q.timer slot).isDue q.longest now = true) {slots : List (Fin s)} (hm : slot ∈ slots) :
    (slots.filterMap (q.fired? now)).lookup slot = some (q.timer slot).generation := by
  induction slots with
  | nil => cases hm
  | cons slot' slots ih =>
    by_cases he : slot' = slot
    · subst he
      simp [fired?, hd]
    · have hi := ih ((List.mem_cons.mp hm).resolve_left (Ne.symm he))
      by_cases hd' : (q.timer slot').isDue q.longest now = true
      · have hne : (slot == slot') = false := beq_false_of_ne (Ne.symm he)
        simpa [fired?, hd', List.lookup_cons, hne] using hi
      · simpa [fired?, hd'] using hi

theorem lookup_fired_of_not_due {q : TimerQueue s} {now : UInt32} {slot : Fin s}
    (hd : ¬(q.timer slot).isDue q.longest now = true) (slots : List (Fin s)) :
    (slots.filterMap (q.fired? now)).lookup slot = none := by
  rw [List.lookup_eq_none_iff]
  rintro ⟨slot', generation⟩ hm
  obtain ⟨slot'', -, hf⟩ := List.mem_filterMap.mp hm
  rw [fired?] at hf
  split at hf
  · next hd' =>
    cases hf
    exact bne_iff_ne.mpr fun he => hd (he ▸ hd')
  · cases hf

/-- An expiry tells of a slot exactly if its timer was due. -/
theorem generationOf?_expire (q : TimerQueue s) (now : UInt32) (slot : Fin s) :
    (q.expire now).1.generationOf? slot =
      if (q.timer slot).isDue q.longest now then some (q.timer slot).generation else none := by
  show ((List.finRange s).filterMap (q.fired? now)).lookup slot = _
  split
  · next hd => exact lookup_fired_of_due hd (List.mem_finRange slot)
  · next hd => exact lookup_fired_of_not_due hd _

theorem contains_expire (q : TimerQueue s) (now : UInt32) (slot : Fin s) :
    (q.expire now).1.contains slot = (q.timer slot).isDue q.longest now := by
  rw [Expiry.contains, generationOf?_expire]
  cases (q.timer slot).isDue q.longest now <;> rfl

/-- A timer that is due fires, and its expiry is current at first. -/
theorem fires_of_isDue {q : TimerQueue s} {slot : Fin s} {now : UInt32}
    (hd : (q.timer slot).isDue q.longest now = true) :
    (q.expire now).1.generationOf? slot = some (q.timer slot).generation ∧
      (q.expire now).2.isCurrent slot (q.timer slot).generation = true := by
  rw [generationOf?_expire, if_pos hd, isCurrent, timer_expire]
  exact ⟨rfl, Timer.isCurrent_expire hd⟩

end TimerQueue

end CommandLink
