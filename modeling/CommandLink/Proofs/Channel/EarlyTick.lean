import CommandLink.Proofs.Channel.System
import CommandLink.Proofs.Device.Link
import CommandLink.Proofs.Timer.Firing

namespace CommandLink

/-- A sample of the clock from before an arm adds to what is left of the timer. What
no timer may be armed for then passes for the past. -/
theorem Timer.isDue_early {t : Timer} {longest delay armed k : UInt32} (harmed : t.armed = true)
    (hdeadline : t.deadline = armed + delay) (hdelay : delay ≤ longest)
    (hlong : longest.toNat < 2 ^ 31) (hpos : 0 < k.toNat) (hk : k.toNat ≤ 2 ^ 31) :
    t.isDue longest (armed - k) = true ↔ longest.toNat < delay.toNat + k.toNat := by
  have hback : (armed - k - armed).toNat = 2 ^ 32 - k.toNat := by
    have hneg : armed - k - armed = 0 - k := by grind
    rw [hneg, UInt32.toNat_sub, UInt32.toNat_zero, Nat.add_zero]
    omega
  rw [Timer.isDue_iff harmed hdeadline hdelay, UInt32.le_iff_toNat_le, hback]
  rw [UInt32.le_iff_toNat_le] at hdelay
  omega

theorem TimerQueue.contains_early {s : Nat} {q q' : TimerQueue s} {slot : Fin s}
    {delay now k : UInt32} (harm : q.arm slot delay now = .ok q')
    (hlong : q.longest.toNat < 2 ^ 31) (hpos : 0 < k.toNat) (hk : k.toNat ≤ 2 ^ 31) :
    (q'.expire (now - k)).1.contains slot = true ↔ q.longest.toNat < delay.toNat + k.toNat := by
  rw [arm] at harm
  split at harm
  · cases harm
  · next hdelay =>
    cases harm
    rw [contains_expire, timer_update_self]
    exact Timer.isDue_early rfl rfl (UInt32.not_lt.mp hdelay) hlong hpos hk

namespace System

variable {s : Nat}

theorem longest_step {sys : System s} (h : Sound sys) (ev : Event s) :
    (sys.step ev).timers.longest = sys.timers.longest := by
  have ht := turn h ev
  generalize sys.step ev = sys' at ht
  cases ht with
  | used i op m hm hev => exact (Session.apply_wakes (h.inv i m hm) (h.timeout i m hm) op).longest
  | joined | ticked | elsewhere | idle => rfl

theorem longest_run {sys : System s} (h : Sound sys) (evs : List (Event s)) :
    (sys.run evs).timers.longest = sys.timers.longest := by
  induction evs using List.reverseRecOn with
  | nil => rfl
  | append_singleton evs ev ih => rw [run_snoc, longest_step (sound_run h evs), ih]

/-- An arrival starts the timer of its channel anew. -/
theorem apply_arrival {sys : System s} (h : Sound sys) {i : Nat} {m : Member s}
    (hm : sys.member? i = some m) {op : Op s} {now : UInt32} (ha : op.arrival? = some now) :
    (m.apply sys.timers op).2 = sys.timers.update m.slot fun t => t.arm m.timeout now := by
  have hw := Session.apply_wakes (h.inv i m hm) (h.timeout i m hm) op
  cases hw with
  | armed now' ha' ht =>
    rw [ha] at ha'
    cases ha'
    exact ht
  | idle ha' | cancelled _ ha' =>
    rw [ha] at ha'
    cases ha'

theorem isDue_arrival {sys : System s} (h : Sound sys) {i : Nat} {m : Member s}
    (hm : sys.member? i = some m) {op : Op s} {now k : UInt32} (ha : op.arrival? = some now)
    (hlong : sys.timers.longest.toNat < 2 ^ 31) (hpos : 0 < k.toNat) (hk : k.toNat ≤ 2 ^ 31) :
    ((m.apply sys.timers op).2.timer m.slot).isDue (m.apply sys.timers op).2.longest (now - k) =
      true ↔ sys.timers.longest.toNat < m.timeout.toNat + k.toNat := by
  rw [apply_arrival h hm ha, TimerQueue.timer_update_self]
  exact Timer.isDue_early rfl rfl (h.timeout i m hm) hlong hpos hk

end System

/-- An expiry that has just been taken clears the input of a channel exactly if the
timer of the channel was due. -/
theorem Channel.handleExpired_expire {C : Type} {n s : Nat} (ch : Channel C n s)
    (timers : TimerQueue s) (now : UInt32) :
    if (timers.timer ch.slot).isDue timers.longest now then
      (ch.handleExpired (timers.expire now).2 (timers.expire now).1).1 = true ∧
        (ch.handleExpired (timers.expire now).2 (timers.expire now).1).2.rx.len = 0
    else ch.handleExpired (timers.expire now).2 (timers.expire now).1 = (false, ch) := by
  rw [handleExpired]
  split
  · next hdue =>
    obtain ⟨hfired, hcurrent⟩ := TimerQueue.fires_of_isDue hdue
    simp only [hfired, hcurrent, ↓reduceIte, true_and]
    rfl
  · next hdue => rw [TimerQueue.generationOf?_expire, if_neg hdue]

namespace System

/-- A clock sampled before octets arrive, by no more than the padding of a cancel.
The timer that they start is reported, and the octets are lost, exactly if the
delay and the age of the sample exceed the longest delay together. -/
theorem early_tick (s : Nat) (longest k : UInt32) (hpos : 0 < k) (hk : k ≤ Timer.cancelPadding) :
    let most := (TimerQueue.new s longest).longest
    (∀ ops slot delay now q', ((TimerQueue.new s longest).run ops).2.arm slot delay now = .ok q' →
      ((q'.expire (now - k)).1.contains slot = true ↔ most.toNat < delay.toNat + k.toNat)) ∧
    ∀ evs i m op now, (run ⟨.new s longest, []⟩ evs).member? i = some m →
      op.arrival? = some now →
        let fed := m.apply (run ⟨.new s longest, []⟩ evs).timers op
        let tick := fed.2.expire (now - k)
        let handled := fed.1.session.channel.handleExpired tick.2 tick.1
        (m.timeout.toNat + k.toNat ≤ most.toNat → handled = (false, fed.1.session.channel)) ∧
          (most.toNat < m.timeout.toNat + k.toNat →
            handled.1 = true ∧ handled.2.rx.len = 0) := by
  intro most
  have hmost : most.toNat < 2 ^ 31 := by
    have h : most.toNat = _ := TimerQueue.toNat_longest_new s longest
    omega
  have hpos' : 0 < k.toNat := UInt32.lt_iff_toNat_lt.mp hpos
  have hk' : k.toNat ≤ 2 ^ 31 :=
    Nat.le_trans (UInt32.le_iff_toNat_le.mp hk) (Nat.le_of_ble_eq_true rfl)
  constructor
  · intro ops slot delay now q' harm
    have hlongest : ((TimerQueue.new s longest).run ops).2.longest = most :=
      TimerQueue.longest_run _ ops
    rw [← hlongest] at hmost ⊢
    exact TimerQueue.contains_early harm hmost hpos' hk'
  · intro evs i m op now hm ha fed tick handled
    have hsound := sound_run (sound_new s longest) evs
    have hlongest : (run ⟨.new s longest, []⟩ evs).timers.longest = most :=
      longest_run (sound_new s longest) evs
    have hslot : fed.1.session.channel.slot = m.slot :=
      (Session.apply_kept (hsound.inv i m hm) _ op).slot
    have hdue := isDue_arrival hsound hm ha (hlongest ▸ hmost) hpos' hk'
    rw [hlongest] at hdue
    have hhandled := fed.1.session.channel.handleExpired_expire fed.2 (now - k)
    rw [hslot] at hhandled
    constructor
    · intro hfar
      rwa [if_neg (fun h => Nat.not_lt.mpr hfar (hdue.mp h))] at hhandled
    · intro hnear
      rwa [if_pos (hdue.mpr hnear)] at hhandled

/-- A sample from before the clock wraps, with an arm and an arrival behind that
leave enough room below the longest delay. -/
theorem early_tick_wrap :
    let k : UInt32 := 1000
    let q := ((TimerQueue.new 1 5000).run [.allocate]).2
    let q' := q.update 0 fun t => t.arm 2000 500
    let evs : List (Event 1) := [.build 16 {} Device.table {}]
    let m : Member 1 := ⟨⟨Device.link 16 {}, {}, [], []⟩⟩
    let fed := m.apply (run ⟨.new 1 5000, []⟩ evs).timers (.receiveByte 112 500)
    let tick := fed.2.expire (500 - k)
    0 < k ∧ k ≤ Timer.cancelPadding ∧ q.arm 0 2000 500 = .ok q' ∧
      ((q'.expire (500 - k)).1.contains 0 = true ↔
        (TimerQueue.new 1 5000).longest.toNat < (2000 : UInt32).toNat + k.toNat) ∧
      (run ⟨.new 1 5000, []⟩ evs).member? 0 = some m ∧
      fed.1.session.channel.handleExpired tick.2 tick.1 = (false, fed.1.session.channel) := by
  intro k q q' evs m fed tick
  have hpos : 0 < k := by decide
  have hk : k ≤ Timer.cancelPadding := by decide
  have harm : q.arm 0 2000 500 = .ok q' := TimerQueue.arm_of_le (by decide +kernel) 0 500
  have hm : (run ⟨.new 1 5000, []⟩ evs).member? 0 = some m := by
    have hnew : Channel.new 16 {} Device.table (.new 1 5000) =
        .ok (Device.link 16 {}, Device.linkTimers 5000) := Device.new_link (by decide) rfl
    simp only [evs, run, List.foldl_cons, List.foldl_nil, step, hnew]
    rfl
  obtain ⟨hqueue, hchannel⟩ := early_tick 1 5000 k hpos hk
  have hfar : m.timeout.toNat + k.toNat ≤ (TimerQueue.new 1 5000).longest.toNat := by
    decide +kernel
  exact ⟨hpos, hk, harm, hqueue [.allocate] 0 2000 500 q' harm, hm,
    (hchannel evs 0 m (.receiveByte 112 500) 500 hm rfl).1 hfar⟩

/-- With the longest delay for a timeout, a sample that is one millisecond old costs
an octet that has just arrived. -/
theorem early_tick_longest :
    let settings : Settings := { idleTimeout := 1000 }
    let q := ((TimerQueue.new 1 1000).run [.allocate]).2
    let fed := (Device.link 16 settings).receiveByte (Device.linkTimers 1000) 112 5
    let tick := fed.2.2.expire (5 - 1)
    (∃ q', q.arm 0 1000 5 = .ok q' ∧ (q'.expire (5 - 1)).1.contains 0 = true) ∧
      settings.validate (TimerQueue.new 1 1000).longest = .ok () ∧
      Channel.new 16 settings Device.table (.new 1 1000) =
        .ok (Device.link 16 settings, Device.linkTimers 1000) ∧
      fed.1 = true ∧ fed.2.1.rx.len = 1 ∧ (fed.2.1.handleExpired tick.2 tick.1).1 = true ∧
      (fed.2.1.handleExpired tick.2 tick.1).2.rx.len = 0 := by
  intro settings q fed tick
  have harm : q.arm 0 1000 5 = .ok (q.update 0 fun t => t.arm 1000 5) :=
    TimerQueue.arm_of_le (by decide +kernel) 0 5
  have hv : settings.validate (TimerQueue.new 1 1000).longest = .ok () := rfl
  exact ⟨⟨_, harm, by decide +kernel⟩, hv, Device.new_link (by decide) hv, by decide +kernel,
    by decide +kernel, by decide +kernel, by decide +kernel⟩

end System

end CommandLink
