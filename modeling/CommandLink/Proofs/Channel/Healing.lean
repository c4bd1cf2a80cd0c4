import CommandLink.Proofs.Channel.IdleReset
import CommandLink.Proofs.Channel.Service

namespace CommandLink

/-- What an expiry has to do for a channel with octets in its input: it is
accepted, the input is emptied and nothing else changes but the count of resets,
and the next request is served. -/
structure Member.Heals {s : Nat} (m : Member s) (timers : TimerQueue s) (e : Expiry s) : Prop where
  accepted : (m.session.channel.handleExpired timers e).1 = true
  empty : (m.session.apply timers (.handleExpired e)).1.channel.rx.len = 0
  policy : (m.session.apply timers (.handleExpired e)).1.channel.rx.overwrite =
    m.session.channel.settings.rxOverwrite
  counters : (m.session.apply timers (.handleExpired e)).1.channel.counters =
    { m.session.channel.counters with
      idleResets := m.session.channel.counters.idleResets + 1 }
  output : (m.session.apply timers (.handleExpired e)).1.channel.tx = m.session.channel.tx
  serves : (m.session.apply timers (.handleExpired e)).1.Serves

theorem Channel.handleExpired_current {C : Type} {n s : Nat} {ch : Channel C n s}
    {timers : TimerQueue s} {e : Expiry s} {generation : UInt16}
    (hfired : e.generationOf? ch.slot = some generation)
    (hcurrent : timers.isCurrent ch.slot generation = true) (hwait : ch.rx.len ≠ 0) :
    ch.handleExpired timers e =
      (true, { ch.clearInput with counters := ch.counters.recordIdleReset }) := by
  have hfull : ch.rx.isEmpty = false := by simpa [Ring.isEmpty] using hwait
  rw [handleExpired, hfired]
  simp only [hcurrent, hfull, ↓reduceIte, Bool.false_eq_true]

theorem Member.heals {s : Nat} {m : Member s} (h : m.session.channel.Inv)
    {timers : TimerQueue s} {e : Expiry s} {generation : UInt16}
    (hfired : e.generationOf? m.slot = some generation)
    (hcurrent : timers.isCurrent m.slot generation = true) (hwait : m.waiting ≠ 0) :
    m.Heals timers e := by
  have hhandle := Channel.handleExpired_current hfired hcurrent hwait
  have happly : (m.session.apply timers (.handleExpired e)).1 =
      { m.session with channel :=
        { m.session.channel.clearInput with
          counters := m.session.channel.counters.recordIdleReset } } := by
    simp only [Session.apply, hhandle]
  have hk := Session.apply_kept h timers (.handleExpired e)
  refine ⟨by rw [hhandle], ?_, ?_, ?_, ?_, Session.serves_of_empty hk.inv ?_⟩ <;>
    (rw [happly]; rfl)

namespace System

variable {s : Nat}

/-- The time at which octets arrived for the channel `i` most recently. -/
def lastArrival? (i : Nat) (evs : List (Event s)) : Option UInt32 :=
  (evs.filterMap (Event.arrival? i)).getLast?

theorem lastArrival?_of_quiet {i : Nat} {ev : Event s} {arrived : UInt32}
    (ha : ev.arrival? i = some arrived) (before : List (Event s)) {behind : List (Event s)}
    (hquiet : ∀ ev' ∈ behind, ev'.arrival? i = none) :
    lastArrival? i (before ++ ev :: behind) = some arrived := by
  have hnone : behind.filterMap (Event.arrival? i) = [] := List.filterMap_eq_nil_iff.mpr hquiet
  rw [lastArrival?, List.filterMap_append, List.filterMap_cons_some ha, hnone,
    List.getLast?_concat]

/-- The timer of a channel runs since `arrived`, and every expiry that sees its
deadline as reached empties the input. -/
structure Watched (m : Member s) (timers : TimerQueue s) (arrived : UInt32) : Prop where
  armed : timers.isArmed m.slot = true
  deadline : (timers.timer m.slot).deadline = arrived + m.timeout
  heals : ∀ now, m.timeout ≤ now - arrived →
    (now - arrived).toNat ≤ m.timeout.toNat + (2 ^ 32 - 1 - timers.longest.toNat) →
      (timers.expire now).1.contains m.slot = true ∧
        m.Heals (timers.expire now).2 (timers.expire now).1

/-- An expiry since `arrived` told of the channel's timer, and whenever it is
handed over it empties the input. -/
def Reported (start : System s) (evs : List (Event s)) (i : Nat) (m : Member s)
    (arrived : UInt32) : Prop :=
  ∃ before now after, evs = before ++ .expire now :: after ∧
    lastArrival? i before = some arrived ∧ (∀ ev ∈ after, ev.arrival? i = none) ∧
    ((start.run before).timers.expire now).1.contains m.slot = true ∧
    m.Heals (start.run evs).timers ((start.run before).timers.expire now).1

theorem Running.watched {start : System s} {evs : List (Event s)} {i : Nat} {m : Member s}
    (h : Running start i m.slot m.timeout evs) (hinv : m.session.channel.Inv)
    (hwait : m.waiting ≠ 0) :
    ∃ arrived, lastArrival? i evs = some arrived ∧ Watched m (start.run evs).timers arrived := by
  obtain ⟨before, ev, behind, arrived, heq, harr, hquiet, harmed, hdeadline⟩ := h
  refine ⟨arrived, heq ▸ lastArrival?_of_quiet harr before hquiet, harmed, hdeadline, ?_⟩
  intro now hlate hseen
  let timers := (start.run evs).timers
  have hdue := Timer.isDue_of_elapsed harmed hdeadline hlate hseen
  obtain ⟨hfired, hcurrent⟩ := TimerQueue.fires_of_isDue (q := timers) hdue
  exact ⟨(TimerQueue.contains_expire _ _ _).trans hdue, Member.heals hinv hfired hcurrent hwait⟩

theorem Pending.reported {start : System s} {evs : List (Event s)} {i : Nat} {m : Member s}
    (h : Pending start i m.slot m.timeout evs) (hinv : m.session.channel.Inv)
    (hwait : m.waiting ≠ 0) :
    ∃ arrived, lastArrival? i evs = some arrived ∧ Reported start evs i m arrived := by
  obtain ⟨before, ev, between, now, after, arrived, generation, rfl, harr, hquiet, hfired, hlate,
    hcurrent⟩ := h
  obtain ⟨hbetween, hafter⟩ := List.forall_mem_append.mp hquiet
  refine ⟨arrived, ?_, before ++ ev :: between, now, after, by simp, ?_, hafter, ?_, ?_⟩
  · apply lastArrival?_of_quiet harr before
    rw [List.forall_mem_append, List.forall_mem_cons]
    exact ⟨hbetween, rfl, hafter⟩
  · exact lastArrival?_of_quiet harr before hbetween
  · rw [Expiry.contains, hfired]
    rfl
  · exact Member.heals hinv hfired hcurrent hwait

end System

end CommandLink
