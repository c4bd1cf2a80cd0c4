import CommandLink.Proofs.Device.Link
import CommandLink.Proofs.Ring.Loss
import Mathlib.Data.List.DropRight

namespace CommandLink

theorem Counters.recordRxDropped_add (c : Counters) (j k : Nat) :
    (c.recordRxDropped j).recordRxDropped k = c.recordRxDropped (j + k) := by
  simp only [recordRxDropped, UInt32.ofNat_add, UInt32.add_assoc]

/-- An arm that is repeated at once changes no deadline. -/
theorem TimerQueue.timer_arm_twice {s : Nat} (q : TimerQueue s) (slot : Fin s)
    (delay now : UInt32) (slot' : Fin s) :
    let once := q.update slot fun t => t.arm delay now
    let twice := once.update slot fun t => t.arm delay now
    (twice.timer slot').armed = (once.timer slot').armed ∧
      (twice.timer slot').deadline = (once.timer slot').deadline := by
  intro once twice
  by_cases he : slot' = slot
  · subst he
    rw [timer_update_self, timer_update_self]
    exact ⟨rfl, rfl⟩
  · rw [timer_update_ne once he]
    exact ⟨rfl, rfl⟩

namespace Channel

variable {C : Type} {n s : Nat}

/-- What a burst does to a channel and to the timers. A displacing input takes all of
it and keeps the newest octets; a refusing one keeps what it has and takes what fits.
Every octet that is then missing is counted, and the timer starts anew even if none
was stored. -/
structure Receives (ch : Channel C n s) (timers : TimerQueue s) (bs : List UInt8) (now : UInt32)
    (done : Nat × Channel C n s × TimerQueue s) : Prop where
  displacing : ch.settings.rxOverwrite = true →
    done.1 = bs.length ∧ done.2.1.rx.toList = (ch.rx.toList ++ bs).rtake n
  refusing : ch.settings.rxOverwrite = false →
    done.1 = min bs.length (n - ch.rx.toList.length) ∧
      done.2.1.rx.toList = ch.rx.toList ++ bs.take done.1
  dropped : ∃ lost, ch.rx.toList.length + bs.length = done.2.1.rx.toList.length + lost ∧
    done.2.1.counters =
      { ch.counters with rxDropped := ch.counters.rxDropped + UInt32.ofNat lost }
  others : done.2.1 = { ch with rx := done.2.1.rx, counters := done.2.1.counters }
  armed : (done.2.2.timer ch.slot).armed = true
  deadline : (done.2.2.timer ch.slot).deadline = now + ch.settings.idleTimeout
  elsewhere : ∀ slot, slot ≠ ch.slot → done.2.2.timer slot = timers.timer slot

/-- Two bursts at one time come to what one burst comes to: only the generation of a
timer tells them apart. -/
structure Joins (first second whole : Nat × Channel C n s × TimerQueue s) : Prop where
  stored : first.1 + second.1 = whole.1
  channel : second.2.1 = whole.2.1
  timers : ∀ slot, (second.2.2.timer slot).armed = (whole.2.2.timer slot).armed ∧
    (second.2.2.timer slot).deadline = (whole.2.2.timer slot).deadline

variable {ch : Channel C n s} {timers : TimerQueue s}

theorem receive_eq (h : ch.rx.Inv) (hfit : ch.settings.idleTimeout ≤ timers.longest)
    {bs : List UInt8} (hbs : bs ≠ []) (now : UInt32) :
    ch.receive timers bs now =
      ((ch.rx.offer bs).1,
        { ch with
          rx := (ch.rx.offer bs).2
          counters := ch.counters.recordRxDropped (ch.rx.lost bs) },
        timers.update ch.slot fun t => t.arm ch.settings.idleTimeout now) := by
  have hsome : bs.isEmpty = false := List.isEmpty_eq_false_iff.mpr hbs
  rw [receive, hsome, ← Ring.dropped_eq_lost h, ← rearm_eq hfit]
  rfl

theorem receives (h : ch.rx.Inv) (hpolicy : ch.rx.overwrite = ch.settings.rxOverwrite)
    (hfit : ch.settings.idleTimeout ≤ timers.longest) {bs : List UInt8} (hbs : bs ≠ [])
    (now : UInt32) : Receives ch timers bs now (ch.receive timers bs now) := by
  have hinv := (Ring.inv_offer h bs).1
  have hlen := Ring.length_toList h
  rw [receive_eq h hfit hbs]
  constructor
  case displacing =>
    intro hon
    obtain ⟨hlist, hstored⟩ := Ring.offer_displacing h (hpolicy.trans hon) bs
    refine ⟨hstored, hlist.trans ?_⟩
    rw [List.rtake, List.length_append, hlen]
  case refusing =>
    intro hoff
    obtain ⟨hlist, hstored⟩ := Ring.offer_refusing h (hpolicy.trans hoff) bs
    have hle := h.len_le
    refine ⟨by rw [hstored, hlen], hlist.trans ?_⟩
    dsimp only
    rw [hstored, List.take_append, List.take_of_length_le (by omega), hlen, Nat.min_comm,
      ← List.take_take, List.take_length]
  case dropped =>
    refine ⟨ch.rx.lost bs, ?_, rfl⟩
    rw [hlen, Ring.length_toList hinv, Ring.len_offer_add_lost h]
  case others => rfl
  case armed => exact congrArg Timer.armed (TimerQueue.timer_update_self _ _ _)
  case deadline => exact congrArg Timer.deadline (TimerQueue.timer_update_self _ _ _)
  case elsewhere => exact fun slot hne => TimerQueue.timer_update_ne _ hne _

theorem receive_nil (ch : Channel C n s) (timers : TimerQueue s) (now : UInt32) :
    ch.receive timers [] now = (0, ch, timers) := rfl

theorem receive_joins (h : ch.rx.Inv) (hfit : ch.settings.idleTimeout ≤ timers.longest)
    (bs bs' : List UInt8) (now : UInt32) :
    Joins (ch.receive timers bs now)
      ((ch.receive timers bs now).2.1.receive (ch.receive timers bs now).2.2 bs' now)
      (ch.receive timers (bs ++ bs') now) := by
  by_cases hbs : bs = []
  · subst hbs
    exact ⟨Nat.zero_add _, rfl, fun _ => ⟨rfl, rfl⟩⟩
  by_cases hbs' : bs' = []
  · subst hbs'
    rw [List.append_nil, receive_nil]
    exact ⟨rfl, rfl, fun _ => ⟨rfl, rfl⟩⟩
  let fed : Channel C n s :=
    { ch with
      rx := (ch.rx.offer bs).2
      counters := ch.counters.recordRxDropped (ch.rx.lost bs) }
  let armed := timers.update ch.slot fun t => t.arm ch.settings.idleTimeout now
  have hinv : fed.rx.Inv := (Ring.inv_offer h bs).1
  have hfit' : fed.settings.idleTimeout ≤ armed.longest := hfit
  have hboth : bs ++ bs' ≠ [] := List.append_ne_nil_of_left_ne_nil hbs bs'
  have hfirst : ch.receive timers bs now = ((ch.rx.offer bs).1, fed, armed) :=
    receive_eq h hfit hbs now
  rw [hfirst, receive_eq hinv hfit' hbs', receive_eq h hfit hboth]
  constructor
  case stored => rw [Ring.offer_append]
  case channel =>
    have hrx : (ch.rx.offer (bs ++ bs')).2 = (fed.rx.offer bs').2 := by rw [Ring.offer_append]
    have hcounters : fed.counters.recordRxDropped (fed.rx.lost bs') =
        ch.counters.recordRxDropped (ch.rx.lost (bs ++ bs')) := by
      rw [Ring.lost_append h, ← Counters.recordRxDropped_add]
    rw [hrx, hcounters]
  case timers => exact timers.timer_arm_twice ch.slot ch.settings.idleTimeout now

end Channel

namespace System

variable {s : Nat}

/-- A channel takes a burst under the policy that it was built with, whatever has
happened to it before: its input may have been cleared any number of times. -/
theorem receives_after (longest : UInt32) (evs : List (Event s)) (i : Nat) (m : Member s) :
    let sys := run ⟨.new s longest, []⟩ evs
    let ch := m.session.channel
    sys.member? i = some m →
      (∀ bs now, bs ≠ [] → ch.Receives sys.timers bs now (ch.receive sys.timers bs now)) ∧
        (∀ now, ch.receive sys.timers [] now = (0, ch, sys.timers)) ∧
        ∀ bs bs' now,
          let first := ch.receive sys.timers bs now
          Channel.Joins first (first.2.1.receive first.2.2 bs' now)
            (ch.receive sys.timers (bs ++ bs') now) := by
  intro sys ch hm
  have hsound := sound_run (sound_new s longest) evs
  have hinv := hsound.inv i m hm
  have hfit := hsound.timeout i m hm
  refine ⟨fun bs now hbs => ?_, fun now => ch.receive_nil sys.timers now, fun bs bs' now => ?_⟩
  · exact Channel.receives hinv.rx hinv.policy hfit hbs now
  · exact Channel.receive_joins hinv.rx hfit bs bs' now

/-- An input that displaces, cleared by an expiry and then by hand, is given a burst
that is longer than itself shortly before the clock wraps. -/
theorem receives_after_resync :
    let settings : Settings := { rxOverwrite := true }
    let burst : List UInt8 := List.replicate 20 1 ++ [9]
    let evs : List (Event 1) := [.build 16 settings Device.table {},
      .use 0 (.receive [112, 105, 110] 5), .expire 2005, .use 0 (.handleExpired ⟨[(0, 1)]⟩),
      .use 0 (.receive [0, 112] 3000), .use 0 (.resync 3001), .use 0 (.receiveByte 103 3002)]
    let sys := run ⟨.new 1 5000, []⟩ evs
    ∃ m, sys.member? 0 = some m ∧ burst ≠ [] ∧
      let ch := m.session.channel
      let done := ch.receive sys.timers burst 4294967000
      (ch.rx.toList, ch.counters.idleResets) = ([103], 1) ∧
        (done.1, done.2.1.rx.toList) = (21, List.replicate 15 1 ++ [9]) ∧
        (done.2.1.counters.rxDropped, (done.2.2.timer 0).deadline) = (6, 1704) ∧
        ch.Receives sys.timers burst 4294967000 done := by
  intro settings burst evs sys
  have hsys : sys = run ⟨Device.linkTimers 5000,
      [⟨⟨Device.link 16 settings, {}, [], []⟩⟩]⟩ evs.tail :=
    Device.run_build_link (by decide) rfl evs.tail
  have hfound : (sys.member? 0).map (fun m =>
      let ch := m.session.channel
      let done := ch.receive sys.timers burst 4294967000
      ((ch.rx.toList, ch.counters.idleResets), (done.1, done.2.1.rx.toList),
        (done.2.1.counters.rxDropped, (done.2.2.timer 0).deadline))) =
      some (([103], 1), (21, List.replicate 15 1 ++ [9]), (6, 1704)) := by
    rw [hsys]
    decide +kernel
  obtain ⟨m, hm, hfacts⟩ := Option.map_eq_some_iff.mp hfound
  obtain ⟨hbefore, hlater⟩ := Prod.mk.inj hfacts
  obtain ⟨hstored, hcounted⟩ := Prod.mk.inj hlater
  have hburst : burst ≠ [] := by decide
  obtain ⟨hreceives, -, -⟩ := receives_after 5000 evs 0 m hm
  exact ⟨m, hm, hburst, hbefore, hstored, hcounted, hreceives burst 4294967000 hburst⟩

end System

end CommandLink
