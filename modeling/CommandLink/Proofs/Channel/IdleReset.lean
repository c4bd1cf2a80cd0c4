import CommandLink.Proofs.Channel.System
import CommandLink.Proofs.Device.Link

namespace CommandLink.System

variable {s : Nat} {start : System s} {i : Nat} {slot : Fin s} {timeout : UInt32}
  {evs : List (Event s)}

/-- Octets arrived for the channel `i`, none after them, and when its timer
fired, a whole timeout had passed since. -/
def Elapsed (start : System s) (i : Nat) (slot : Fin s) (timeout : UInt32)
    (evs : List (Event s)) : Prop :=
  ∃ before ev between now after arrived,
    evs = before ++ ev :: (between ++ .expire now :: after) ∧
      ev.arrival? i = some arrived ∧ (∀ ev' ∈ between ++ after, ev'.arrival? i = none) ∧
      ((start.run (before ++ ev :: between)).timers.expire now).1.contains slot = true ∧
      timeout ≤ now - arrived

/-- Octets arrived for the channel `i`, none after them, its timer fired when a
whole timeout had passed, and the expiry taken then is still current. -/
def Pending (start : System s) (i : Nat) (slot : Fin s) (timeout : UInt32)
    (evs : List (Event s)) : Prop :=
  ∃ before ev between now after arrived generation,
    evs = before ++ ev :: (between ++ .expire now :: after) ∧
      ev.arrival? i = some arrived ∧ (∀ ev' ∈ between ++ after, ev'.arrival? i = none) ∧
      ((start.run (before ++ ev :: between)).timers.expire now).1.generationOf? slot =
        some generation ∧
      timeout ≤ now - arrived ∧ (start.run evs).timers.isCurrent slot generation = true

/-- Octets arrived for the channel `i`, none after them, and its timer still
runs from then on. -/
def Running (start : System s) (i : Nat) (slot : Fin s) (timeout : UInt32)
    (evs : List (Event s)) : Prop :=
  ∃ before ev behind arrived,
    evs = before ++ ev :: behind ∧
      ev.arrival? i = some arrived ∧ (∀ ev' ∈ behind, ev'.arrival? i = none) ∧
      ((start.run evs).timers.timer slot).armed = true ∧
      ((start.run evs).timers.timer slot).deadline = arrived + timeout

theorem forall_mem_snoc {p : Event s → Prop} {evs : List (Event s)} {ev : Event s}
    (h : ∀ ev' ∈ evs, p ev') (hev : p ev) : ∀ ev' ∈ evs ++ [ev], p ev' := by
  intro ev' hm
  obtain hm | hm := List.mem_append.mp hm
  · exact h ev' hm
  · exact List.mem_singleton.mp hm ▸ hev

theorem Pending.elapsed (h : Pending start i slot timeout evs) :
    Elapsed start i slot timeout evs := by
  obtain ⟨before, ev, between, now, after, arrived, generation, rfl, harr, hquiet, hfired, hlate,
    -⟩ := h
  refine ⟨before, ev, between, now, after, arrived, rfl, harr, hquiet, ?_, hlate⟩
  rw [Expiry.contains, hfired]
  rfl

theorem Pending.current (h : Pending start i slot timeout evs) :
    ∃ generation, (start.run evs).timers.isCurrent slot generation = true := by
  obtain ⟨before, ev, between, now, after, arrived, generation, -, -, -, -, -, hcurrent⟩ := h
  exact ⟨generation, hcurrent⟩

theorem Pending.snoc (h : Pending start i slot timeout evs) {ev : Event s}
    (ha : ev.arrival? i = none)
    (ht : (start.run (evs ++ [ev])).timers.timer slot = (start.run evs).timers.timer slot) :
    Pending start i slot timeout (evs ++ [ev]) := by
  obtain ⟨before, ev₀, between, now, after, arrived, generation, rfl, harr, hquiet, hfired, hlate,
    hcurrent⟩ := h
  refine ⟨before, ev₀, between, now, after ++ [ev], arrived, generation, by simp, harr, ?_, hfired,
    hlate, ?_⟩
  · rw [← List.append_assoc]
    exact forall_mem_snoc hquiet ha
  · rwa [TimerQueue.isCurrent, ht]

theorem Running.snoc (h : Running start i slot timeout evs) {ev : Event s}
    (ha : ev.arrival? i = none)
    (ht : (start.run (evs ++ [ev])).timers.timer slot = (start.run evs).timers.timer slot) :
    Running start i slot timeout (evs ++ [ev]) := by
  obtain ⟨before, ev₀, behind, arrived, heq, harr, hquiet, harmed, hdeadline⟩ := h
  refine ⟨before, ev₀, behind ++ [ev], arrived, by simp [heq], harr,
    forall_mem_snoc hquiet ha, ?_, ?_⟩
  · rwa [ht]
  · rwa [ht]

/-- A timer that fires has run for its whole delay. -/
theorem Running.pending (h : Running start i slot timeout evs) {now : UInt32}
    (hlong : timeout ≤ (start.run evs).timers.longest)
    (hd : ((start.run evs).timers.timer slot).isDue (start.run evs).timers.longest now = true) :
    Pending start i slot timeout (evs ++ [.expire now]) := by
  obtain ⟨before, ev, behind, arrived, rfl, harr, hquiet, -, hdeadline⟩ := h
  obtain ⟨hfired, hcurrent⟩ := TimerQueue.fires_of_isDue hd
  refine ⟨before, ev, behind, now, [], arrived, _, by simp, harr, by simpa using hquiet, hfired,
    Timer.elapsed_of_isDue hdeadline hlong hd, ?_⟩
  rw [run_snoc]
  exact hcurrent

/-- Octets that wait in a channel are watched over by its timer from the last
arrival on, until the timer fires, and by its expiry from then on. -/
theorem running_or_pending {longest : UInt32} (evs : List (Event s)) (i : Nat) (m : Member s)
    (hm : (run ⟨.new s longest, []⟩ evs).member? i = some m) (hwait : m.waiting ≠ 0) :
    Running ⟨.new s longest, []⟩ i m.slot m.timeout evs ∨
      Pending ⟨.new s longest, []⟩ i m.slot m.timeout evs := by
  -- Only an arrival starts the timer, and only an expiry ends its run with octets left:
  -- whatever else stops it clears the input too.
  induction evs using List.reverseRecOn generalizing m with
  | nil => simp [run, member?] at hm
  | append_singleton evs ev ih =>
    have hsound := sound_run (sound_new s longest) evs
    have hrun := run_snoc ⟨.new s longest, []⟩ evs ev
    rw [hrun] at hm
    cases passes hsound hm with
    | empty hrx => exact absurd hrx hwait
    | armed m₀ now hm₀ hk ha ht =>
      refine .inl ⟨evs, ev, [], now, rfl, ha, fun _ h => absurd h List.not_mem_nil, ?_, ?_⟩
      · rw [hrun, ht]
        rfl
      · rw [hrun, ht]
        rfl
    | idle m₀ hm₀ hk ha hrx ht =>
      have hprev := ih m₀ hm₀ (by omega)
      rw [← hk.slot, ← hk.timeout] at hprev
      rw [← hrun] at ht
      obtain hr | hp := hprev
      · exact .inl (hr.snoc ha ht)
      · exact .inr (hp.snoc ha ht)
    | ticked now hm₀ hev ht =>
      subst hev
      rw [← hrun] at ht
      obtain hr | hp := ih m hm₀ hwait
      · have hlong := hsound.timeout i m hm₀
        by_cases hd : ((run ⟨.new s longest, []⟩ evs).timers.timer m.slot).isDue
            (run ⟨.new s longest, []⟩ evs).timers.longest now = true
        · exact .inr (hr.pending hlong hd)
        · rw [Timer.expire, if_neg hd] at ht
          exact .inl (hr.snoc rfl ht)
      · obtain ⟨generation, hcurrent⟩ := hp.current
        rw [Timer.expire_of_isCurrent hcurrent] at ht
        exact .inr (hp.snoc rfl ht)

theorem watched {longest : UInt32} (evs : List (Event s)) (i : Nat) (m : Member s)
    (hm : (run ⟨.new s longest, []⟩ evs).member? i = some m) (hwait : m.waiting ≠ 0) :
    Running ⟨.new s longest, []⟩ i m.slot m.timeout evs ∨
      Elapsed ⟨.new s longest, []⟩ i m.slot m.timeout evs :=
  (running_or_pending evs i m hm hwait).imp_right Pending.elapsed

/-- An expiry never clears octets that are younger than the idle timeout, stale
or not: since the last of them arrived, the channel's own timer has fired. -/
theorem elapsed_of_cleared (longest : UInt32) (evs : List (Event s)) (i : Nat) (m : Member s)
    (e : Expiry s) :
    let sys := run ⟨.new s longest, []⟩ evs
    sys.member? i = some m →
      (m.session.channel.handleExpired sys.timers e).2.rx.len < m.session.channel.rx.len →
        Elapsed ⟨.new s longest, []⟩ i m.slot m.timeout evs := by
  intro sys hm hlt
  have hwait : m.waiting ≠ 0 := Nat.ne_of_gt (Nat.zero_lt_of_lt hlt)
  obtain hr | he := watched evs i m hm hwait
  · obtain ⟨before, ev, behind, arrived, -, -, -, harmed, -⟩ := hr
    obtain hkeep | ⟨generation, counters, -, hcurrent, -⟩ :=
      Channel.handleExpired_cases m.session.channel sys.timers e
    · rw [hkeep] at hlt
      exact absurd hlt (Nat.lt_irrefl _)
    · -- A running timer is never current, however the generations repeat.
      rw [TimerQueue.isCurrent, Timer.isCurrent] at hcurrent
      rw [show (sys.timers.timer m.session.channel.slot).armed = true from harmed] at hcurrent
      cases hcurrent
  · exact he

/-- Half a tag, received shortly before the clock wraps and cleared behind it. -/
theorem elapsed_of_cleared_wrap :
    let evs : List (Event 1) := [.build 16 {} Device.table {},
      .use 0 (.receive [112, 105] 4294967000), .expire 1000, .cancel 0 7, .expire 1800]
    let m : Member 1 := ⟨Session.run ⟨Device.link 16 {}, {}, [], []⟩
      [(Device.linkTimers 5000, .receive [112, 105] 4294967000)]⟩
    let sys := run ⟨.new 1 5000, []⟩ evs
    sys.member? 0 = some m ∧
      (m.session.channel.handleExpired sys.timers ⟨[(0, 1)]⟩).2.rx.len < m.session.channel.rx.len ∧
      Elapsed ⟨.new 1 5000, []⟩ 0 m.slot m.timeout evs := by
  intro evs m sys
  have hbuild : step ⟨.new 1 5000, []⟩ (.build 16 {} Device.table {}) =
      ⟨Device.linkTimers 5000, [⟨⟨Device.link 16 {}, {}, [], []⟩⟩]⟩ := by
    have hnew : Channel.new 16 {} Device.table (.new 1 5000) =
        .ok (Device.link 16 {}, Device.linkTimers 5000) := Device.new_link (by decide) rfl
    simp only [step, hnew]
    rfl
  have hsys : sys = run ⟨Device.linkTimers 5000, [⟨⟨Device.link 16 {}, {}, [], []⟩⟩]⟩ evs.tail := by
    rw [← hbuild]
    rfl
  have hm : sys.member? 0 = some m := by
    rw [hsys]
    rfl
  have hlt : (m.session.channel.handleExpired sys.timers ⟨[(0, 1)]⟩).2.rx.len <
      m.session.channel.rx.len := by
    rw [hsys]
    decide +kernel
  exact ⟨hm, hlt, elapsed_of_cleared 5000 evs 0 m ⟨[(0, 1)]⟩ hm hlt⟩

end CommandLink.System
