import CommandLink.Channel.Basic
import CommandLink.Proofs.Dispatch.Account
import CommandLink.Proofs.Timer.Slots

namespace CommandLink

theorem Settings.idleTimeout_le {settings : Settings} {longest : UInt32}
    (h : settings.validate longest = .ok ()) : settings.idleTimeout ≤ longest := by
  rw [validate] at h
  split at h
  · cases h
  · split at h
    · cases h
    · next hle => exact UInt32.not_lt.mp hle

namespace Channel

variable {C : Type} {n s : Nat}

/-- What holds of a channel from its building on. -/
structure Inv (ch : Channel C n s) : Prop where
  rx : ch.rx.Inv
  tx : ch.tx.Inv
  policy : ch.rx.overwrite = ch.settings.rxOverwrite
  refusing : ch.tx.overwrite = false
  free : ch.draining = false
  timeout_pos : ch.settings.idleTimeout ≠ 0
  fits : ch.table.maxFrameLen ch.settings.coverage ≤ n

theorem new_eq_ok {settings : Settings} {table : Table C} {timers timers' : TimerQueue s}
    {ch : Channel C n s} (h : new n settings table timers = .ok (ch, timers')) :
    settings.validate timers.longest = .ok () ∧ table.maxFrameLen settings.coverage ≤ n ∧
      ∃ slot, timers.allocate = .ok (slot, timers') ∧
        ch = ⟨settings, table, slot, Ring.empty.setOverwrite settings.rxOverwrite, .empty, {},
          false⟩ := by
  rw [new] at h
  split at h
  · cases h
  · next hv =>
    simp only at h
    split at h
    · cases h
    · next hfit =>
      split at h
      · cases h
      · next slot timers'' ha =>
        simp only [Except.ok.injEq, Prod.mk.injEq] at h
        obtain ⟨rfl, rfl⟩ := h
        exact ⟨hv, Nat.le_of_not_lt hfit, slot, ha, rfl⟩

theorem new_of_allocate {settings : Settings} {table : Table C} {timers timers' : TimerQueue s}
    {slot : Fin s} (hv : settings.validate timers.longest = .ok ())
    (hfit : table.maxFrameLen settings.coverage ≤ n)
    (ha : timers.allocate = .ok (slot, timers')) :
    new n settings table timers =
      .ok (⟨settings, table, slot, Ring.empty.setOverwrite settings.rxOverwrite, .empty, {},
        false⟩, timers') := by
  simp only [new, hv, ha, if_neg (Nat.not_lt.mpr hfit)]

theorem inv_new {settings : Settings} {table : Table C} {timers timers' : TimerQueue s}
    {ch : Channel C n s} (h : new n settings table timers = .ok (ch, timers')) : ch.Inv := by
  obtain ⟨hv, hfit, slot, -, rfl⟩ := new_eq_ok h
  have hn : 0 < n := by
    have hw : 0 < Frame.length settings.coverage 0 := by
      simp only [Frame.length, Tag.width]
      omega
    exact Nat.lt_of_lt_of_le hw (Table.maxFrameLen_le_iff.mp hfit).1
  refine ⟨Ring.inv_setOverwrite (Ring.inv_empty hn) _, Ring.inv_empty hn, rfl, rfl, rfl, ?_, hfit⟩
  intro h0
  simp only at h0
  simp [Settings.validate, h0] at hv

/-- What a channel is after an operation: the one that was built, still in order. -/
structure Kept (ch ch' : Channel C n s) : Prop where
  settings : ch'.settings = ch.settings
  table : ch'.table = ch.table
  slot : ch'.slot = ch.slot
  inv : ch'.Inv

theorem Kept.refl {ch : Channel C n s} (h : ch.Inv) : Kept ch ch := ⟨rfl, rfl, rfl, h⟩

theorem Kept.trans {a b c : Channel C n s} (hab : Kept a b) (hbc : Kept b c) : Kept a c :=
  ⟨hbc.settings.trans hab.settings, hbc.table.trans hab.table, hbc.slot.trans hab.slot, hbc.inv⟩

/-- The step that a channel would make. -/
def stepAt (ch : Channel C n s) (ctx : C) : Step C :=
  ⟨(ch.process ctx).1,
    Dispatch.call? ch.settings n ctx (Dispatch.takeFrame ch.settings ch.table ch.rx).1⟩

/-- The call of a step is what changes the application's state. -/
theorem context_process (ch : Channel C n s) (ctx : C) :
    (ch.process ctx).2.2 = Dispatch.after ctx (ch.stepAt ctx).call? :=
  Dispatch.answer_context ch.settings _ ch.tx ctx

/-- What a step says that it sent is what stands in the output behind it. -/
theorem answered_process {ch : Channel C n s} (h : ch.Inv) (ctx : C) :
    Dispatch.Answered ch.settings ch.tx (ch.process ctx).2.1.tx (ch.stepAt ctx) :=
  Dispatch.answered ch.settings h.tx h.refusing _ ctx

theorem process_kept {ch : Channel C n s} (h : ch.Inv) (ctx : C) :
    Kept ch (ch.process ctx).2.1 := by
  have ha := answered_process h ctx
  have hp := Dispatch.takeFrame_overwrite ch.settings ch.table ch.rx
  exact ⟨rfl, rfl, rfl, Dispatch.inv_takeFrame h.rx, ha.inv, hp.trans h.policy, ha.kept, h.free,
    h.timeout_pos, h.fits⟩

/-- A timeout that the timers admit is never refused. -/
theorem rearm_eq {ch : Channel C n s} {timers : TimerQueue s}
    (hfit : ch.settings.idleTimeout ≤ timers.longest) (now : UInt32) :
    ch.rearm timers now = timers.update ch.slot fun t => t.arm ch.settings.idleTimeout now := by
  rw [rearm, TimerQueue.arm_of_le hfit]

theorem receive_kept {ch : Channel C n s} (h : ch.Inv) (timers : TimerQueue s) (bs : List UInt8)
    (now : UInt32) : Kept ch (ch.receive timers bs now).2.1 := by
  obtain ⟨hrx, hp⟩ := Ring.inv_offer h.rx bs
  cases bs with
  | nil => exact .refl h
  | cons b bs =>
    exact ⟨rfl, rfl, rfl, hrx, h.tx, hp.trans h.policy, h.refusing, h.free, h.timeout_pos, h.fits⟩

theorem clearInput_kept {ch : Channel C n s} (h : ch.Inv) : Kept ch ch.clearInput :=
  ⟨rfl, rfl, rfl, Ring.inv_setOverwrite (Ring.inv_reset h.rx.pos) _, h.tx, rfl, h.refusing, h.free,
    h.timeout_pos, h.fits⟩

/-- An expiry either is declined or clears the input, which counts if there was any. -/
theorem handleExpired_counted (ch : Channel C n s) (timers : TimerQueue s) (e : Expiry s) :
    ch.handleExpired timers e = (false, ch) ∨
      ∃ generation, e.generationOf? ch.slot = some generation ∧
        timers.isCurrent ch.slot generation = true ∧
        ch.handleExpired timers e = (true, { ch.clearInput with
          counters := if ch.rx.isEmpty then ch.counters else ch.counters.recordIdleReset }) := by
  rw [handleExpired]
  cases he : e.generationOf? ch.slot with
  | none => exact .inl rfl
  | some generation =>
    simp only
    by_cases hc : timers.isCurrent ch.slot generation = true
    · rw [if_pos hc]
      exact .inr ⟨generation, rfl, hc, rfl⟩
    · rw [if_neg hc]
      exact .inl rfl

theorem handleExpired_cases (ch : Channel C n s) (timers : TimerQueue s) (e : Expiry s) :
    ch.handleExpired timers e = (false, ch) ∨
      ∃ generation counters, e.generationOf? ch.slot = some generation ∧
        timers.isCurrent ch.slot generation = true ∧
        ch.handleExpired timers e = (true, { ch.clearInput with counters := counters }) := by
  obtain he | ⟨generation, hfired, hcurrent, he⟩ := handleExpired_counted ch timers e
  · exact .inl he
  · exact .inr ⟨generation, _, hfired, hcurrent, he⟩

theorem handleExpired_kept {ch : Channel C n s} (h : ch.Inv) (timers : TimerQueue s)
    (e : Expiry s) : Kept ch (ch.handleExpired timers e).2 := by
  have hc := clearInput_kept h
  rcases handleExpired_cases ch timers e with he | ⟨generation, counters, -, -, he⟩
  · rw [he]
    exact .refl h
  · rw [he]
    exact ⟨rfl, rfl, rfl, hc.inv.rx, h.tx, hc.inv.policy, h.refusing, h.free, h.timeout_pos, h.fits⟩

theorem resync_kept {ch : Channel C n s} (h : ch.Inv) (timers : TimerQueue s) (now : UInt32) :
    Kept ch (ch.resync timers now).1 := clearInput_kept h

/-- The steps that `processEach` makes. -/
def stepEach (ch : Channel C n s) (ctx : C) : List (Step C) :=
  match _h : ch.process ctx with
  | (outcome, ch', ctx') =>
    if _hp : outcome.progressed then ch.stepAt ctx :: ch'.stepEach ctx' else []
termination_by ch.rx.len
decreasing_by
  have hl : (ch.process ctx).2.1.rx.len < ch.rx.len := process_rx_lt (by rw [_h]; exact _hp)
  rw [_h] at hl
  exact hl

theorem progressed_process (ch : Channel C n s) (ctx : C) :
    (ch.process ctx).1.progressed =
      (Dispatch.takeFrame ch.settings ch.table ch.rx).1.isComplete := by
  rw [← Dispatch.progressed_verdict ch.settings, ← Dispatch.answer_bare ch.settings _ ch.tx ctx,
    Outcome.progressed_bare]
  rfl

theorem process_stuck {ch : Channel C n s} {ctx : C}
    (h : (ch.process ctx).1.progressed = false) : (ch.process ctx).2 = (ch, ctx) := by
  rw [progressed_process] at h
  have hd := Dispatch.takeFrame_discards ch.settings ch.table ch.rx
  rw [h] at hd
  obtain ⟨-, hrx⟩ | ⟨hc, -⟩ := hd
  · simp only [process, Dispatch.step, hrx]
    cases ht : (Dispatch.takeFrame ch.settings ch.table ch.rx).1 with
    | incomplete a => rfl
    | zeroSync | unknownTag | frame => simp [ht, Taken.isComplete] at h
  · cases hc

/-- Every step takes octets from the input, so that steps run out: it is enough to
look at a channel that makes none and at one that makes one more. -/
@[elab_as_elim]
theorem stepwise {motive : Channel C n s → C → Prop}
    (stuck : ∀ ch ctx, (ch.process ctx).1.progressed = false → motive ch ctx)
    (again : ∀ ch ctx, (ch.process ctx).1.progressed = true →
      motive (ch.process ctx).2.1 (ch.process ctx).2.2 → motive ch ctx)
    (ch : Channel C n s) (ctx : C) : motive ch ctx := by
  induction hl : ch.rx.len using Nat.strongRecOn generalizing ch ctx with
  | ind l ih =>
    subst hl
    cases h : (ch.process ctx).1.progressed with
    | false => exact stuck ch ctx h
    | true => exact again ch ctx h (ih _ (process_rx_lt h) _ _ rfl)

theorem processEach_stuck {ch : Channel C n s} {ctx : C}
    (h : (ch.process ctx).1.progressed = false) : ch.processEach ctx = ([], ch, ctx) := by
  rw [processEach]
  simp only [h, Bool.false_eq_true, ↓reduceDIte, process_stuck h]

theorem processEach_cons {ch : Channel C n s} {ctx : C}
    (h : (ch.process ctx).1.progressed = true) :
    ch.processEach ctx =
      let rest := (ch.process ctx).2.1.processEach (ch.process ctx).2.2
      ((ch.process ctx).1 :: rest.1, rest.2) := by
  rw [processEach]
  simp only [h, ↓reduceDIte]

theorem stepEach_stuck {ch : Channel C n s} {ctx : C}
    (h : (ch.process ctx).1.progressed = false) : ch.stepEach ctx = [] := by
  rw [stepEach]
  simp only [h, Bool.false_eq_true, ↓reduceDIte]

theorem stepEach_cons {ch : Channel C n s} {ctx : C}
    (h : (ch.process ctx).1.progressed = true) :
    ch.stepEach ctx =
      ch.stepAt ctx :: (ch.process ctx).2.1.stepEach (ch.process ctx).2.2 := by
  rw [stepEach]
  simp only [h, ↓reduceDIte]

theorem outcome_stepEach (ch : Channel C n s) (ctx : C) :
    (ch.stepEach ctx).map Step.outcome = (ch.processEach ctx).1 := by
  induction ch, ctx using stepwise with
  | stuck ch ctx h => rw [stepEach_stuck h, processEach_stuck h]; rfl
  | again ch ctx h ih =>
    rw [stepEach_cons h, processEach_cons h, List.map_cons, ih]
    rfl

/-- Channels that agree step by step agree over whole runs. -/
theorem processEach_sim {R : Channel C n s → Channel C n s → Prop}
    (hstep : ∀ {ch ch' : Channel C n s}, R ch ch' → ∀ ctx, ch'.stepAt ctx = ch.stepAt ctx ∧
      R (ch.process ctx).2.1 (ch'.process ctx).2.1 ∧
      (ch'.process ctx).2.2 = (ch.process ctx).2.2)
    {ch ch' : Channel C n s} (h : R ch ch') (ctx : C) :
    ch'.stepEach ctx = ch.stepEach ctx ∧
      R (ch.processEach ctx).2.1 (ch'.processEach ctx).2.1 ∧
      (ch'.processEach ctx).2.2 = (ch.processEach ctx).2.2 := by
  induction ch, ctx using stepwise generalizing ch' with
  | stuck ch ctx hp =>
    have ho : (ch'.process ctx).1 = (ch.process ctx).1 :=
      congrArg Step.outcome (hstep h ctx).1
    rw [processEach_stuck hp, stepEach_stuck hp]
    rw [← ho] at hp
    rw [processEach_stuck hp, stepEach_stuck hp]
    exact ⟨rfl, h, rfl⟩
  | again ch ctx hp ih =>
    obtain ⟨hat, hrel, hctx⟩ := hstep h ctx
    have ho : (ch'.process ctx).1 = (ch.process ctx).1 := congrArg Step.outcome hat
    obtain ⟨hsteps, hrest, hlast⟩ := ih hrel
    rw [processEach_cons hp, stepEach_cons hp]
    rw [← ho] at hp
    rw [processEach_cons hp, stepEach_cons hp, hctx, hat, hsteps]
    exact ⟨rfl, hrest, hlast⟩

end Channel

end CommandLink
