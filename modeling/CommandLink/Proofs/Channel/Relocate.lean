import CommandLink.Proofs.Channel.System
import CommandLink.Proofs.Transmit.Delivery

namespace CommandLink

variable {C : Type} {n s : Nat}

namespace Channel

/-- The same channel, had it been given another timer. -/
def atSlot (slot : Fin s) (ch : Channel C n s) : Channel C n s := { ch with slot }

theorem processEach_atSlot (slot : Fin s) (ch : Channel C n s) (ctx : C) :
    (ch.atSlot slot).processEach ctx =
        (ch.processEach ctx).map id (Prod.map (atSlot slot) id) ∧
      (ch.atSlot slot).stepEach ctx = ch.stepEach ctx := by
  have hstep {ch ch' : Channel C n s} (h : ch' = ch.atSlot slot) (ctx : C) :
      ch'.stepAt ctx = ch.stepAt ctx ∧
        (ch'.process ctx).2.1 = (ch.process ctx).2.1.atSlot slot ∧
        (ch'.process ctx).2.2 = (ch.process ctx).2.2 := by
    subst h
    exact ⟨rfl, rfl, rfl⟩
  obtain ⟨hsteps, hch, hctx⟩ := processEach_sim hstep (rfl : ch.atSlot slot = _) ctx
  refine ⟨Prod.ext ?_ (Prod.ext hch hctx), hsteps⟩
  rw [← outcome_stepEach, hsteps, outcome_stepEach]
  rfl

theorem pump_atSlot {ω ε : Type} (slot : Fin s) {sink : Sink (Channel C n s × ω) ε}
    (hroom : ∀ w, sink.canWrite (w.map (atSlot slot) id) =
      (sink.canWrite w).map id (Prod.map (atSlot slot) id))
    (hwrite : ∀ b w, sink.write b (w.map (atSlot slot) id) =
      (sink.write b w).map id (Prod.map (atSlot slot) id)) (ch : Channel C n s) (w : ω) :
    (ch.atSlot slot).pump sink w = (ch.pump sink w).map id (Prod.map (atSlot slot) id) := by
  cases hd : ch.draining with
  | true =>
    have hd' : (ch.atSlot slot).draining = true := hd
    rw [pump, pump, if_pos hd, if_pos hd']
    rfl
  | false =>
    have hd' : (ch.atSlot slot).draining = false := hd
    have hdrain : Transmit.drain sink (ch.atSlot slot).tx
          ({ ch.atSlot slot with draining := true }, w) =
        (Transmit.drain sink ch.tx ({ ch with draining := true }, w)).map id
          (Prod.map id (Prod.map (atSlot slot) id)) :=
      Transmit.drain_map (Prod.map (atSlot slot) id) hroom hwrite ch.tx
        ({ ch with draining := true }, w)
    rw [pump, pump, hd, hd', if_neg Bool.false_ne_true, if_neg Bool.false_ne_true, hdrain]
    rfl

end Channel

/-- A sink that pumps a channel does not see its slot. -/
theorem Script.run_atSlot {σ α : Type} (slot : Fin s) (p : Script σ α) (ch : Channel C n s)
    (wire : List UInt8) (st : σ) :
    p.run (ch.atSlot slot, wire, st) =
      (p.run (ch, wire, st)).map id (Prod.map (Channel.atSlot slot) id) := by
  induction p generalizing ch wire st with
  | answer a st' => rfl
  | pump canWrite write st' resume hroom hwrite hresume =>
    rw [run, run, ch.pump_atSlot slot]
    · exact hresume _ _ _ _ _
    · rintro ⟨ch, wire, st⟩
      exact hroom st ch wire st
    · rintro b ⟨ch, wire, st⟩
      simp only [wired, Prod.map_apply, id_eq, hwrite]
      obtain ⟨taken, ch', wire', st'⟩ := (write b st).run (ch, wire, st)
      cases taken with
      | error e => rfl
      | ok u => rfl

theorem Script.pump_atSlot {σ ε : Type} (slot : Fin s) (canWrite : σ → Script σ Bool)
    (write : UInt8 → σ → Script σ (Except ε Unit)) (ch : Channel C n s) (wire : List UInt8)
    (st : σ) :
    (ch.atSlot slot).pump (wired (fun st => (canWrite st).run) (fun b st => (write b st).run))
        (wire, st) =
      (ch.pump (wired (fun st => (canWrite st).run) (fun b st => (write b st).run))
        (wire, st)).map id (Prod.map (Channel.atSlot slot) id) :=
  (Script.pump canWrite write st .answer).run_atSlot slot ch wire st

/-- What an operation tells the channel's user. -/
inductive Answer : Type 1
  | stored (k : Nat)
  | accepted (b : Bool)
  | outcome (o : Outcome)
  | frames (k : Nat)
  | cleared (b : Bool)
  | moved {σ ε : Type} (k : Except ε Nat) (st : σ)
  | nothing

namespace Op

def expiry? : Op s → Option (Expiry s)
  | .handleExpired e => some e
  | _ => none

/-- What an operation does to the timer of a channel that has a timeout. -/
def wake (timeout : UInt32) : Op s → Timer → Timer
  | .receive bs now => fun t => if bs.isEmpty then t else t.arm timeout now
  | .receiveByte _ now => fun t => t.arm timeout now
  | .resync now => fun t => t.cancel now
  | _ => id

/-- Operations that say the same to the owners of two slots. -/
inductive Alike (slot slot' : Fin s) : Op s → Op s → Prop
  | same (op : Op s) (own : op.expiry? = none) : Alike slot slot' op op
  | expiry (e e' : Expiry s) (h : e'.generationOf? slot' = e.generationOf? slot) :
    Alike slot slot' (.handleExpired e) (.handleExpired e')

theorem Alike.wake_eq {slot slot' : Fin s} {op op' : Op s} (h : Alike slot slot' op op')
    (timeout : UInt32) : op'.wake timeout = op.wake timeout := by
  cases h <;> rfl

end Op

namespace Session

def answer (ses : Session C n s) (timers : TimerQueue s) : Op s → Answer
  | .receive bs now => .stored (ses.channel.receive timers bs now).1
  | .receiveByte b now => .accepted (ses.channel.receiveByte timers b now).1
  | .process => .outcome (ses.channel.process ses.context).1
  | .processAll => .frames (ses.channel.processAll ses.context).1
  | .handleExpired e => .cleared (ses.channel.handleExpired timers e).1
  | .resync _ => .nothing
  | .pump canWrite write st =>
    let (moved, _, _, st') := ses.channel.pump
      (Script.wired (fun st => (canWrite st).run) (fun b st => (write b st).run)) (ses.wire, st)
    .moved moved st'

def atSlot (slot : Fin s) (ses : Session C n s) : Session C n s :=
  { ses with channel := ses.channel.atSlot slot }

theorem timer_apply {ses : Session C n s} {timers : TimerQueue s}
    (hfit : ses.channel.settings.idleTimeout ≤ timers.longest) (op : Op s) :
    (ses.apply timers op).2.timer ses.channel.slot =
      op.wake ses.channel.settings.idleTimeout (timers.timer ses.channel.slot) := by
  have harm (now : UInt32) : (ses.channel.rearm timers now).timer ses.channel.slot =
      (timers.timer ses.channel.slot).arm ses.channel.settings.idleTimeout now := by
    rw [Channel.rearm_eq hfit]
    exact TimerQueue.timer_update_self _ _ _
  cases op with
  | receive bs now =>
    cases bs with
    | nil => rfl
    | cons b bs => exact harm now
  | receiveByte b now => exact harm now
  | resync now => exact TimerQueue.timer_update_self _ _ _
  | process | processAll | handleExpired | pump => rfl

variable {ses : Session C n s} {timers timers' : TimerQueue s} {slot : Fin s} {op op' : Op s}

/-- A channel at another slot, whose timer is the same, answers the same and stays
the same but for its slot. -/
theorem apply_atSlot (ht : timers'.timer slot = timers.timer ses.channel.slot)
    (h : op.Alike ses.channel.slot slot op') :
    (ses.atSlot slot).answer timers' op' = ses.answer timers op ∧
      ((ses.atSlot slot).apply timers' op').1 = (ses.apply timers op).1.atSlot slot := by
  cases h with
  | same op own =>
    cases op with
    | receive bs now => cases bs <;> exact ⟨rfl, rfl⟩
    | receiveByte | process | resync => exact ⟨rfl, rfl⟩
    | processAll =>
      obtain ⟨heach, hsteps⟩ := ses.channel.processEach_atSlot slot ses.context
      simp only [answer, apply, processAll, Channel.processAll, atSlot, heach, hsteps]
      exact ⟨rfl, rfl⟩
    | handleExpired e => cases own
    | pump canWrite write st =>
      simp only [answer, apply, atSlot, Script.pump_atSlot]
      exact ⟨rfl, rfl⟩
  | expiry e e' he =>
    have htold : e'.generationOf? (ses.channel.atSlot slot).slot =
        e.generationOf? ses.channel.slot := he
    have hcurrent (generation : UInt16) :
        timers'.isCurrent (ses.channel.atSlot slot).slot generation =
          timers.isCurrent ses.channel.slot generation :=
      congrArg (Timer.isCurrent · generation) ht
    simp only [answer, apply, atSlot, Channel.handleExpired, htold]
    cases e.generationOf? ses.channel.slot with
    | none => exact ⟨rfl, rfl⟩
    | some generation =>
      simp only [hcurrent]
      cases timers.isCurrent ses.channel.slot generation <;> exact ⟨rfl, rfl⟩

end Session

end CommandLink
