import CommandLink.Proofs.Channel.Script
import CommandLink.Proofs.Channel.Steps

namespace CommandLink

/-- A channel in use: the application's state beside it, the octets that sinks
have taken from it and the steps that it has made. -/
structure Session (C : Type) (n s : Nat) where
  channel : Channel C n s
  context : C
  wire : List UInt8 := []
  steps : List (Step C) := []

/-- The calls that a channel's user may make. -/
inductive Op (s : Nat) : Type 1
  | receive (bs : List UInt8) (now : UInt32)
  | receiveByte (b : UInt8) (now : UInt32)
  | process
  | processAll
  | handleExpired (e : Expiry s)
  | resync (now : UInt32)
  | pump {σ ε : Type} (canWrite : σ → Script σ Bool) (write : UInt8 → σ → Script σ (Except ε Unit))
    (st : σ)

namespace Session

variable {C : Type} {n s : Nat}

def process (ses : Session C n s) : Session C n s :=
  let step := ses.channel.stepAt ses.context
  let (_, ch, ctx) := ses.channel.process ses.context
  { ses with
    channel := ch, context := ctx
    steps := ses.steps ++ if step.outcome.progressed then [step] else [] }

def processAll (ses : Session C n s) : Session C n s :=
  let (_, ch, ctx) := ses.channel.processAll ses.context
  { ses with
    channel := ch, context := ctx, steps := ses.steps ++ ses.channel.stepEach ses.context }

def apply (ses : Session C n s) (timers : TimerQueue s) : Op s → Session C n s × TimerQueue s
  | .receive bs now =>
    let (_, ch, timers') := ses.channel.receive timers bs now
    ({ ses with channel := ch }, timers')
  | .receiveByte b now =>
    let (_, ch, timers') := ses.channel.receiveByte timers b now
    ({ ses with channel := ch }, timers')
  | .process => (ses.process, timers)
  | .processAll => (ses.processAll, timers)
  | .handleExpired e =>
    let (_, ch) := ses.channel.handleExpired timers e
    ({ ses with channel := ch }, timers)
  | .resync now =>
    let (ch, timers') := ses.channel.resync timers now
    ({ ses with channel := ch }, timers')
  | .pump canWrite write st =>
    let (_, ch, wire, _) := ses.channel.pump
      (Script.wired (fun st => (canWrite st).run) (fun b st => (write b st).run)) (ses.wire, st)
    ({ ses with channel := ch, wire }, timers)

/-- Operations one after another. Each finds the timers, which other channels
use too, in a state of its own. -/
def run (ses : Session C n s) : List (TimerQueue s × Op s) → Session C n s
  | [] => ses
  | (timers, op) :: ops => ((ses.apply timers op).1).run ops

theorem run_append (ses : Session C n s) (ops ops' : List (TimerQueue s × Op s)) :
    ses.run (ops ++ ops') = (ses.run ops).run ops' := by
  induction ops generalizing ses with
  | nil => rfl
  | cons o ops ih => exact ih _

theorem processAll_stuck {ses : Session C n s}
    (h : (ses.channel.process ses.context).1.progressed = false) : ses.processAll = ses := by
  simp only [processAll, Channel.processAll, Channel.processEach_stuck h,
    Channel.stepEach_stuck h, List.append_nil]

theorem processAll_cons {ses : Session C n s}
    (h : (ses.channel.process ses.context).1.progressed = true) :
    ses.processAll = ses.process.processAll := by
  have ho : (ses.channel.stepAt ses.context).outcome.progressed = true := h
  simp only [processAll, process, Channel.processAll, Channel.processEach_cons h,
    Channel.stepEach_cons h, ho, ↓reduceIte, List.append_assoc, List.singleton_append]

theorem process_stuck {ses : Session C n s}
    (h : (ses.channel.process ses.context).1.progressed = false) : ses.process = ses := by
  have ho : (ses.channel.stepAt ses.context).outcome.progressed = false := h
  simp only [process, ho, Channel.process_stuck h, Bool.false_eq_true, ↓reduceIte,
    List.append_nil]

theorem steps_process {ses : Session C n s}
    (h : (ses.channel.process ses.context).1.progressed = true) :
    ses.process.steps = ses.steps ++ [ses.channel.stepAt ses.context] := by
  have ho : (ses.channel.stepAt ses.context).outcome.progressed = true := h
  simp only [process, ho, ↓reduceIte]

@[elab_as_elim]
theorem stepwise {motive : Session C n s → Prop}
    (stuck : ∀ ses, (ses.channel.process ses.context).1.progressed = false → motive ses)
    (again : ∀ ses, (ses.channel.process ses.context).1.progressed = true →
      motive ses.process → motive ses) (ses : Session C n s) : motive ses := by
  obtain ⟨ch, ctx, wire, steps⟩ := ses
  induction ch, ctx using Channel.stepwise generalizing steps with
  | stuck ch ctx h => exact stuck _ h
  | again ch ctx h ih => exact again _ h (ih _)

/-- What one step keeps, steps until no complete frame is left keep. -/
theorem processAll_induct {P : Session C n s → Prop} (hstep : ∀ ses, P ses → P ses.process)
    {ses : Session C n s} (h : P ses) : P ses.processAll := by
  induction ses using stepwise with
  | stuck ses hp => rwa [processAll_stuck hp]
  | again ses hp ih =>
    rw [processAll_cons hp]
    exact ih (hstep ses h)

theorem processAll_rests (ses : Session C n s) :
    (ses.processAll.channel.process ses.processAll.context).1.progressed = false := by
  induction ses using stepwise with
  | stuck ses hp => rwa [processAll_stuck hp]
  | again ses hp ih => rwa [processAll_cons hp]

theorem len_process_le (ses : Session C n s) :
    ses.process.channel.rx.len ≤ ses.channel.rx.len := by
  cases hp : (ses.channel.process ses.context).1.progressed with
  | false => rw [process_stuck hp]
  | true => exact Nat.le_of_lt (Channel.process_rx_lt hp)

theorem len_processAll_le (ses : Session C n s) :
    ses.processAll.channel.rx.len ≤ ses.channel.rx.len :=
  processAll_induct (P := fun ses' => ses'.channel.rx.len ≤ ses.channel.rx.len)
    (fun ses' hle => Nat.le_trans (len_process_le ses') hle) (Nat.le_refl _)

theorem process_kept {ses : Session C n s} (h : ses.channel.Inv) :
    Channel.Kept ses.channel ses.process.channel := Channel.process_kept h ses.context

theorem processAll_kept {ses : Session C n s} (h : ses.channel.Inv) :
    Channel.Kept ses.channel ses.processAll.channel :=
  processAll_induct (P := fun ses' => Channel.Kept ses.channel ses'.channel)
    (fun _ hk => hk.trans (process_kept hk.inv)) (.refl h)

theorem apply_kept {ses : Session C n s} (h : ses.channel.Inv) (timers : TimerQueue s)
    (op : Op s) : Channel.Kept ses.channel (ses.apply timers op).1.channel := by
  cases op with
  | receive bs now => exact Channel.receive_kept h timers bs now
  | receiveByte b now => exact Channel.receive_kept h timers [b] now
  | process => exact process_kept h
  | processAll => exact processAll_kept h
  | handleExpired e => exact Channel.handleExpired_kept h timers e
  | resync now => exact Channel.resync_kept h timers now
  | pump canWrite write st =>
    obtain ⟨moved, tx', wire', st', sent, hpump, hm⟩ :=
      Script.pump_wired canWrite write h.free h.tx ses.wire st
    simp only [apply, hpump]
    exact ⟨rfl, rfl, rfl, h.rx, hm.inv, h.policy, hm.kept.trans h.refusing, h.free, h.timeout_pos,
      h.fits⟩

theorem run_kept {ses : Session C n s} (h : ses.channel.Inv) (ops : List (TimerQueue s × Op s)) :
    Channel.Kept ses.channel (ses.run ops).channel := by
  induction ops generalizing ses with
  | nil => exact .refl h
  | cons o ops ih =>
    have hk := apply_kept h o.1 o.2
    exact hk.trans (ih hk.inv)

/-- What holds of every step that a channel can make holds of all that it made. -/
theorem forall_steps_run {P : Step C → Prop} {ses : Session C n s} (h : ses.channel.Inv)
    (hold : ∀ st ∈ ses.steps, P st)
    (hstep : ∀ (ch : Channel C n s) (ctx : C), Channel.Kept ses.channel ch → P (ch.stepAt ctx))
    (ops : List (TimerQueue s × Op s)) : ∀ st ∈ (ses.run ops).steps, P st := by
  induction ops generalizing ses with
  | nil => exact hold
  | cons o ops ih =>
    obtain ⟨timers, op⟩ := o
    let Good (ses' : Session C n s) : Prop :=
      Channel.Kept ses.channel ses'.channel ∧ ∀ st ∈ ses'.steps, P st
    have hstart : Good ses := ⟨.refl h, hold⟩
    have hprocess (ses' : Session C n s) (hg : Good ses') : Good ses'.process := by
      cases hp : (ses'.channel.process ses'.context).1.progressed with
      | false => rwa [process_stuck hp]
      | true =>
        refine ⟨hg.1.trans (process_kept hg.1.inv), ?_⟩
        rw [steps_process hp, List.forall_mem_append, List.forall_mem_singleton]
        exact ⟨hg.2, hstep _ _ hg.1⟩
    have hgood : Good (ses.apply timers op).1 := by
      cases op with
      | process => exact hprocess ses hstart
      | processAll => exact processAll_induct (P := Good) hprocess hstart
      | receive | receiveByte | handleExpired | resync | pump =>
        exact ⟨apply_kept h timers _, hold⟩
    exact ih hgood.1.inv hgood.2 fun ch ctx hk => hstep ch ctx (hgood.1.trans hk)

end Session

end CommandLink
