import CommandLink.Counters
import CommandLink.Dispatch.Progress
import CommandLink.Timer.Queue
import CommandLink.Transmit.Drain

namespace CommandLink

/-- One transport: two queues of `n` octets, and a slot in a queue of `s`
timers that the transports share. -/
structure Channel (C : Type) (n s : Nat) where
  settings : Settings
  table : Table C
  slot : Fin s
  rx : Ring n
  tx : Ring n
  counters : Counters := {}
  /-- The output queue is lent to a pump. -/
  draining : Bool := false

inductive OpenError where
  | settings (e : SettingsError)
  | frameTooLarge (needed capacity : Nat)
  | timer (e : TimerError)
  deriving DecidableEq

def OpenError.message : OpenError → String
  | .settings e => "Config(" ++ e.message ++ ")"
  | .frameTooLarge needed capacity =>
    "FrameTooLarge \x7b needed: " ++ toString needed ++ ", capacity: " ++ toString capacity ++
      " \x7d"
  | .timer e => "Timer(" ++ e.message ++ ")"

namespace Channel

variable {C ω ε : Type} {n s : Nat}

/-- Build a channel and take a timer for it. Every frame has to fit the
queues. -/
def new (n : Nat) (settings : Settings) (table : Table C) (timers : TimerQueue s) :
    Except OpenError (Channel C n s × TimerQueue s) :=
  match settings.validate timers.longest with
  | .error e => .error (.settings e)
  | .ok () =>
    let needed := table.maxFrameLen settings.coverage
    if n < needed then .error (.frameTooLarge needed n)
    else match timers.allocate with
      | .error e => .error (.timer e)
      | .ok (slot, timers') =>
        let rx := Ring.empty.setOverwrite settings.rxOverwrite
        .ok ({ settings, table, slot, rx, tx := .empty }, timers')

def rearm (ch : Channel C n s) (timers : TimerQueue s) (now : UInt32) : TimerQueue s :=
  match timers.arm ch.slot ch.settings.idleTimeout now with
  | .ok timers' => timers'
  | .error _ => timers

/-- Queue received octets and say how many were stored. Octets refused and
octets displaced by newer ones count as dropped. -/
def receive (ch : Channel C n s) (timers : TimerQueue s) (bs : List UInt8) (now : UInt32) :
    Nat × Channel C n s × TimerQueue s :=
  if bs.isEmpty then (0, ch, timers)
  else
    let (stored, rx) := ch.rx.offer bs
    let displaced := ch.rx.len + stored - rx.len
    let dropped := bs.length - stored + displaced
    (stored, { ch with rx, counters := ch.counters.recordRxDropped dropped }, ch.rearm timers now)

def receiveByte (ch : Channel C n s) (timers : TimerQueue s) (b : UInt8) (now : UInt32) :
    Bool × Channel C n s × TimerQueue s :=
  let (stored, rest) := ch.receive timers [b] now
  (stored = 1, rest)

def process (ch : Channel C n s) (ctx : C) : Outcome × Channel C n s × C :=
  let (outcome, rx, tx, ctx') := Dispatch.step ch.settings ch.table ch.rx ch.tx ctx
  (outcome, { ch with rx, tx, counters := ch.counters.record outcome }, ctx')

theorem process_rx_lt {ch : Channel C n s} {ctx : C} (h : (ch.process ctx).1.progressed = true) :
    (ch.process ctx).2.1.rx.len < ch.rx.len :=
  Dispatch.step_rx_lt h

/-- Steps until no complete frame is left, with their outcomes in order. -/
def processEach (ch : Channel C n s) (ctx : C) : List Outcome × Channel C n s × C :=
  match _h : ch.process ctx with
  | (outcome, ch', ctx') =>
    if _hp : outcome.progressed then
      let (outcomes, rest) := ch'.processEach ctx'
      (outcome :: outcomes, rest)
    else ([], ch', ctx')
termination_by ch.rx.len
decreasing_by
  have hl : (ch.process ctx).2.1.rx.len < ch.rx.len := process_rx_lt (by rw [_h]; exact _hp)
  rw [_h] at hl
  exact hl

/-- Steps until no complete frame is left, with the number of frames served. -/
def processAll (ch : Channel C n s) (ctx : C) : Nat × Channel C n s × C :=
  let (outcomes, rest) := ch.processEach ctx
  (outcomes.countP Outcome.isProcessed, rest)

/-- Move the output into a sink, which may receive on the lent channel and
pump it again. Such an inner pump moves nothing. -/
def pump (sink : Sink (Channel C n s × ω) ε) (ch : Channel C n s) (w : ω) :
    Except ε Nat × Channel C n s × ω :=
  if ch.draining then (.ok 0, ch, w)
  else
    let (moved, tx, lent, w') := Transmit.drain sink ch.tx ({ ch with draining := true }, w)
    (moved, { lent with tx, draining := false }, w')

def clearInput (ch : Channel C n s) : Channel C n s :=
  { ch with rx := ch.rx.reset.setOverwrite ch.settings.rxOverwrite }

/-- Clear the input if the channel's timer fired and nothing happened to the
timer since. -/
def handleExpired (ch : Channel C n s) (timers : TimerQueue s) (e : Expiry s) :
    Bool × Channel C n s :=
  match e.generationOf? ch.slot with
  | none => (false, ch)
  | some generation =>
    if timers.isCurrent ch.slot generation then
      let counters := if ch.rx.isEmpty then ch.counters else ch.counters.recordIdleReset
      (true, { ch.clearInput with counters })
    else (false, ch)

/-- Clear the input and stop the idle timer. -/
def resync (ch : Channel C n s) (timers : TimerQueue s) (now : UInt32) :
    Channel C n s × TimerQueue s :=
  (ch.clearInput, timers.cancel ch.slot now)

end Channel

end CommandLink
