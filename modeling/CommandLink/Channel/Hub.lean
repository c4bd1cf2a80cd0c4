import CommandLink.Channel.Basic
import CommandLink.Transmit.Packet

namespace CommandLink

inductive AttachError where
  | table (e : TableError)
  | channel (e : OpenError)
  deriving DecidableEq

def AttachError.message : AttachError → String
  | .table e => e.message
  | .channel e => e.message

/-- Channels over one queue of timers, numbered in the order of their
attachment. A failed attachment uses up a number too. -/
structure Hub (C : Type) (n s : Nat) where
  timers : TimerQueue s
  channels : List (Option (Channel C n s)) := []

namespace Hub

variable {C ω ε : Type} {n s : Nat}

def channel? (hub : Hub C n s) (i : Nat) : Option (Channel C n s) := hub.channels[i]?.join

def setChannel (hub : Hub C n s) (i : Nat) (ch : Channel C n s) : Hub C n s :=
  { hub with channels := hub.channels.set i (some ch) }

def attach (hub : Hub C n s) (settings : Settings) (commands : List (Command C)) :
    Except AttachError (Fin s) × Hub C n s :=
  match Table.ofCommands commands with
  | .error e => (.error (.table e), { hub with channels := hub.channels ++ [none] })
  | .ok table =>
    match Channel.new n settings table hub.timers with
    | .error e => (.error (.channel e), { hub with channels := hub.channels ++ [none] })
    | .ok (ch, timers) => (.ok ch.slot, { timers, channels := hub.channels ++ [some ch] })

def onChannel {α : Type} (hub : Hub C n s) (i : Nat)
    (f : Channel C n s → TimerQueue s → α × Channel C n s × TimerQueue s) :
    Option (α × Hub C n s) :=
  (hub.channel? i).map fun ch =>
    let (a, ch', timers) := f ch hub.timers
    (a, { hub with timers }.setChannel i ch')

def receive (hub : Hub C n s) (i : Nat) (bs : List UInt8) (now : UInt32) :
    Option (Nat × Hub C n s) :=
  hub.onChannel i fun ch timers => ch.receive timers bs now

def receiveByte (hub : Hub C n s) (i : Nat) (b : UInt8) (now : UInt32) :
    Option (Bool × Hub C n s) :=
  hub.onChannel i fun ch timers => ch.receiveByte timers b now

def process (hub : Hub C n s) (i : Nat) (ctx : C) : Option ((Outcome × C) × Hub C n s) :=
  hub.onChannel i fun ch timers =>
    let (outcome, ch', ctx') := ch.process ctx
    ((outcome, ctx'), ch', timers)

def processAll (hub : Hub C n s) (i : Nat) (ctx : C) : Option ((Nat × C) × Hub C n s) :=
  hub.onChannel i fun ch timers =>
    let (frames, ch', ctx') := ch.processAll ctx
    ((frames, ctx'), ch', timers)

def handleExpired (hub : Hub C n s) (i : Nat) (e : Expiry s) : Option (Bool × Hub C n s) :=
  hub.onChannel i fun ch timers =>
    let (cleared, ch') := ch.handleExpired timers e
    (cleared, ch', timers)

def resync (hub : Hub C n s) (i : Nat) (now : UInt32) : Option (Unit × Hub C n s) :=
  hub.onChannel i fun ch timers => ((), ch.resync timers now)

def expire (hub : Hub C n s) (now : UInt32) : Expiry s × Hub C n s :=
  let (e, timers) := hub.timers.expire now
  (e, { hub with timers })

/-- Expire the timers and hand the result to every channel in turn. -/
def tick (hub : Hub C n s) (now : UInt32) : List Bool × Hub C n s :=
  let (e, hub) := hub.expire now
  (List.range hub.channels.length).foldl (fun (cleared, hub) i =>
    match hub.handleExpired i e with
    | none => (cleared, hub)
    | some (b, hub) => (cleared ++ [b], hub)) ([], hub)

/-- Call a sink on the hub with the lent channel put back, and take the
channel out again. -/
def relend {α : Type} (i : Nat) (f : Hub C n s × ω → α × Hub C n s × ω) :
    Channel C n s × Hub C n s × ω → α × Channel C n s × Hub C n s × ω
  | (ch, hub, w) =>
    let (a, hub', w') := f (hub.setChannel i ch, w)
    (a, (hub'.channel? i).getD ch, hub', w')

/-- Move the output of one channel into a sink that may use the hub. -/
def pump (sink : Sink (Hub C n s × ω) ε) (hub : Hub C n s) (i : Nat) (w : ω) :
    Option (Except ε Nat × Hub C n s × ω) :=
  (hub.channel? i).map fun ch =>
    let lentSink : Sink (Channel C n s × Hub C n s × ω) ε :=
      ⟨relend i sink.canWrite, fun b => relend i (sink.write b)⟩
    let (moved, ch', hub', w') := ch.pump lentSink (hub, w)
    (moved, hub'.setChannel i ch', w')

end Hub

end CommandLink
