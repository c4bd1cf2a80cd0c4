namespace CommandLink

/-- One-shot timers. Times are milliseconds that wrap at `2^32`; a deadline
is reached when it is now, or when it lies farther ahead than any timer may
be armed for and so in the past. -/
structure Timer where
  allocated : Bool := false
  armed : Bool := false
  deadline : UInt32 := 0
  /-- Counts arms and cancels. -/
  generation : UInt16 := 0
  deriving DecidableEq

namespace Timer

def standardLongest : UInt32 := 86400000

/-- How far into the past a cancelled deadline is moved. -/
def cancelPadding : UInt32 := 1000

def arm (t : Timer) (delay now : UInt32) : Timer :=
  { t with armed := true, deadline := now + delay, generation := t.generation + 1 }

def cancel (t : Timer) (now : UInt32) : Timer :=
  { t with armed := false, deadline := now - cancelPadding, generation := t.generation + 1 }

/-- Milliseconds to the deadline, with zero for one in the past. -/
def remaining (t : Timer) (longest now : UInt32) : Option UInt32 :=
  if t.armed then
    let left := t.deadline - now
    some (if longest < left then 0 else left)
  else none

def isDue (t : Timer) (longest now : UInt32) : Bool :=
  let left := t.deadline - now
  t.armed && (left = 0 || longest < left)

def expire (t : Timer) (longest now : UInt32) : Timer :=
  if t.isDue longest now then { t with armed := false } else t

/-- Whether nothing happened to a timer since it fired with `generation`. -/
def isCurrent (t : Timer) (generation : UInt16) : Bool :=
  !t.armed && t.generation = generation

end Timer

inductive TimerError where
  | noFreeSlot
  | delayTooLong
  | unknownSlot
  deriving DecidableEq

def TimerError.message : TimerError → String
  | .noFreeSlot => "NoFreeSlot"
  | .delayTooLong => "DelayTooLong"
  | .unknownSlot => "UnknownSlot"

/-- The slots that fired at one time, with their generations. -/
structure Expiry (s : Nat) where
  fired : List (Fin s × UInt16)

namespace Expiry

variable {s : Nat}

def generationOf? (e : Expiry s) (slot : Fin s) : Option UInt16 := e.fired.lookup slot

def contains (e : Expiry s) (slot : Fin s) : Bool := (e.generationOf? slot).isSome

end Expiry

structure TimerQueue (s : Nat) where
  longest : UInt32
  timers : Vector Timer s

namespace TimerQueue

variable {s : Nat}

/-- The longest delay stays below `2^31`, so that past and future can be told
apart. -/
def new (s : Nat) (longest : UInt32) : TimerQueue s :=
  ⟨if 0x7FFFFFFF < longest then 0x7FFFFFFF else longest, Vector.replicate s {}⟩

def slot? (_ : TimerQueue s) (i : Nat) : Option (Fin s) :=
  if h : i < s then some ⟨i, h⟩ else none

def timer (q : TimerQueue s) (slot : Fin s) : Timer := q.timers.get slot

def update (q : TimerQueue s) (slot : Fin s) (f : Timer → Timer) : TimerQueue s :=
  { q with timers := q.timers.set slot (f (q.timer slot)) }

def allocate (q : TimerQueue s) : Except TimerError (Fin s × TimerQueue s) :=
  match q.timers.findFinIdx? fun t => !t.allocated with
  | none => .error .noFreeSlot
  | some slot => .ok (slot, q.update slot fun _ => { allocated := true })

def arm (q : TimerQueue s) (slot : Fin s) (delay now : UInt32) :
    Except TimerError (TimerQueue s) :=
  if q.longest < delay then .error .delayTooLong
  else .ok (q.update slot fun t => t.arm delay now)

/-- Arm a slot given by its number. The delay is judged before the number. -/
def armAt (q : TimerQueue s) (i : Nat) (delay now : UInt32) : Except TimerError (TimerQueue s) :=
  if q.longest < delay then .error .delayTooLong
  else match q.slot? i with
    | none => .error .unknownSlot
    | some slot => q.arm slot delay now

def cancel (q : TimerQueue s) (slot : Fin s) (now : UInt32) : TimerQueue s :=
  q.update slot fun t => t.cancel now

def isArmed (q : TimerQueue s) (slot : Fin s) : Bool := (q.timer slot).armed

def remaining (q : TimerQueue s) (slot : Fin s) (now : UInt32) : Option UInt32 :=
  (q.timer slot).remaining q.longest now

def isCurrent (q : TimerQueue s) (slot : Fin s) (generation : UInt16) : Bool :=
  (q.timer slot).isCurrent generation

/-- Fire every timer that is due, in the order of the slots. -/
def expire (q : TimerQueue s) (now : UInt32) : Expiry s × TimerQueue s :=
  (⟨(List.finRange s).filterMap fun slot =>
      let t := q.timer slot
      if t.isDue q.longest now then some (slot, t.generation) else none⟩,
    { q with timers := q.timers.map fun t => t.expire q.longest now })

end TimerQueue

end CommandLink
