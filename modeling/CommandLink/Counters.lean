import CommandLink.Dispatch.Outcome

namespace CommandLink

/-- Totals of one channel, which wrap. -/
structure Counters where
  frames : UInt32 := 0
  unknownTagBytes : UInt32 := 0
  checksumErrors : UInt32 := 0
  rxDropped : UInt32 := 0
  txDropped : UInt32 := 0
  idleResets : UInt32 := 0
  syncReplies : UInt32 := 0
  deriving DecidableEq

namespace Counters

def recordInput (c : Counters) : Outcome → Counters
  | .incomplete _ => c
  | .processed _ _ => { c with frames := c.frames + 1 }
  | .discarded .unknownTag _ => { c with unknownTagBytes := c.unknownTagBytes + 1 }
  | .discarded .checksumMismatch _ => { c with checksumErrors := c.checksumErrors + 1 }
  | .synced _ => { c with syncReplies := c.syncReplies + 1 }

def recordReply (c : Counters) (o : Outcome) : Counters :=
  if o.response? = some .dropped then { c with txDropped := c.txDropped + 1 } else c

def record (c : Counters) (o : Outcome) : Counters := (c.recordInput o).recordReply o

def recordRxDropped (c : Counters) (n : Nat) : Counters :=
  { c with rxDropped := c.rxDropped + UInt32.ofNat n }

def recordIdleReset (c : Counters) : Counters := { c with idleResets := c.idleResets + 1 }

end Counters

end CommandLink
