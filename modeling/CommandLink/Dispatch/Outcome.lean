import CommandLink.Frame.Tag

namespace CommandLink

/-- The first field of a frame that has not arrived whole. -/
inductive Awaiting where
  | tag
  | payload
  | checksum
  deriving DecidableEq

inductive Discard where
  | unknownTag
  | checksumMismatch
  deriving DecidableEq

/-- The fate of the reply to one step. A reply without room is dropped whole. -/
inductive Response where
  | queued (n : Nat)
  | silent
  | dropped
  deriving DecidableEq

inductive Outcome where
  | incomplete (a : Awaiting)
  | processed (t : Tag) (r : Response)
  | discarded (d : Discard) (r : Response)
  | synced (r : Response)
  deriving DecidableEq

def Outcome.progressed : Outcome → Bool
  | .incomplete _ => false
  | _ => true

def Outcome.isProcessed : Outcome → Bool
  | .processed _ _ => true
  | _ => false

def Outcome.response? : Outcome → Option Response
  | .incomplete _ => none
  | .processed _ r => some r
  | .discarded _ r => some r
  | .synced r => some r

end CommandLink
