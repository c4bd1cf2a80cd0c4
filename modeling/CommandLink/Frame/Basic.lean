import CommandLink.Frame.Coverage

namespace CommandLink

inductive FrameError where
  | bufferTooSmall
  | truncated
  | checksumMismatch
  deriving DecidableEq

def FrameError.message : FrameError → String
  | .bufferTooSmall => "BufferTooSmall"
  | .truncated => "Truncated"
  | .checksumMismatch => "ChecksumMismatch"

namespace Frame

def packetLength : Nat := 256

def length (c : Coverage) (n : Nat) : Nat :=
  Tag.width + n + if c.hasChecksum n then Checksum.width else 0

def trailer (c : Coverage) (t : Tag) (payload : List UInt8) : List UInt8 :=
  if c.hasChecksum payload.length then octets16 (c.checksum t payload) else []

/-- The layout of a frame: tag, payload and, where one is due, checksum. -/
def encode (c : Coverage) (t : Tag) (payload : List UInt8) : List UInt8 :=
  t.toOctets ++ payload ++ trailer c t payload

/-- Complete a frame in place: the payload of `n` octets stands behind the
room for the tag already. -/
def sealInto (c : Coverage) (t : Tag) (n : Nat) (out : List UInt8) :
    Except FrameError Nat × List UInt8 :=
  if out.length < length c n then (.error .bufferTooSmall, out)
  else
    let tagged := overwriteAt out 0 t.toOctets
    let payload := (tagged.drop Tag.width).take n
    (.ok (length c n), overwriteAt tagged (Tag.width + n) (trailer c t payload))

/-- Write a frame to the front of a buffer. A buffer that cannot hold it is
left as it was. -/
def encodeInto (c : Coverage) (t : Tag) (payload out : List UInt8) :
    Except FrameError Nat × List UInt8 :=
  if out.length < length c payload.length then (.error .bufferTooSmall, out)
  else sealInto c t payload.length (overwriteAt out Tag.width payload)

/-- Whether the last two octets of a frame are the checksum `w`. -/
def endsIn (w : UInt16) : List UInt8 → Bool
  | [lo, hi] => word16 lo hi = w
  | _ => false

/-- Split exactly one frame into tag and payload. The length of the payload
follows from the length of the frame. -/
def verify (c : Coverage) (frame : List UInt8) : Except FrameError (Tag × List UInt8) :=
  match Tag.ofOctets? frame with
  | none => .error .truncated
  | some t =>
    if frame.length = Tag.width ∧ c.hasChecksum 0 = false then .ok (t, [])
    else if frame.length < Tag.width + Checksum.width then .error .truncated
    else
      let body := frame.length - Checksum.width
      let payload := (frame.take body).drop Tag.width
      if endsIn (c.checksum t payload) (frame.drop body) then .ok (t, payload)
      else .error .checksumMismatch

end Frame

end CommandLink
