import CommandLink.Checksum.Crc
import CommandLink.Frame.Tag

namespace CommandLink

inductive Coverage where
  | tagAndPayload
  | payloadOnly
  deriving DecidableEq

namespace Coverage

def name : Coverage → String
  | .tagAndPayload => "tag-and-payload"
  | .payloadOnly => "payload-only"

def ofName? (s : List Char) : Option Coverage :=
  if s = tagAndPayload.name.toList then some .tagAndPayload
  else if s = payloadOnly.name.toList then some .payloadOnly
  else none

/-- With nothing to cover there is no checksum. -/
def hasChecksum : Coverage → Nat → Bool
  | .tagAndPayload, _ => true
  | .payloadOnly, n => 0 < n

def checksum : Coverage → Tag → List UInt8 → UInt16
  | .tagAndPayload, t, payload =>
    ((({} : Checksum.Register).addAll t.toOctets).addAll payload).value
  | .payloadOnly, _, payload => (({} : Checksum.Register).addAll payload).value

end Coverage

end CommandLink
