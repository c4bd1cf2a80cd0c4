namespace CommandLink

/-- Words on the wire, least significant octet first. -/
def octets16 (w : UInt16) : List UInt8 := [w.toUInt8, (w >>> 8).toUInt8]

def word16 (lo hi : UInt8) : UInt16 := lo.toUInt16 ||| (hi.toUInt16 <<< 8)

def octets32 (w : UInt32) : List UInt8 :=
  [w.toUInt8, (w >>> 8).toUInt8, (w >>> 16).toUInt8, (w >>> 24).toUInt8]

def word32 (a b c d : UInt8) : UInt32 :=
  a.toUInt32 ||| (b.toUInt32 <<< 8) ||| (c.toUInt32 <<< 16) ||| (d.toUInt32 <<< 24)

/-- Put `bs` over the octets of `out` from position `i` on. -/
def overwriteAt (out : List UInt8) (i : Nat) (bs : List UInt8) : List UInt8 :=
  out.take i ++ bs ++ out.drop (i + bs.length)

end CommandLink
