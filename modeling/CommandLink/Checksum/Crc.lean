namespace CommandLink.Checksum

/-- The generator `x^16 + x^15 + x^2 + 1`, reflected. -/
def polynomial : UInt16 := 0xA001

def seed : UInt16 := 0xFFFF

def width : Nat := 2

def shift (c : UInt16) : UInt16 :=
  if c &&& 1 ≠ 0 then (c >>> 1) ^^^ polynomial else c >>> 1

def shifts : Nat → UInt16 → UInt16
  | 0, c => c
  | n + 1, c => shifts n (shift c)

/-- One octet of the register's definition: eight shifts of the register
with the octet added to its low half. -/
def addBits (c : UInt16) (b : UInt8) : UInt16 := shifts 8 (c ^^^ b.toUInt16)

def ofBits (c : UInt16) (bs : List UInt8) : UInt16 := bs.foldl addBits c

/-- Eight shifts of every octet. -/
def table : Vector UInt16 256 := Vector.ofFn fun i => shifts 8 (UInt16.ofNat i)

/-- A register that has taken in some octets already, so that a checksum
can run over pieces that are not contiguous. -/
structure Register where
  value : UInt16 := seed
  deriving DecidableEq

def Register.add (r : Register) (b : UInt8) : Register :=
  ⟨(r.value >>> 8) ^^^ table.get (r.value.toUInt8 ^^^ b).toFin⟩

def Register.addAll (r : Register) (bs : List UInt8) : Register := bs.foldl add r

def ofTable (c : UInt16) (bs : List UInt8) : UInt16 := ((Register.mk c).addAll bs).value

end CommandLink.Checksum
