namespace CommandLink

inductive DataBits where
  | seven
  | eight
  | nine
  deriving DecidableEq

inductive Parity where
  | none
  | even
  | odd
  deriving DecidableEq

inductive StopBits where
  | one
  | two
  deriving DecidableEq

structure LineFormat where
  baudrate : UInt32 := 115200
  dataBits : DataBits := .eight
  parity : Parity := .none
  stopBits : StopBits := .one
  deriving DecidableEq

def DataBits.count : DataBits → Nat
  | .seven => 7
  | .eight => 8
  | .nine => 9

def Parity.count : Parity → Nat
  | .none => 0
  | .even | .odd => 1

def StopBits.count : StopBits → Nat
  | .one => 1
  | .two => 2

namespace LineFormat

/-- Start bit, data, parity and stop bits. -/
def bitsPerByte (line : LineFormat) : Nat :=
  1 + line.dataBits.count + line.parity.count + line.stopBits.count

/-- Milliseconds that `n` octets take on the line, rounded up. -/
def transferTime (line : LineFormat) (n : Nat) : UInt32 :=
  let baud := max line.baudrate.toNat 1
  UInt32.ofNat ((n * line.bitsPerByte * 1000 + baud - 1) / baud)

end LineFormat

end CommandLink
