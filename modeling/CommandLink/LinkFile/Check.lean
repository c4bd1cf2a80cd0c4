import CommandLink.Frame.Basic
import CommandLink.LinkFile.Key
import CommandLink.LinkFile.Reader
import CommandLink.Text.Order
import CommandLink.Value

namespace CommandLink.LinkFile

def maxIdleTimeout : Int := 86400000

def maxBaudrate : Int := 7812500

def inRange (low high : Int) (v : Value) : Bool :=
  v.integer?.any fun i => low ≤ i && i ≤ high

def Key.admits : Key → Value → Bool
  | .idleTimeout, v => inRange 1 maxIdleTimeout v
  | .rxOverwrite, v | .zeroSync, v | .errorReplies, v => v.boolean?.isSome
  | .checksum, v => (v.text?.bind Coverage.ofName?).isSome
  | .baudrate, v => inRange 1 maxBaudrate v
  | .dataBits, v => inRange 7 8 v
  | .parity, v => (v.text?.bind Parity.ofName?).isSome
  | .stopBits, v => inRange 1 2 v

def Key.demand : Key → String
  | .idleTimeout => "1-" ++ toString maxIdleTimeout
  | .rxOverwrite | .zeroSync | .errorReplies => "true or false"
  | .checksum => "\"tag-and-payload\" or \"payload-only\""
  | .baudrate => "1-" ++ toString maxBaudrate
  | .dataBits => "7 or 8"
  | .parity => "\"none\", \"even\" or \"odd\""
  | .stopBits => "1 or 2"

inductive Complaint where
  | badValue (k : Key)
  | unknownKey (h : Heading) (name : List Char)
  deriving DecidableEq

def Complaint.message : Complaint → String
  | .badValue k => "[" ++ k.heading.name ++ "] " ++ k.name ++ " must be " ++ k.demand
  | .unknownKey h name => "[" ++ h.name ++ "] unknown key '" ++ String.ofList name ++ "'"

def Complaint.ofField? (h : Heading) (name : List Char) (v : Value) : Option Complaint :=
  match Key.ofName? h name with
  | none => some (.unknownKey h name)
  | some k => if k.admits v then none else some (.badValue k)

/-- The fields of a section in the order of their names. A section that is
not a table has none. -/
def fieldsOf (document : Value) (h : Heading) : List (List Char × Value) :=
  (((document.field? h.name).bind Value.table?).getD []).mergeSort fun a b => Text.le a.1 b.1

def complaintsUnder (document : Value) (h : Heading) : List Complaint :=
  (fieldsOf document h).filterMap fun (name, v) => Complaint.ofField? h name v

def complaints (document : Value) : List Complaint :=
  complaintsUnder document .link ++ complaintsUnder document .uart

def integerAt (document : Value) (k : Key) (standard : Int) : Int :=
  let section? := document.field? k.heading.name
  ((section?.bind (Value.field? · k.name)).bind Value.integer?).getD standard

/-- A packet that takes as long on the line as the idle timeout. -/
structure SlowLink where
  idle : Int
  baud : Int
  packet : Int
  deriving DecidableEq

def SlowLink.message (w : SlowLink) : String :=
  "idle_timeout_ms (" ++ toString w.idle ++ ") is shorter than one " ++
    toString Frame.packetLength ++ "-byte packet at " ++ toString w.baud ++ " baud (" ++
    toString w.packet ++ " ms)"

/-- Ten bits an octet, in milliseconds, rounded up. -/
def packetTime (baud : Int) : Int := (Frame.packetLength * 10 * 1000 + baud - 1) / baud

def slowLink? (document : Value) : Option SlowLink :=
  let idle := integerAt document .idleTimeout 2000
  let baud := integerAt document .baudrate 115200
  if idle ≤ packetTime baud then some ⟨idle, baud, packetTime baud⟩ else none

end CommandLink.LinkFile
