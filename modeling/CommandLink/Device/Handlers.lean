import CommandLink.Command.Table

namespace CommandLink

structure Device where
  value : UInt32 := 0
  requests : UInt32 := 0
  /-- Milliseconds since the start. -/
  uptime : Nat := 0
  deriving DecidableEq

namespace Device

/-- Major, minor, patch and build. -/
def firmwareVersion : List UInt8 := [0, 1, 0, 0]

def maxValue : UInt32 := 1000000

def countRequest (d : Device) : Device := { d with requests := d.requests + 1 }

def seconds (d : Device) : UInt32 := UInt32.ofNat (d.uptime / 1000)

def word? : List UInt8 → Option UInt32
  | a :: b :: c :: d :: _ => some (word32 a b c d)
  | _ => none

/-- Octets as a response, if there are as many as the response takes. -/
def fill? (n : Nat) (bs : List UInt8) : Option (Vector UInt8 n) :=
  if h : bs.length = n then some ⟨bs.toArray, by simpa using h⟩ else none

/-- Respond with octets that fill the response. Others would be an error of
the table, and nothing is sent for them. -/
def respond {n : Nat} (d : Device) (response : Vector UInt8 n) (bs : List UInt8) :
    Handled Device n :=
  match fill? n bs with
  | some filled => ⟨.respond, d, filled⟩
  | none => ⟨.silent, d, response⟩

def getFirmwareVersion : Command Device where
  tag := .ofChars 'g' 'f' 'w' 'v'
  requestLen := 0
  responseLen := 4
  handler d _ response := respond d.countRequest response firmwareVersion

def ping : Command Device where
  tag := .ofChars 'p' 'i' 'n' 'g'
  requestLen := 4
  responseLen := 4
  handler d request response := respond d.countRequest response request

def getUptime : Command Device where
  tag := .ofChars 'g' 'u' 'p' 't'
  requestLen := 0
  responseLen := 4
  handler d _ response := respond d.countRequest response (octets32 d.seconds)

def setValue : Command Device where
  tag := .ofChars 's' 'v' 'a' 'l'
  requestLen := 4
  responseLen := 0
  handler d request response :=
    match word? request with
    | none => ⟨.silent, d.countRequest, response⟩
    | some v =>
      if maxValue < v then ⟨.reject .value, d.countRequest, response⟩
      else ⟨.respond, { d.countRequest with value := v }, response⟩

/-- The value, then the number of requests with this one. -/
def getValue : Command Device where
  tag := .ofChars 'g' 'v' 'a' 'l'
  requestLen := 0
  responseLen := 8
  handler d _ response :=
    let d := d.countRequest
    respond d response (octets32 d.value ++ octets32 d.requests)

def commands : List (Command Device) := [getFirmwareVersion, ping, getUptime, setValue, getValue]

def table : Table Device := ⟨commands, by decide⟩

end Device

end CommandLink
