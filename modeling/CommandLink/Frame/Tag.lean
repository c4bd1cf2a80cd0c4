import CommandLink.Octets

namespace CommandLink

/-- The four octets that open a frame and name its command. -/
structure Tag where
  first : UInt8
  second : UInt8
  third : UInt8
  fourth : UInt8
  deriving DecidableEq

namespace Tag

def width : Nat := 4

def ofChars (a b c d : Char) : Tag := ⟨a.toUInt8, b.toUInt8, c.toUInt8, d.toUInt8⟩

def toOctets (t : Tag) : List UInt8 := [t.first, t.second, t.third, t.fourth]

/-- The tag at the head of a byte string. -/
def ofOctets? : List UInt8 → Option Tag
  | a :: b :: c :: d :: _ => some ⟨a, b, c, d⟩
  | _ => none

def code (t : Tag) : UInt32 := word32 t.first t.second t.third t.fourth

def ofCode (w : UInt32) : Tag :=
  ⟨w.toUInt8, (w >>> 8).toUInt8, (w >>> 16).toUInt8, (w >>> 24).toUInt8⟩

/-- Lexicographic in the octets. -/
def le (s t : Tag) : Bool := decide (s.toOctets ≤ t.toOctets)

def sorted (ts : List Tag) : List Tag := (ts.mergeSort le).eraseReps

def isGraphic (b : UInt8) : Bool := 0x21 ≤ b && b ≤ 0x7e

def hexDigits (width n : Nat) : List Char :=
  let digits := Nat.toDigits 16 n
  List.replicate (width - digits.length) '0' ++ digits

/-- A tag of four visible characters shows as these, any other as its code. -/
def describe (t : Tag) : String :=
  if t.toOctets.all isGraphic then
    "Tag(\"" ++ String.ofList (t.toOctets.map fun b => Char.ofNat b.toNat) ++ "\")"
  else
    "Tag(0x" ++ String.ofList (hexDigits 8 t.code.toNat) ++ ")"

end Tag

/-- Reasons that a device gives for not serving a request. -/
inductive ErrorReply where
  | command
  | data
  | value
  deriving DecidableEq

def ErrorReply.tag : ErrorReply → Tag
  | .command => .ofChars 'e' 'r' 'r' 'c'
  | .data => .ofChars 'e' 'r' 'r' 'd'
  | .value => .ofChars 'e' 'r' 'r' 'v'

def Tag.isReserved (t : Tag) : Bool :=
  t = ErrorReply.command.tag || t = ErrorReply.data.tag || t = ErrorReply.value.tag

end CommandLink
