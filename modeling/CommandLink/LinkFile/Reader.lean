import CommandLink.Line.Format
import CommandLink.LinkFile.Key
import CommandLink.Settings.Basic
import CommandLink.Text.Blank
import CommandLink.Text.Lines
import CommandLink.Text.Number
import CommandLink.Text.Width

namespace CommandLink

def Parity.name : Parity → String
  | .none => "none"
  | .even => "even"
  | .odd => "odd"

def Parity.ofName? (cs : List Char) : Option Parity :=
  [none, even, odd].find? fun p => p.name.toList = cs

def DataBits.ofCount? : Nat → Option DataBits
  | 7 => some .seven
  | 8 => some .eight
  | 9 => some .nine
  | _ => none

def StopBits.ofCount? : Nat → Option StopBits
  | 1 => some .one
  | 2 => some .two
  | _ => none

namespace LinkFile

structure Configuration where
  settings : Settings := {}
  line : LineFormat := {}
  deriving DecidableEq

inductive ReadError where
  | invalidSection
  | invalidValue
  | unknownKey
  deriving DecidableEq

def ReadError.message : ReadError → String
  | .invalidSection => "InvalidSection"
  | .invalidValue => "InvalidValue"
  | .unknownKey => "UnknownKey"

def dropPlus : List Char → List Char
  | '+' :: cs => cs
  | cs => cs

/-- A decimal number below a bound. Underscores do not count; what is left
takes at most sixteen octets, a plus sign included. -/
def readNumber? (bound : Nat) (cs : List Char) : Option Nat :=
  let kept := cs.filter (· ≠ '_')
  if 16 < Text.utf8Len kept then none
  else (Text.decimal? (dropPlus kept)).filter (· < bound)

def readWord? (cs : List Char) : Option UInt32 := (readNumber? UInt32.size cs).map UInt32.ofNat

def readSmall? (cs : List Char) : Option Nat := readNumber? UInt8.size cs

def readBool? (cs : List Char) : Option Bool :=
  if cs = "true".toList then some true
  else if cs = "false".toList then some false
  else none

/-- A text between two quotes, or the whole of it. -/
def unquote (cs : List Char) : List Char :=
  match cs with
  | '"' :: inner => if inner.getLast? = some '"' then inner.dropLast else cs
  | _ => cs

def assign? (c : Configuration) (value : List Char) : Key → Option Configuration
  | .idleTimeout => (readWord? value).map fun v => { c with settings.idleTimeout := v }
  | .rxOverwrite => (readBool? value).map fun v => { c with settings.rxOverwrite := v }
  | .zeroSync => (readBool? value).map fun v => { c with settings.zeroSync := v }
  | .errorReplies => (readBool? value).map fun v => { c with settings.errorReplies := v }
  | .checksum =>
    (Coverage.ofName? (unquote value)).map fun v => { c with settings.coverage := v }
  | .baudrate => (readWord? value).map fun v => { c with line.baudrate := v }
  | .dataBits =>
    ((readSmall? value).bind DataBits.ofCount?).map fun v => { c with line.dataBits := v }
  | .parity => (Parity.ofName? (unquote value)).map fun v => { c with line.parity := v }
  | .stopBits =>
    ((readSmall? value).bind StopBits.ofCount?).map fun v => { c with line.stopBits := v }

/-- A value without its comment. The first number sign starts one, unless an
odd number of quotes stands before it. -/
def dropComment (value : List Char) : List Char :=
  match value.span (· ≠ '#') with
  | (_, []) => value
  | (before, _) => if before.count '"' % 2 = 0 then Text.trim before else value

inductive Entry where
  | blank
  | heading (name : List Char)
  | assignment (key value : List Char)
  | malformed
  deriving DecidableEq

def assignmentOf (line : List Char) : Entry :=
  match line.span (· ≠ '=') with
  | (_, []) => .malformed
  | (before, _ :: after) =>
    let key := Text.trim before
    let value := dropComment (Text.trim after)
    if key.isEmpty || value.isEmpty then .malformed else .assignment key value

def Entry.ofTrimmed (line : List Char) : Entry :=
  match line with
  | [] => .blank
  | '#' :: _ => .blank
  | '[' :: inner =>
    if inner.getLast? = some ']' then .heading (Text.trim inner.dropLast) else assignmentOf line
  | _ => assignmentOf line

def Entry.ofLine (line : List Char) : Entry := ofTrimmed (Text.trim line)

structure State where
  heading : Option Heading := none
  configuration : Configuration := {}
  deriving DecidableEq

def State.next (s : State) : Entry → Except ReadError State
  | .blank => .ok s
  | .heading name =>
    match Heading.ofName? name with
    | none => .error .invalidSection
    | some h => .ok { s with heading := some h }
  | .assignment key value =>
    match s.heading.bind fun h => Key.ofName? h key with
    | none => .error .unknownKey
    | some k =>
      match assign? s.configuration value k with
      | none => .error .invalidValue
      | some c => .ok { s with configuration := c }
  | .malformed => .error .invalidValue

def State.run (s : State) : List Entry → Except ReadError State
  | [] => .ok s
  | e :: es =>
    match s.next e with
    | .error err => .error err
    | .ok s' => s'.run es

/-- The configuration that a link file asks for. Keys that it does not name
keep their defaults, and the last assignment of a key holds. -/
def read (text : List Char) : Except ReadError Configuration :=
  (State.run {} ((Text.lines text).map Entry.ofLine)).map State.configuration

end LinkFile

end CommandLink
