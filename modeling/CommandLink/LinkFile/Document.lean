import CommandLink.Text.Decimal
import CommandLink.Text.Lines
import CommandLink.Text.Number
import CommandLink.Value

namespace CommandLink.LinkFile

/-- Tables of plain values: headers in brackets, one assignment a line, and
comments behind a number sign. -/
structure Document where
  root : List (List Char × Value) := []
  /-- The newest table first. -/
  tables : List (List Char × List (List Char × Value)) := []

namespace Document

def isSpace (c : Char) : Bool := c = ' ' || c = '\t'

def skip (cs : List Char) : List Char := cs.dropWhile isSpace

def isBare (c : Char) : Bool := c.isAlphanum || c = '_' || c = '-'

def isControl (c : Char) : Bool := (c < ' ' && c ≠ '\t') || c = '\x7f'

/-- Nothing but spaces and a comment. -/
def isVoid (cs : List Char) : Bool :=
  match skip cs with
  | [] => true
  | '#' :: comment => !comment.any isControl
  | _ => false

/-- The digits of a group with single underscores between them. -/
def digits? (cs : List Char) : Option (List Char) :=
  let rec spaced : Bool → List Char → Bool
    | last, [] => last
    | last, '_' :: rest => last && spaced false rest
    | _, c :: rest => c.isDigit && spaced true rest
  if spaced false cs then some (cs.filter (· ≠ '_')) else none

/-- Grouped digits without a leading zero. -/
def natural? (cs : List Char) : Option (List Char) :=
  match cs with
  | '0' :: _ :: _ => none
  | _ => digits? cs

def splitSign : List Char → Bool × List Char
  | '-' :: cs => (true, cs)
  | '+' :: cs => (false, cs)
  | cs => (false, cs)

def signed (negative : Bool) (digits : List Char) : Int :=
  if negative then -Text.digitsValue digits else Text.digitsValue digits

/-- Integers have 64 bits. -/
def integerBound : Int := 0x8000000000000000

def integer? (cs : List Char) : Option Int :=
  let (negative, digits) := splitSign cs
  ((natural? digits).map (signed negative)).filter fun i => -integerBound ≤ i ∧ i < integerBound

/-- What follows the digits of a number. -/
def exponent? : List Char → Option Int
  | [] => some 0
  | e :: cs =>
    let (negative, digits) := splitSign cs
    if e = 'e' ∨ e = 'E' then (digits? digits).map (signed negative) else none

def isDigitPart (c : Char) : Bool := c.isDigit || c = '_'

def decimal? (cs : List Char) : Option Text.Decimal :=
  let (whole, rest) := cs.span isDigitPart
  match rest with
  | [] => none
  | '.' :: rest =>
    let (fraction, rest) := rest.span isDigitPart
    (natural? whole).bind fun w => (digits? fraction).bind fun f => (exponent? rest).map fun e =>
      ⟨Text.digitsValue (w ++ f), e - f.length⟩
  | _ => (natural? whole).bind fun w => (exponent? rest).map fun e => ⟨Text.digitsValue w, e⟩

/-- A double, or a word for one. Numbers too far above zero for a double are
refused; those too far below it are not. -/
def isFloat (cs : List Char) : Bool :=
  let (negative, digits) := splitSign cs
  digits = "inf".toList || digits = "nan".toList ||
    (decimal? digits).any fun d => negative || !d.isInfinite

def word? (cs : List Char) : Option Value :=
  if cs = "true".toList then some (.boolean true)
  else if cs = "false".toList then some (.boolean false)
  else match integer? cs with
    | some i => some (.integer i)
    | none => if isFloat cs then some .other else none

/-- A value and nothing else but a comment. -/
def value? (cs : List Char) : Option Value :=
  match cs with
  | '"' :: inner =>
    match inner.span (· ≠ '"') with
    | (text, _ :: rest) =>
      if text.any (fun c => isControl c || c = '\\') || !isVoid rest then none
      else some (.text text)
    | (_, []) => none
  | _ =>
    let (word, rest) := cs.span fun c => !isSpace c && c ≠ '#'
    if isVoid rest then word? word else none

def addField? (fields : List (List Char × Value)) (name : List Char) (v : Value) :
    Option (List (List Char × Value)) :=
  if (fields.lookup name).isSome then none else some (fields ++ [(name, v)])

def addTable? (d : Document) (name : List Char) : Option Document :=
  if (d.root.lookup name).isSome || (d.tables.lookup name).isSome then none
  else some { d with tables := (name, []) :: d.tables }

def assign? (d : Document) (name : List Char) (v : Value) : Option Document :=
  match d.tables with
  | [] => (addField? d.root name v).map fun root => { d with root }
  | (table, fields) :: older =>
    (addField? fields name v).map fun fields => { d with tables := (table, fields) :: older }

/-- The document after one more line, if the line makes sense there. -/
def addLine? (d : Document) (line : List Char) : Option Document :=
  if isVoid line then some d
  else match skip line with
    | '[' :: header =>
      let (name, rest) := (skip header).span isBare
      match skip rest with
      | ']' :: rest => if name.isEmpty || !isVoid rest then none else d.addTable? name
      | _ => none
    | assignment =>
      let (name, rest) := assignment.span isBare
      match skip rest with
      | '=' :: rest => if name.isEmpty then none else (value? (skip rest)).bind (d.assign? name)
      | _ => none

/-- A byte order mark may open a text. -/
def dropMark : List Char → List Char
  | '\uFEFF' :: cs => cs
  | cs => cs

/-- Lines end in a line feed, with or without a carriage return before it. A
line that makes no sense is the error. -/
def parse (text : List Char) : Except (List Char) Document :=
  (Text.lines (dropMark text)).foldlM (fun d line =>
    match d.addLine? line with
    | none => .error line
    | some d => .ok d) {}

def toValue (d : Document) : Value :=
  .table (d.root ++ d.tables.reverse.map fun (name, fields) => (name, .table fields))

end Document

end CommandLink.LinkFile
