namespace CommandLink

/-- A value of a data format. Texts are lists of characters; `other` stands
for the kinds that no setting takes. -/
inductive Value where
  | null
  | integer (i : Int)
  | boolean (b : Bool)
  | text (cs : List Char)
  | list (vs : List Value)
  | table (fields : List (List Char × Value))
  | other
  deriving Inhabited

namespace Value

def integer? : Value → Option Int
  | .integer i => some i
  | _ => none

def boolean? : Value → Option Bool
  | .boolean b => some b
  | _ => none

def text? : Value → Option (List Char)
  | .text cs => some cs
  | _ => none

def table? : Value → Option (List (List Char × Value))
  | .table fields => some fields
  | _ => none

/-- A natural number below `2^32`. -/
def word? (v : Value) : Option UInt32 :=
  match v with
  | .integer (.ofNat k) => if k < UInt32.size then some (UInt32.ofNat k) else none
  | _ => none

def field? (v : Value) (name : String) : Option Value :=
  v.table?.bind fun fields => fields.lookup name.toList

end Value

end CommandLink
