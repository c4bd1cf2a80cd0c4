import CommandLink.Frame.Basic

namespace CommandLink

inductive Reply where
  | respond
  | reject (e : ErrorReply)
  | silent
  deriving DecidableEq

/-- What a handler leaves: its reply, the application's state and the
response buffer. -/
structure Handled (C : Type) (n : Nat) where
  reply : Reply
  context : C
  response : Vector UInt8 n

/-- A handler gets the application's state, the request's payload and a
zeroed response buffer. -/
structure Command (C : Type) where
  tag : Tag
  requestLen : Nat
  responseLen : Nat
  handler : C → List UInt8 → Vector UInt8 responseLen → Handled C responseLen

namespace Command

variable {C : Type}

def requestFrameLen (c : Coverage) (k : Command C) : Nat := Frame.length c k.requestLen

def responseFrameLen (c : Coverage) (k : Command C) : Nat := Frame.length c k.responseLen

def describe (k : Command C) : String :=
  "Command \x7b tag: " ++ k.tag.describe ++ ", request_len: " ++ toString k.requestLen ++
    ", response_len: " ++ toString k.responseLen ++ " \x7d"

end Command

inductive TableError where
  | duplicateTag (t : Tag)
  | reservedTag (t : Tag)
  | zeroLeadingTag (t : Tag)
  deriving DecidableEq

def TableError.message : TableError → String
  | .duplicateTag t => "DuplicateTag(" ++ t.describe ++ ")"
  | .reservedTag t => "ReservedTag(" ++ t.describe ++ ")"
  | .zeroLeadingTag t => "ZeroLeadingTag(" ++ t.describe ++ ")"

/-- What is wrong with a tag that follows the tags `earlier`. A leading zero
is kept free for the synchronisation byte. -/
def TableError.ofTag? (earlier : List Tag) (t : Tag) : Option TableError :=
  if t.first = 0 then some (.zeroLeadingTag t)
  else if t.isReserved then some (.reservedTag t)
  else if t ∈ earlier then some (.duplicateTag t)
  else none

def TableError.ofTags? : List Tag → List Tag → Option TableError
  | _, [] => none
  | earlier, t :: ts =>
    match ofTag? earlier t with
    | some e => some e
    | none => ofTags? (t :: earlier) ts

/-- Commands whose tags have no fault. -/
structure Table (C : Type) where
  commands : List (Command C)
  sound : TableError.ofTags? [] (commands.map Command.tag) = none

namespace Table

variable {C : Type}

def ofCommands (ks : List (Command C)) : Except TableError (Table C) :=
  match h : TableError.ofTags? [] (ks.map Command.tag) with
  | some e => .error e
  | none => .ok ⟨ks, h⟩

def lookup? (table : Table C) (t : Tag) : Option (Command C) :=
  table.commands.find? fun k => k.tag = t

/-- The longest frame that a command can ask for or answer with; an error
reply is a frame without payload. -/
def maxFrameLen (c : Coverage) (table : Table C) : Nat :=
  table.commands.foldl (fun m k => max m (max (k.requestFrameLen c) (k.responseFrameLen c)))
    (Frame.length c 0)

def describe (table : Table C) : String :=
  "[" ++ ", ".intercalate (table.commands.map Command.describe) ++ "]"

end Table

end CommandLink
