import CommandLink.Settings.Basic
import CommandLink.Value

namespace CommandLink

/-- A coverage goes by its name, alone or as the only field of a table. -/
def Coverage.ofValue? : Value → Option Coverage
  | .text name => ofName? name
  | .table [(name, .null)] => ofName? name
  | _ => none

namespace Settings

/-- An absent field keeps its default; a present one has to be of its kind. -/
def orDefault {α : Type} (read : Value → Option α) (standard : α) : Option Value → Option α
  | none => some standard
  | some v => read v

def ofFields? (idle overwrite zero replies coverage : Option Value) : Option Settings := do
  let standard : Settings := {}
  let idleTimeout ← orDefault Value.word? standard.idleTimeout idle
  let rxOverwrite ← orDefault Value.boolean? standard.rxOverwrite overwrite
  let zeroSync ← orDefault Value.boolean? standard.zeroSync zero
  let errorReplies ← orDefault Value.boolean? standard.errorReplies replies
  let coverage ← orDefault Coverage.ofValue? standard.coverage coverage
  pure { idleTimeout, rxOverwrite, zeroSync, errorReplies, coverage }

/-- Settings from a table, where unknown fields do not matter, or from a list
of values in the order of the fields. -/
def ofValue? : Value → Option Settings
  | .table fields =>
    let field (name : String) := fields.lookup name.toList
    ofFields? (field "idle_timeout_ms") (field "rx_overwrite") (field "zero_sync")
      (field "error_replies") (field "checksum")
  | .list vs =>
    if vs.length ≤ 5 then ofFields? vs[0]? vs[1]? vs[2]? vs[3]? vs[4]? else none
  | _ => none

end Settings

end CommandLink
