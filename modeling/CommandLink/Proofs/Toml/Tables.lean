import CommandLink.Value
import Mathlib.Logic.Function.Basic

namespace CommandLink.Toml

/-- How a table came to be: on the way to another one, by its own header, or
by a dotted key. -/
inductive Kind where
  | implied
  | opened
  | dotted
  deriving DecidableEq

/-- What a name stands for. An array of tables has its latest element apart. -/
inductive Item where
  | value (v : Value)
  | table (kind : Kind) (fields : List Char → Option Item)
  | tables (earlier : List (List Char → Option Item)) (latest : List Char → Option Item)

abbrev Fields : Type := List Char → Option Item

namespace Fields

def empty : Fields := fun _ => none

def set (f : Fields) (n : List Char) (i : Item) : Fields := Function.update f n (some i)

@[simp] theorem set_self (f : Fields) (n : List Char) (i : Item) : f.set n i n = some i := by
  rw [set, Function.update_self]

theorem set_of_ne (f : Fields) {n m : List Char} (i : Item) (h : m ≠ n) : f.set n i m = f m := by
  rw [set, Function.update_of_ne h]

end Fields

/-- A name below tables. -/
structure Path where
  parents : List (List Char)
  name : List Char

/-- The ways to go through tables. A header passes any table and the latest of
an array, and a dotted key only tables without a header of their own. -/
inductive Walk where
  | header
  | dotted

namespace Walk

/-- What becomes of a name on the way that is not there yet. -/
def kind : Walk → Kind
  | header => .implied
  | dotted => .dotted

def passes : Walk → Kind → Bool
  | header, _ => true
  | dotted, kind => kind ≠ .opened

end Walk

/-- A change to the table at the end of a walk. -/
def within (w : Walk) : List (List Char) → (Fields → Option Fields) → Fields → Option Fields
  | [], change, f => change f
  | n :: ns, change, f =>
    match f n, w with
    | none, _ => (within w ns change Fields.empty).map fun g => f.set n (.table w.kind g)
    | some (.table kind g), _ =>
      if w.passes kind then (within w ns change g).map fun g => f.set n (.table kind g) else none
    | some (.tables earlier latest), .header =>
      (within w ns change latest).map fun g => f.set n (.tables earlier g)
    | some (.tables ..), .dotted => none
    | some (.value _), _ => none

/-- A table has one header. It may have been on the way to another before. -/
def openTable (n : List Char) (f : Fields) : Option Fields :=
  match f n with
  | none => some (f.set n (.table .opened Fields.empty))
  | some (.table .implied g) => some (f.set n (.table .opened g))
  | _ => none

def openElement (n : List Char) (f : Fields) : Option Fields :=
  match f n with
  | none => some (f.set n (.tables [] Fields.empty))
  | some (.tables earlier latest) => some (f.set n (.tables (earlier ++ [latest]) Fields.empty))
  | _ => none

/-- No name is defined twice. -/
def define (n : List Char) (v : Value) (f : Fields) : Option Fields :=
  match f n with
  | none => some (f.set n (.value v))
  | some _ => none

def assign (p : Path) (v : Value) : Fields → Option Fields :=
  within .dotted p.parents (define p.name v)

inductive Expression where
  | blank
  | assign (p : Path) (v : Value)
  | table (p : Path)
  | element (p : Path)

/-- The tables so far, and the way from the root to the one of the latest
header. -/
structure State where
  root : Fields := Fields.empty
  header : List (List Char) := []

namespace State

def step (s : State) : Expression → Option State
  | .blank => some s
  | .assign p v => (within .header s.header (assign p v) s.root).map fun root => { s with root }
  | .table p =>
    (within .header p.parents (openTable p.name) s.root).map fun root =>
      ⟨root, p.parents ++ [p.name]⟩
  | .element p =>
    (within .header p.parents (openElement p.name) s.root).map fun root =>
      ⟨root, p.parents ++ [p.name]⟩

def run (s : State) : List Expression → Option State
  | [] => some s
  | e :: es => (s.step e).bind fun s => s.run es

end State

/-- A value with the fields of a table, in whatever order. -/
inductive Shows : Item → Value → Prop
  | value (v : Value) : Shows (.value v) v
  | table {kind : Kind} {f : Fields} {fields : List (List Char × Value)} (shown : List Char → Value)
      (hnone : ∀ n, f n = none → fields.lookup n = none)
      (hsome : ∀ n i, f n = some i → fields.lookup n = some (shown n))
      (hshown : ∀ n i, f n = some i → Shows i (shown n)) : Shows (.table kind f) (.table fields)
  | tables {earlier : List Fields} {latest : Fields} {vs : List Value}
      (hlength : vs.length = (earlier ++ [latest]).length)
      (hshown : ∀ (k : Nat) (f : Fields) (v : Value), (earlier ++ [latest])[k]? = some f →
        vs[k]? = some v → Shows (.table .opened f) v) : Shows (.tables earlier latest) (.list vs)

end CommandLink.Toml
