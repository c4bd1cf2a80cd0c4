import CommandLink.LinkFile.Document
import CommandLink.Proofs.Toml.Tables
import Mathlib.Data.List.Chain

namespace CommandLink.Toml

open LinkFile Document

def Spaces (cs : List Char) : Prop := ∀ c ∈ cs, isSpace c = true

inductive LineEnd : List Char → Prop
  | lf : LineEnd ['\n']
  | crlf : LineEnd ['\r', '\n']

/-- Spaces, comments and line ends between the elements of an array. -/
inductive Gap : List Char → Prop
  | spaces {cs : List Char} : Spaces cs → Gap cs
  | line {cs e rest : List Char} : isVoid cs = true → LineEnd e → Gap rest → Gap (cs ++ e ++ rest)

def digit? (c : Char) : Option Nat :=
  if c.isDigit then some (c.toNat - '0'.toNat)
  else if 'a' ≤ c ∧ c ≤ 'f' then some (c.toNat - 'a'.toNat + 10)
  else if 'A' ≤ c ∧ c ≤ 'F' then some (c.toNat - 'A'.toNat + 10)
  else none

def numeral? (base : Nat) (cs : List Char) : Option Nat :=
  cs.foldlM (fun n c => ((digit? c).filter (· < base)).map (base * n + ·)) 0

/-- What stands behind a backslash, and the character that is meant. -/
inductive Escape : List Char → Char → Prop
  | short {e c : Char} (h : (e, c) ∈ [('b', '\x08'), ('t', '\t'), ('n', '\n'), ('f', '\x0c'),
      ('r', '\r'), ('"', '"'), ('\\', '\\')]) : Escape [e] c
  | code {e : Char} {width : Nat} {cs : List Char} {n : Nat}
      (h : (e, width) ∈ [('u', 4), ('U', 8)]) (hwidth : cs.length = width)
      (hn : numeral? 16 cs = some n) (hvalid : n.isValidChar) : Escape (e :: cs) (Char.ofNat n)

/-- The inside of a string on one line. Only double quotes know escapes. -/
inductive Short (quote : Char) : List Char → List Char → Prop
  | done : Short quote [] []
  | plain {c : Char} {cs t : List Char} (hcontrol : isControl c = false) (hquote : c ≠ quote)
      (hescape : quote = '"' → c ≠ '\\') : Short quote cs t → Short quote (c :: cs) (c :: t)
  | escape {e cs t : List Char} {c : Char} (hquote : quote = '"') (h : Escape e c) :
      Short quote cs t → Short quote ('\\' :: e ++ cs) (c :: t)

/-- The inside of a string over many lines, behind some quotes. Three quotes
would end it. How a line end is kept is left open. -/
inductive Long (quote : Char) : Nat → List Char → List Char → Prop
  | done {k : Nat} : Long quote k [] []
  | quote {k : Nat} {cs t : List Char} (hk : k < 2) :
      Long quote (k + 1) cs t → Long quote k (quote :: cs) (quote :: t)
  | plain {k : Nat} {c : Char} {cs t : List Char} (hcontrol : isControl c = false)
      (hquote : c ≠ quote) (hescape : quote = '"' → c ≠ '\\') :
      Long quote 0 cs t → Long quote k (c :: cs) (c :: t)
  | newline {k : Nat} {e e' cs t : List Char} (h : LineEnd e) (h' : LineEnd e') :
      Long quote 0 cs t → Long quote k (e ++ cs) (e' ++ t)
  | escape {k : Nat} {e cs t : List Char} {c : Char} (hquote : quote = '"') (h : Escape e c) :
      Long quote 0 cs t → Long quote k ('\\' :: e ++ cs) (c :: t)
  | joined {k : Nat} {s e rest cs t : List Char} (hquote : quote = '"') (hs : Spaces s)
      (he : LineEnd e) (hrest : ∀ c ∈ rest, isSpace c = true ∨ c = '\r' ∨ c = '\n') :
      Long quote 0 cs t → Long quote k ('\\' :: s ++ e ++ rest ++ cs) t

def Digits (k : Nat) (cs : List Char) : Prop := cs.length = k ∧ ∀ c ∈ cs, c.isDigit = true

inductive Date : List Char → Prop
  | mk {y m d : List Char} (hy : Digits 4 y) (hm : Digits 2 m) (hd : Digits 2 d) :
      Date (y ++ '-' :: m ++ '-' :: d)

inductive Time : List Char → Prop
  | whole {h m s : List Char} (hh : Digits 2 h) (hm : Digits 2 m) (hs : Digits 2 s) :
      Time (h ++ ':' :: m ++ ':' :: s)
  | split {h m s f : List Char} {k : Nat} (hh : Digits 2 h) (hm : Digits 2 m) (hs : Digits 2 s)
      (hf : Digits (k + 1) f) : Time (h ++ ':' :: m ++ ':' :: s ++ '.' :: f)

inductive Zone : List Char → Prop
  | none : Zone []
  | utc {c : Char} (h : c ∈ ['Z', 'z']) : Zone [c]
  | shifted {c : Char} {h m : List Char} (hc : c ∈ ['+', '-']) (hh : Digits 2 h)
      (hm : Digits 2 m) : Zone (c :: h ++ ':' :: m)

/-- Underscores stand between digits only. -/
structure Grouped (cs : List Char) : Prop where
  head : ∃ c, cs.head? = some c ∧ c ≠ '_'
  last : cs.getLast? ≠ some '_'
  between : cs.IsChain fun c d => c ≠ '_' ∨ d ≠ '_'

/-- Values without brackets and quotes. -/
inductive Word : List Char → Value → Prop
  | boolean (b : Bool) : Word (toString b).toList (.boolean b)
  | integer {cs : List Char} {i : Int} (h : Document.integer? cs = some i) : Word cs (.integer i)
  | based {mark : Char} {base n : Nat} {cs : List Char}
      (h : (mark, base) ∈ [('x', 16), ('o', 8), ('b', 2)]) (hcs : Grouped cs)
      (hn : numeral? base (cs.filter (· ≠ '_')) = some n) (hbound : (n : Int) < integerBound) :
      Word ('0' :: mark :: cs) (.integer n)
  | float {cs : List Char} (h : (decimal? (splitSign cs).2).isSome = true) : Word cs .other
  | special {cs : List Char} (h : (splitSign cs).2 ∈ ["inf".toList, "nan".toList]) : Word cs .other
  | date {cs : List Char} (h : Date cs) : Word cs .other
  | time {cs : List Char} (h : Time cs) : Word cs .other
  | dateTime {c : Char} {d t z : List Char} (hd : Date d) (hc : c ∈ ['T', 't', ' ']) (ht : Time t)
      (hz : Zone z) : Word (d ++ c :: t ++ z) .other

inductive SimpleKey : List Char → List Char → Prop
  | bare {cs : List Char} (hne : cs ≠ []) (h : ∀ c ∈ cs, isBare c = true) : SimpleKey cs cs
  | quoted {quote : Char} {cs t : List Char} (hquote : quote ∈ ['"', '\'']) (h : Short quote cs t) :
      SimpleKey (quote :: cs ++ [quote]) t

inductive FullKey : List Char → Path → Prop
  | simple {cs n : List Char} (h : SimpleKey cs n) : FullKey cs ⟨[], n⟩
  | dotted {cs s s' rest n : List Char} {p : Path} (h : SimpleKey cs n) (hs : Spaces s)
      (hs' : Spaces s') (hrest : FullKey rest p) :
      FullKey (cs ++ s ++ '.' :: s' ++ rest) ⟨n :: p.parents, p.name⟩

mutual

/-- The text of a value. -/
inductive Val : List Char → Value → Prop
  | short {quote : Char} {cs t : List Char} (hquote : quote ∈ ['"', '\''])
      (h : Short quote cs t) : Val (quote :: cs ++ [quote]) (.text t)
  | long {quote : Char} {first cs t : List Char} (hquote : quote ∈ ['"', '\''])
      (hfirst : LineEnd first ∨ first = [] ∧ cs.head? ∉ [some '\r', some '\n'])
      (h : Long quote 0 cs t) :
      Val (quote :: quote :: quote :: first ++ cs ++ [quote, quote, quote]) (.text t)
  | word {cs : List Char} {v : Value} (h : Word cs v) : Val cs v
  | empty {g : List Char} (hg : Gap g) : Val ('[' :: g ++ [']']) (.list [])
  | list {cs g : List Char} {vs : List Value} (h : Elements cs vs) (hg : Gap g) :
      Val ('[' :: cs ++ g ++ [']']) (.list vs)
  | emptyTable {s : List Char} (hs : Spaces s) : Val ('{' :: s ++ ['}']) (.table [])
  | table {cs : List Char} {ps : List (Path × Value)} {f : Fields} {v : Value} (h : Pairs cs ps)
      (hf : ps.foldlM (fun f (p, v) => assign p v f) Fields.empty = some f)
      (hv : Shows (.table .dotted f) v) : Val ('{' :: cs ++ ['}']) v

inductive Elements : List Char → List Value → Prop
  | last {g cs g' comma : List Char} {v : Value} (hg : Gap g) (h : Val cs v) (hg' : Gap g')
      (hcomma : comma ∈ [[], [',']]) : Elements (g ++ cs ++ g' ++ comma) [v]
  | more {g cs g' rest : List Char} {v : Value} {vs : List Value} (hg : Gap g) (h : Val cs v)
      (hg' : Gap g') (hrest : Elements rest vs) :
      Elements (g ++ cs ++ g' ++ ',' :: rest) (v :: vs)

inductive Pair : List Char → Path → Value → Prop
  | mk {k s s' cs : List Char} {p : Path} {v : Value} (hk : FullKey k p) (hs : Spaces s)
      (hs' : Spaces s') (h : Val cs v) : Pair (k ++ s ++ '=' :: s' ++ cs) p v

inductive Pairs : List Char → List (Path × Value) → Prop
  | last {s cs s' : List Char} {p : Path} {v : Value} (hs : Spaces s) (h : Pair cs p v)
      (hs' : Spaces s') : Pairs (s ++ cs ++ s') [(p, v)]
  | more {s cs s' rest : List Char} {p : Path} {v : Value} {ps : List (Path × Value)}
      (hs : Spaces s) (h : Pair cs p v) (hs' : Spaces s') (hrest : Pairs rest ps) :
      Pairs (s ++ cs ++ s' ++ ',' :: rest) ((p, v) :: ps)

end

/-- One expression, with the spaces around it and a comment behind it. -/
inductive Spells : List Char → Expression → Prop
  | blank {r : List Char} (hr : isVoid r = true) : Spells r .blank
  | assign {s cs r : List Char} {p : Path} {v : Value} (hs : Spaces s) (h : Pair cs p v)
      (hr : isVoid r = true) : Spells (s ++ cs ++ r) (.assign p v)
  | table {s s' k s'' r : List Char} {p : Path} (hs : Spaces s) (hs' : Spaces s') (hk : FullKey k p)
      (hs'' : Spaces s'') (hr : isVoid r = true) :
      Spells (s ++ '[' :: s' ++ k ++ s'' ++ ']' :: r) (.table p)
  | element {s s' k s'' r : List Char} {p : Path} (hs : Spaces s) (hs' : Spaces s')
      (hk : FullKey k p) (hs'' : Spaces s'') (hr : isVoid r = true) :
      Spells (s ++ '[' :: '[' :: s' ++ k ++ s'' ++ ']' :: ']' :: r) (.element p)

/-- Expressions with a line end between any two. -/
inductive Lists : List Char → List Expression → Prop
  | last {cs : List Char} {x : Expression} (h : Spells cs x) : Lists cs [x]
  | more {cs e rest : List Char} {x : Expression} {xs : List Expression} (h : Spells cs x)
      (he : LineEnd e) (hrest : Lists rest xs) : Lists (cs ++ e ++ rest) (x :: xs)

/-- What a text means in TOML 1.0. A byte order mark before it does not matter. -/
def Denotes (text : List Char) (v : Value) : Prop :=
  ∃ xs s, Lists (dropMark text) xs ∧ State.run {} xs = some s ∧ Shows (.table .opened s.root) v

end CommandLink.Toml
