namespace CommandLink

/-- A queue of at most `n` octets in circular storage. Octets that have left
the queue stay in the storage until they are written over. -/
structure Ring (n : Nat) where
  data : Vector UInt8 n
  len : Nat
  put : Nat
  get : Nat
  overwrite : Bool

namespace Ring

variable {n : Nat}

def empty : Ring n := ⟨Vector.replicate n 0, 0, 0, 0, false⟩

/-- Empty the queue and restore the default policy. The storage is kept. -/
def reset (r : Ring n) : Ring n := ⟨r.data, 0, 0, 0, false⟩

def init (_ : Ring n) : Ring n := empty

def setOverwrite (r : Ring n) (allow : Bool) : Ring n := { r with overwrite := allow }

/-- Octets that can be queued without a loss. -/
def free (r : Ring n) : Nat := n - r.len

def isFull (r : Ring n) : Bool := r.len = n

def isEmpty (r : Ring n) : Bool := r.len = 0

def advance (n i : Nat) : Nat := if i + 1 = n then 0 else i + 1

def store (r : Ring n) (b : UInt8) : Ring n :=
  { r with data := r.data.setIfInBounds r.put b, put := advance n r.put }

/-- Queue one octet. A full queue drops its oldest octet where the policy
allows it and refuses otherwise. -/
def push? (r : Ring n) (b : UInt8) : Option (Ring n) :=
  if r.len = n then
    if r.overwrite then some ({ r with get := advance n r.get }.store b) else none
  else some ({ r with len := r.len + 1 }.store b)

/-- Offer octets one by one; those that are refused are lost. -/
def offer (r : Ring n) : List UInt8 → Nat × Ring n
  | [] => (0, r)
  | b :: bs =>
    match r.push? b with
    | none => r.offer bs
    | some r' => let (stored, r'') := r'.offer bs; (stored + 1, r'')

def pushAll? (r : Ring n) (bs : List UInt8) : Option (Ring n) :=
  if r.overwrite = false ∧ r.free < bs.length then none else some (r.offer bs).2

def peek? (r : Ring n) : Option UInt8 := if r.len = 0 then none else r.data[r.get]?

def pop? (r : Ring n) : Option (UInt8 × Ring n) :=
  r.peek?.map fun b => (b, { r with get := advance n r.get, len := r.len - 1 })

def walk (data : Vector UInt8 n) : Nat → Nat → List UInt8
  | 0, _ => []
  | k + 1, i => data[i]?.toList ++ walk data k (advance n i)

/-- The `k` oldest octets, if as many are queued. -/
def oldest? (r : Ring n) (k : Nat) : Option (List UInt8) :=
  if r.len < k then none else some (walk r.data k r.get)

/-- Drop up to `k` of the oldest octets and say how many. -/
def discard (r : Ring n) (k : Nat) : Nat × Ring n :=
  let count := min k r.len
  (count, { r with get := (r.get + count) % n, len := r.len - count })

/-- Take exactly `k` octets from the queue, if as many are queued. -/
def take? (r : Ring n) (k : Nat) : Option (List UInt8 × Ring n) :=
  (r.oldest? k).map fun bs => (bs, (r.discard k).2)

/-- Copy the oldest octets over a whole buffer. With too few octets queued
the buffer is left as it was. -/
def peekInto (r : Ring n) (out : List UInt8) : Bool × List UInt8 :=
  match r.oldest? out.length with
  | none => (false, out)
  | some bs => (true, bs)

/-- Move the oldest octets over a whole buffer. -/
def popInto (r : Ring n) (out : List UInt8) : Bool × List UInt8 × Ring n :=
  match r.take? out.length with
  | none => (false, out, r)
  | some (bs, r') => (true, bs, r')

/-- The queued octets, oldest first. -/
def toList (r : Ring n) : List UInt8 :=
  (List.range r.len).flatMap fun i => r.data[(r.get + i) % n]?.toList

/-- The bounds that every operation keeps. -/
structure Inv (r : Ring n) : Prop where
  len_le : r.len ≤ n
  put_lt : r.put < n
  get_lt : r.get < n
  put_eq : r.put = (r.get + r.len) % n

def describe (r : Ring n) : String :=
  "RingBuffer \x7b data: [" ++ ", ".intercalate (r.data.toList.map toString) ++ "], len: " ++
    toString r.len ++ ", put: " ++ toString r.put ++ ", get: " ++ toString r.get ++
    ", overwrite: " ++ toString r.overwrite ++ " \x7d"

end Ring

end CommandLink
