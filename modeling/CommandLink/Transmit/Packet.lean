import CommandLink.Transmit.Drain

namespace CommandLink

/-- Staging memory for block transports, of at most `p` octets. -/
structure Packet (p : Nat) where
  octets : List UInt8 := []

namespace Packet

variable {p n : Nat}

def len (k : Packet p) : Nat := k.octets.length

def isEmpty (k : Packet p) : Bool := k.octets.isEmpty

def hasRoom (k : Packet p) : Bool := k.len ≠ p

def clear (_ : Packet p) : Packet p := {}

/-- A full packet loses what is written to it. -/
def push (k : Packet p) (b : UInt8) : Packet p :=
  if k.hasRoom then ⟨k.octets ++ [b]⟩ else k

def sink : Sink (Packet p) Empty where
  canWrite k := (k.hasRoom, k)
  write b k := (.ok (), k.push b)

theorem len_drain (tx : Ring n) (k : Packet p) :
    (Transmit.drain sink tx k).2.2.len + (Transmit.drain sink tx k).2.1.len = k.len + tx.len := by
  induction hl : tx.len using Nat.strongRecOn generalizing tx k with
  | ind l ih =>
    subst hl
    unfold Transmit.drain
    cases hr : k.hasRoom with
    | false => simp [sink, hr]
    | true =>
      simp only [sink, hr]
      split
      · rfl
      · next b hb =>
        have hlt := Transmit.discard_one_lt hb
        have hi := ih _ hlt (tx.discard 1).2 (k.push b) rfl
        have hd : (tx.discard 1).2.len + 1 = tx.len := by
          simp only [Ring.discard] at hlt ⊢
          omega
        have hp : (k.push b).len = k.len + 1 := by simp [push, hr, len]
        simp only [sink] at hi
        dsimp only
        omega

/-- Fill packets until one stays empty. -/
def packets (p : Nat) (tx : Ring n) : List (List UInt8) × Ring n :=
  match _h : Transmit.drain sink tx ({} : Packet p) with
  | (_, tx', k) =>
    if _hk : k.isEmpty then ([], tx')
    else
      let (rest, tx'') := packets p tx'
      (k.octets :: rest, tx'')
termination_by tx.len
decreasing_by
  have hl := len_drain tx ({} : Packet p)
  rw [_h] at hl
  have h0 : ({} : Packet p).len = 0 := rfl
  have hk : k.len ≠ 0 := by
    intro h
    simp [isEmpty, List.eq_nil_of_length_eq_zero h] at _hk
  simp only at hl
  omega

end Packet

end CommandLink
