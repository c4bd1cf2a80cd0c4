import CommandLink.Ring.Basic

namespace CommandLink

/-- A transmitter over a world `ω` that it may change at every call. It says
whether it has room, and then takes one octet or fails. -/
structure Sink (ω ε : Type) where
  canWrite : ω → Bool × ω
  write : UInt8 → ω → Except ε Unit × ω

namespace Transmit

variable {ω ε : Type} {n : Nat}

theorem discard_one_lt {tx : Ring n} {b : UInt8} (h : tx.peek? = some b) :
    (tx.discard 1).2.len < tx.len := by
  have hl : tx.len ≠ 0 := by
    intro h0
    simp [Ring.peek?, h0] at h
  simp only [Ring.discard]
  omega

/-- Move octets while the sink has room. An octet leaves the queue only after
the sink has taken it. -/
def drain (sink : Sink ω ε) (tx : Ring n) (w : ω) : Except ε Nat × Ring n × ω :=
  match sink.canWrite w with
  | (false, w) => (.ok 0, tx, w)
  | (true, w) =>
    match _h : tx.peek? with
    | none => (.ok 0, tx, w)
    | some b =>
      match sink.write b w with
      | (.error e, w) => (.error e, tx, w)
      | (.ok (), w) =>
        let (moved, rest) := drain sink (tx.discard 1).2 w
        (moved.map (· + 1), rest)
termination_by tx.len
decreasing_by exact discard_one_lt _h

end Transmit

end CommandLink
