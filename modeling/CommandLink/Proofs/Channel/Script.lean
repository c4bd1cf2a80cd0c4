import CommandLink.Channel.Basic
import CommandLink.Proofs.Ring.Contents

namespace CommandLink

/-- What a sink does when it is called by a pump of a channel. It may pump the
same channel, into any sinks and any number of times, before it answers; `σ` is
the state that it keeps. -/
inductive Script (σ : Type) : Type → Type 1
  | answer {α : Type} (a : α) (st : σ) : Script σ α
  | pump {α ε : Type} (canWrite : σ → Script σ Bool) (write : UInt8 → σ → Script σ (Except ε Unit))
    (st : σ) (resume : Except ε Nat → σ → Script σ α) : Script σ α

namespace Script

variable {C σ ε α : Type} {n s : Nat}

/-- A sink over the lent channel, the octets on the wire and a state of its own.
An octet is on the wire as soon as the sink has taken it. -/
def wired {γ : Type} (canWrite : σ → γ × List UInt8 × σ → Bool × γ × List UInt8 × σ)
    (write : UInt8 → σ → γ × List UInt8 × σ → Except ε Unit × γ × List UInt8 × σ) :
    Sink (γ × List UInt8 × σ) ε where
  canWrite w := canWrite w.2.2 w
  write b w :=
    match write b w.2.2 w with
    | (.ok (), ch, wire, st) => (.ok (), ch, wire ++ [b], st)
    | (.error e, w) => (.error e, w)

def run : {α : Type} → Script σ α → Channel C n s × List UInt8 × σ →
    α × Channel C n s × List UInt8 × σ
  | _, .answer a st, (ch, wire, _) => (a, ch, wire, st)
  | _, .pump canWrite write st resume, (ch, wire, _) =>
    let (moved, ch', wire', st') :=
      ch.pump (wired (fun st => (canWrite st).run) (fun b st => (write b st).run)) (wire, st)
    (resume moved st').run (ch', wire', st')

/-- A lent channel has nothing to give: pumps of it end at once. -/
theorem run_lent (p : Script σ α) {ch : Channel C n s} (hd : ch.draining = true)
    (wire : List UInt8) (st : σ) :
    ∃ a st', p.run (ch, wire, st) = (a, ch, wire, st') := by
  induction p generalizing st with
  | answer a st' => exact ⟨a, st', rfl⟩
  | pump canWrite write st' resume _ _ ih =>
    obtain ⟨a, st'', hr⟩ := ih (.ok 0) st' st'
    refine ⟨a, st'', ?_⟩
    rw [run, Channel.pump, if_pos hd]
    exact hr

/-- What a pump leaves: the octets put on the wire are those that left the
output, oldest first. -/
structure Moved (tx : Ring n) (wire : List UInt8) (moved : Except ε Nat) (tx' : Ring n)
    (wire' sent : List UInt8) : Prop where
  wire_eq : wire' = wire ++ sent
  list : tx.toList = sent ++ tx'.toList
  inv : tx'.Inv
  kept : tx'.overwrite = tx.overwrite
  count : ∀ k, moved = .ok k → sent.length = k

/-- Nothing moves where the sink has no room, the output has nothing, or the
sink refuses the octet that it is given. -/
theorem Moved.stay {tx : Ring n} (h : tx.Inv) (wire : List UInt8) {moved : Except ε Nat}
    (hmoved : moved = .ok 0 ∨ ∃ e, moved = .error e) : Moved tx wire moved tx wire [] where
  wire_eq := (List.append_nil wire).symm
  list := rfl
  inv := h
  kept := rfl
  count k hk := by
    obtain rfl | ⟨e, rfl⟩ := hmoved
    · exact Except.ok.inj hk
    · cases hk

theorem Moved.again {tx tx' : Ring n} {wire wire' sent : List UInt8} {moved : Except ε Nat}
    {b : UInt8} (h : tx.Inv) (hb : tx.peek? = some b)
    (hm : Moved (tx.discard 1).2 (wire ++ [b]) moved tx' wire' sent) :
    Moved tx wire (moved.map (· + 1)) tx' wire' (b :: sent) where
  wire_eq := by rw [hm.wire_eq, List.append_assoc, List.singleton_append]
  list := by
    rw [Ring.peek?_eq h] at hb
    rw [List.cons_append, ← hm.list, Ring.toList_discard h, List.drop_one]
    exact (List.cons_head?_tail hb).symm
  inv := hm.inv
  kept := hm.kept
  count k hk := by
    cases moved with
    | error e => cases hk
    | ok m =>
      cases hk
      rw [List.length_cons, hm.count m rfl]

theorem drain_wired (canWrite : σ → Script σ Bool) (write : UInt8 → σ → Script σ (Except ε Unit))
    (ch : Channel C n s) (hd : ch.draining = true) {tx : Ring n} (h : tx.Inv)
    (wire : List UInt8) (st : σ) :
    ∃ moved tx' wire' st' sent,
      Transmit.drain (wired (fun st => (canWrite st).run) (fun b st => (write b st).run)) tx
        (ch, wire, st) = (moved, tx', ch, wire', st') ∧
      Moved tx wire moved tx' wire' sent := by
  induction hl : tx.len using Nat.strongRecOn generalizing tx wire st with
  | ind l ih =>
    subst hl
    obtain ⟨room, st₁, hroom⟩ := (canWrite st).run_lent hd wire st
    rw [Transmit.drain]
    simp only [wired, hroom]
    cases room with
    | false => exact ⟨_, _, _, _, _, rfl, .stay h wire (.inl rfl)⟩
    | true =>
      simp only
      split
      · exact ⟨_, _, _, _, _, rfl, .stay h wire (.inl rfl)⟩
      · next b hb =>
        obtain ⟨taken, st₂, htaken⟩ := (write b st₁).run_lent hd wire st₁
        rw [htaken]
        cases taken with
        | error e => exact ⟨_, _, _, _, _, rfl, .stay h wire (.inr ⟨e, rfl⟩)⟩
        | ok u =>
          obtain ⟨moved, tx', wire', st', sent, hdrain, hm⟩ :=
            ih _ (Transmit.discard_one_lt hb) (Ring.inv_discard h 1) (wire ++ [b]) st₂ rfl
          rw [wired] at hdrain
          simp only [hdrain]
          exact ⟨_, _, _, _, _, rfl, hm.again h hb⟩

/-- A pump into any sink moves octets from the output to the wire and touches
nothing else of the channel. -/
theorem pump_wired (canWrite : σ → Script σ Bool) (write : UInt8 → σ → Script σ (Except ε Unit))
    {ch : Channel C n s} (hd : ch.draining = false) (h : ch.tx.Inv) (wire : List UInt8) (st : σ) :
    ∃ moved tx' wire' st' sent,
      ch.pump (wired (fun st => (canWrite st).run) (fun b st => (write b st).run)) (wire, st) =
        (moved, { ch with tx := tx' }, wire', st') ∧
      Moved ch.tx wire moved tx' wire' sent := by
  obtain ⟨moved, tx', wire', st', sent, hdrain, hm⟩ :=
    drain_wired canWrite write { ch with draining := true } rfl h wire st
  refine ⟨moved, tx', wire', st', sent, ?_, hm⟩
  rw [Channel.pump, if_neg (by simp [hd]), hdrain]
  cases ch
  simp only at hd
  subst hd
  rfl

end Script

end CommandLink
