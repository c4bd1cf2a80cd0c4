import CommandLink.Channel.Basic
import CommandLink.Proofs.Transmit.Delivery

namespace CommandLink

namespace Channel

variable {C ω ε : Type} {m n s : Nat}

def lend (ch : Channel C n s) : Channel C n s := { ch with draining := true }

def withOutput (tx : Ring n) (ch : Channel C n s) : Channel C n s := { ch with tx }

/-- The end of a loan, in which the output became `tx`. -/
def giveBack (tx : Ring n) (lent : Channel C n s) : Channel C n s :=
  { lent with tx, draining := false }

/-- What is done with a channel on loan without looking at its output. -/
structure Apart {α : Type} (op : Channel C n s × ω → α × Channel C n s × ω) : Prop where
  lent {ch : Channel C n s} (h : ch.draining = true) (w : ω) : (op (ch, w)).2.1.draining = true
  output {ch : Channel C n s} (h : ch.draining = true) (tx : Ring n) (w : ω) :
    op (ch.withOutput tx, w) = (op (ch, w)).map id (Prod.map (withOutput tx) id)

end Channel

/-- A sink that may do anything with the channel that it serves, but for the output. -/
structure Sink.Apart {C ω ε : Type} {n s : Nat} (sink : Sink (Channel C n s × ω) ε) : Prop where
  canWrite : Channel.Apart sink.canWrite
  write (b : UInt8) : Channel.Apart (sink.write b)

/-- A sink that knows nothing of the channel. -/
def Sink.beside {C ω ε : Type} {n s : Nat} (sink : Sink ω ε) : Sink (Channel C n s × ω) ε where
  canWrite w := (sink.canWrite w.2).map id (w.1, ·)
  write b w := (sink.write b w.2).map id (w.1, ·)

theorem Sink.apart_beside {C ω ε : Type} {n s : Nat} (sink : Sink ω ε) :
    (sink.beside : Sink (Channel C n s × ω) ε).Apart where
  canWrite := ⟨fun h _ => h, fun _ _ _ => rfl⟩
  write _ := ⟨fun h _ => h, fun _ _ _ => rfl⟩

namespace Channel

variable {C ω ε : Type} {m n s : Nat}

theorem pump_eq (sink : Sink (Channel C n s × ω) ε) {ch : Channel C n s}
    (hd : ch.draining = false) (w : ω) :
    ch.pump sink w =
      let (moved, tx, lent, w') := Transmit.drain sink ch.tx (ch.lend, w)
      (moved, lent.giveBack tx, w') := by
  rw [pump, if_neg (by simp [hd])]
  rfl

/-- Move one octet of the output, which is on loan for no longer than this. -/
def handOver (sink : Sink (Channel C n s × ω) ε) :
    Channel C n s × ω → Except ε Bool × Channel C n s × ω
  | (ch, w) =>
    if ch.draining then (.ok false, ch, w)
    else
      let (moved, tx, lent, w') := Transmit.handOver sink (ch.tx, ch.lend, w)
      (moved, lent.giveBack tx, w')

/-- A sink that leaves the output alone does the same beside any output. -/
theorem handOver_apart {sink : Sink (Channel C n s × ω) ε} (hs : sink.Apart) (tx out : Ring n)
    {lent : Channel C n s} (hl : lent.draining = true) (w : ω) :
    Transmit.handOver sink (tx, lent.withOutput out, w) =
        (Transmit.handOver sink (tx, lent, w)).map id
          (Prod.map id (Prod.map (withOutput out) id)) ∧
      (Transmit.handOver sink (tx, lent, w)).2.2.1.draining = true := by
  have hpolled := hs.canWrite.lent hl w
  rw [Transmit.handOver, Transmit.handOver, hs.canWrite.output hl]
  rcases hpoll : sink.canWrite (lent, w) with ⟨room, lent₁, w₁⟩
  rw [hpoll] at hpolled
  cases room with
  | false => exact ⟨rfl, hpolled⟩
  | true =>
    cases tx.peek? with
    | none => exact ⟨rfl, hpolled⟩
    | some b =>
      simp only [Prod.map_apply, id_eq]
      have hwritten := (hs.write b).lent hpolled w₁
      rw [(hs.write b).output hpolled]
      rcases hwrite : sink.write b (lent₁, w₁) with ⟨answer, lent₂, w₂⟩
      rw [hwrite] at hwritten
      cases answer with
      | error e => exact ⟨rfl, hwritten⟩
      | ok u => exact ⟨rfl, hwritten⟩

theorem handOver_giveBack {sink : Sink (Channel C n s × ω) ε} (hs : sink.Apart) (tx : Ring n)
    {lent : Channel C n s} (hl : lent.draining = true) (w : ω) :
    handOver sink (lent.giveBack tx, w) =
      let (moved, tx', lent', w') := Transmit.handOver sink (tx, lent, w)
      (moved, lent'.giveBack tx', w') := by
  have hlend : (lent.giveBack tx).lend = lent.withOutput tx := by
    cases lent
    cases hl
    rfl
  rw [handOver, if_neg (by simp [giveBack]), hlend]
  simp only [giveBack, (handOver_apart hs tx tx hl w).1]
  rfl

/-- The loop that borrows the output anew for every octet ends as a pump does, which
borrows it once. -/
theorem loops_pump {sink : Sink (Channel C n s × ω) ε} (hs : sink.Apart) (ch : Channel C n s)
    (w : ω) : Loops (handOver sink) 0 (ch, w) (ch.pump sink w).1 (ch.pump sink w).2 := by
  cases hd : ch.draining with
  | true =>
    rw [pump, if_pos hd]
    exact .stop (by rw [handOver, if_pos hd])
  | false =>
    have hback : ch.lend.giveBack ch.tx = ch := by
      cases ch
      cases hd
      rfl
    let back : Ring n × Channel C n s × ω → Channel C n s × ω :=
      fun st => (st.2.1.giveBack st.1, st.2.2)
    have hround (st : Ring n × Channel C n s × ω) (hl : st.2.1.draining = true) :
        handOver sink (back st) = (Transmit.handOver sink st).map id back ∧
          (Transmit.handOver sink st).2.2.1.draining = true :=
      ⟨handOver_giveBack hs st.1 hl st.2.2, (handOver_apart hs st.1 st.1 hl st.2.2).2⟩
    have hloops := (Transmit.loops_drain sink ch.tx (ch.lend, w)).map hround rfl
    simp only [back, hback] at hloops
    rw [pump_eq sink hd]
    exact hloops

/-- A pump of a channel moves what a pump of the bare queue would, and to the sink they
are the same. -/
theorem pump_drain (sink : Sink (Channel C n s × ω) ε) {ch : Channel C n s}
    (hd : ch.draining = false) (hch : ch.tx.Inv) {tx : Ring m} (h : tx.Inv)
    (hq : ch.tx.toList = tx.toList) (w : ω) :
    let (moved, rest, lent, w') := Transmit.drain sink tx (ch.lend, w)
    ∃ rest', rest'.toList = rest.toList ∧ ch.pump sink w = (moved, lent.giveBack rest', w') := by
  have hsame := Transmit.drain_congr sink h hch hq (ch.lend, w)
  rw [pump_eq sink hd]
  rcases hown : Transmit.drain sink ch.tx (ch.lend, w) with ⟨moved, own, lent, w'⟩
  rcases hbare : Transmit.drain sink tx (ch.lend, w) with ⟨moved', rest, lent', w''⟩
  simp only [hown, hbare, Prod.map_apply, id_eq, Prod.mk.injEq] at hsame
  obtain ⟨rfl, hrest, rfl, rfl⟩ := hsame
  exact ⟨own, hrest, rfl⟩

/-- To a sink that knows nothing of the channel it is as if there were none. -/
theorem pump_beside (sink : Sink ω ε) {ch : Channel C n s} (hd : ch.draining = false) (w : ω) :
    ch.pump sink.beside w =
      let (moved, rest, w') := Transmit.drain sink ch.tx w
      (moved, ch.withOutput rest, w') := by
  have hdrain : Transmit.drain sink.beside ch.tx (ch.lend, w) =
      (Transmit.drain sink ch.tx w).map id (Prod.map id (ch.lend, ·)) :=
    Transmit.drain_map (ch.lend, ·) (fun _ => rfl) (fun _ _ => rfl) ch.tx w
  rw [pump_eq sink.beside hd, hdrain]
  cases ch
  cases hd
  rfl

/-- Pumps deliver in order and lose nothing, whatever the sinks do. The loop over single
octets ends, in what `drain` says; the octets that sinks took over any number of pumps
are followed by those still queued; and the loop of a channel, which borrows the output
for each octet, comes to the same as the loop over a bare queue. -/
theorem pump_in_order {tx : Ring m} (h : tx.Inv) :
    (∀ {ω ε : Type} (sink : Sink ω ε) (w : ω), ∃ moved rest w' calls,
        (∀ result last, Loops (Transmit.handOver sink) 0 (tx, w) result last ↔
          result = moved ∧ last = (rest, w')) ∧
        Transmit.drain sink tx w = (moved, rest, w') ∧
        Transmit.drain sink.logged tx (w, []) = (moved, rest, w', calls) ∧
        Transmit.Delivers tx.toList calls moved rest.toList) ∧
      (∀ attempts : List Transmit.Attempt, tx.toList =
        (Transmit.deliver tx attempts).1 ++ (Transmit.deliver tx attempts).2.toList) ∧
      ∀ {C ω ε : Type} {n s : Nat} {sink : Sink (Channel C n s × ω) ε}, sink.Apart →
        ∀ {ch : Channel C n s}, ch.draining = false → ch.tx.Inv → ch.tx.toList = tx.toList →
          ∀ w, ∃ moved rest rest' lent w',
            (∀ result last, Loops (handOver sink) 0 (ch, w) result last ↔
              result = moved ∧ last = (lent.giveBack rest', w')) ∧
            ch.pump sink w = (moved, lent.giveBack rest', w') ∧
            Transmit.drain sink tx (ch.lend, w) = (moved, rest, lent, w') ∧
            rest'.toList = rest.toList := by
  refine ⟨?_, Transmit.deliver_in_order h, ?_⟩
  · intro ω ε sink w
    obtain ⟨calls, hlogged, hd⟩ := Transmit.drain_delivers sink h w
    refine ⟨_, _, _, calls, ?_, rfl, hlogged, hd⟩
    exact (Transmit.loops_drain sink tx w).iff
  · intro C ω ε n s sink hs ch hd hch hq w
    obtain ⟨rest', hrest, hpump⟩ := pump_drain sink hd hch h hq w
    refine ⟨_, _, rest', _, _, ?_, hpump, rfl, hrest⟩
    have hloops := loops_pump hs ch w
    rw [hpump] at hloops
    exact hloops.iff

/-- A sink whose second write fails, at a bare queue that wraps and at a channel of
another size. -/
theorem pump_in_order_failing :
    let sink : Sink Nat Unit :=
      ⟨fun w => (true, w), fun _ w => (if w = 1 then .error () else .ok (), w + 1)⟩
    let tx : Ring 4 := ⟨#v[9, 0, 7, 8], 3, 1, 2, false⟩
    let ch : Channel Unit 8 1 :=
      { settings := {}, table := ⟨[], rfl⟩, slot := 0, rx := .empty,
        tx := (Ring.empty.offer [7, 8, 9]).2 }
    (∃ rest calls, Transmit.drain sink.logged tx (0, []) = (.error (), rest, 2, calls) ∧
        rest.toList = [8, 9] ∧ Transmit.Delivers [7, 8, 9] calls (.error ()) [8, 9]) ∧
      ∃ rest', ch.pump sink.beside 0 = (.error (), ch.withOutput rest', 2) ∧
        rest'.toList = [8, 9] := by
  intro sink tx ch
  have htx : tx.Inv := ⟨by decide, by decide, by decide, by decide⟩
  have hlist : tx.toList = [7, 8, 9] := by decide
  have hlent : ch.draining = false := rfl
  have hq : ch.tx.toList = tx.toList := by decide
  have hch : ch.tx.Inv := (Ring.inv_offer (Ring.inv_empty (by decide)) _).1
  obtain ⟨hbare, -, hchannel⟩ := pump_in_order htx
  constructor
  · obtain ⟨moved, rest, w', calls, -, hdrain, hlogged, hd⟩ := hbare sink 0
    have hdeal := (Transmit.drain_deal sink htx 0).1
    rw [hdrain, hlist] at hdeal
    obtain ⟨rfl, hrest, rfl⟩ : moved = .error () ∧ rest.toList = [8, 9] ∧ w' = 2 := by
      simpa [Transmit.deal, Except.map, sink] using hdeal
    rw [hlist, hrest] at hd
    exact ⟨rest, calls, hlogged, hrest, hd⟩
  · obtain ⟨moved, rest, rest', lent, w', -, hpump, hdrain, hsame⟩ :=
      hchannel sink.apart_beside hlent hch hq 0
    have hdeal := (Transmit.drain_deal sink.beside htx (ch.lend, 0)).1
    rw [hdrain, hlist] at hdeal
    obtain ⟨rfl, hrest, rfl, rfl⟩ :
        moved = .error () ∧ rest.toList = [8, 9] ∧ lent = ch.lend ∧ w' = 2 := by
      simpa [Transmit.deal, Except.map, Sink.beside, sink] using hdeal
    exact ⟨rest', hpump, hsame.trans hrest⟩

end Channel

end CommandLink
