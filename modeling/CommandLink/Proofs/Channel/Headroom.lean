import CommandLink.Proofs.Channel.Handshake

namespace CommandLink

theorem Counters.rxDropped_record (c : Counters) (o : Outcome) :
    (c.record o).rxDropped = c.rxDropped := by
  have hinput : (c.recordInput o).rxDropped = c.rxDropped := by
    cases o with
    | discarded d r => cases d <;> rfl
    | incomplete | processed | synced => rfl
  rw [record, recordReply]
  split <;> exact hinput

namespace Channel

variable {C : Type} {n s : Nat}

/-- The loop over single steps. It goes on for as long as they make progress. -/
inductive Drives : Channel C n s → C → List Outcome → Channel C n s → C → Prop
  | stop {ch : Channel C n s} {ctx : C} (h : (ch.process ctx).1.progressed = false) :
    Drives ch ctx [] (ch.process ctx).2.1 (ch.process ctx).2.2
  | again {ch ch' : Channel C n s} {ctx ctx' : C} {outcomes : List Outcome}
    (h : (ch.process ctx).1.progressed = true)
    (rest : Drives (ch.process ctx).2.1 (ch.process ctx).2.2 outcomes ch' ctx') :
    Drives ch ctx ((ch.process ctx).1 :: outcomes) ch' ctx'

/-- Every step of the loop takes at least one octet. -/
theorem Drives.length_le {ch ch' : Channel C n s} {ctx ctx' : C} {outcomes : List Outcome}
    (h : Drives ch ctx outcomes ch' ctx') : outcomes.length + ch'.rx.len ≤ ch.rx.len := by
  induction h with
  | stop h => rw [process_stuck h, List.length_nil, Nat.zero_add]
  | again h rest ih =>
    have hlt := process_rx_lt h
    rw [List.length_cons]
    omega

/-- An octet that arrives is stored behind what was there, and nothing is dropped. -/
structure Stored (ch : Channel C n s) (timers : TimerQueue s) (b : UInt8) (now : UInt32) :
    Prop where
  accepted : (ch.receiveByte timers b now).1 = true
  behind : (ch.receiveByte timers b now).2.1.rx.toList = ch.rx.toList ++ [b]
  dropped : (ch.receiveByte timers b now).2.1.counters.rxDropped = ch.counters.rxDropped

theorem stored_of_room {ch : Channel C n s} (h : ch.Inv) (timers : TimerQueue s) (b : UInt8)
    (now : UInt32) (hroom : ch.rx.len + [b].length ≤ n) : Stored ch timers b now := by
  have hone := Session.stored_of_fits h timers now hroom
  have hlen := Ring.len_offer_of_fits h.rx hroom
  have hnone : [b].length - (ch.rx.offer [b]).1 +
      (ch.rx.len + (ch.rx.offer [b]).1 - (ch.rx.offer [b]).2.len) = 0 := by
    have hstored : (ch.rx.offer [b]).1 = [b].length := hone
    omega
  have hcounters : (ch.receive timers [b] now).2.1.counters = ch.counters.recordRxDropped 0 :=
    congrArg ch.counters.recordRxDropped hnone
  have hbyte : ch.receiveByte timers b now =
      (decide ((ch.receive timers [b] now).1 = 1), (ch.receive timers [b] now).2) := rfl
  constructor
  · rw [hbyte, hone]
    rfl
  · rw [hbyte]
    exact Session.receive_lossless h hlen
  · rw [hbyte, hcounters]
    exact add_zero _

end Channel

namespace Session

variable {C : Type} {n s : Nat} {ses : Session C n s}

open Dispatch

theorem Resting.len_lt_size (h : ses.Resting) : ses.channel.rx.len < n :=
  Nat.lt_of_lt_of_le h.len_lt h.inv.fits

theorem rxDropped_processAll (ses : Session C n s) :
    ses.processAll.channel.counters.rxDropped = ses.channel.counters.rxDropped :=
  processAll_induct
    (P := fun ses' => ses'.channel.counters.rxDropped = ses.channel.counters.rxDropped)
    (fun _ hs => (Counters.rxDropped_record _ _).trans hs) rfl

/-- Every octet of a stream finds room, and the steps behind it leave some for the
next one. -/
def Stores (ses : Session C n s) : List (TimerQueue s × UInt8 × UInt32) → Prop
  | [] => True
  | (timers, b, now) :: arrivals =>
    ses.channel.Stored timers b now ∧
      (ses.apply timers (.receiveByte b now)).1.processAll.Stores arrivals

/-- A stream of any length gets in without loss. -/
structure Admits (ses : Session C n s) (arrivals : List (TimerQueue s × UInt8 × UInt32)) :
    Prop where
  stores : ses.Stores arrivals
  dropped : (ses.run (bytewise arrivals)).channel.counters.rxDropped =
    ses.channel.counters.rxDropped

theorem Resting.admits (h : ses.Resting) (arrivals : List (TimerQueue s × UInt8 × UInt32)) :
    ses.Admits arrivals := by
  induction arrivals generalizing ses with
  | nil => exact ⟨trivial, rfl⟩
  | cons a arrivals ih =>
    obtain ⟨timers, b, now⟩ := a
    have hstored := Channel.stored_of_room h.inv timers b now h.len_lt_size
    have hinv := (apply_kept h.inv timers (.receiveByte b now)).inv
    have hrest := ih (resting_processAll hinv)
    refine ⟨⟨hstored, hrest.stores⟩, hrest.dropped.trans ?_⟩
    rw [rxDropped_processAll]
    exact hstored.dropped

end Session

end CommandLink
