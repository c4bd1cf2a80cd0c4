import CommandLink.Proofs.Channel.Chunks
import CommandLink.Proofs.Channel.Record
import CommandLink.Proofs.Device.Calls
import CommandLink.Proofs.Ring.Loss

namespace CommandLink

variable {C : Type} {n s : Nat}

/-- The command whose tag stands at the head of the input. -/
def Channel.command? (ch : Channel C n s) : Option (Command C) :=
  (Tag.ofOctets? ch.rx.toList).bind ch.table.lookup?

/-- One thing that happens to the input of a channel: octets are offered, of
which some are lost or displace others; a step is made, with the command that it
found at the head; or octets are cleared away. -/
inductive Entry (C : Type) where
  | arrival (offered lost : Nat)
  | step (command? : Option (Command C)) (st : Step C)
  | clearing (count : Nat) (expired : Bool)

namespace Entry

def step? : Entry C → Option (Step C)
  | .step _ st => some st
  | _ => none

def offered : Entry C → Nat
  | .arrival k _ => k
  | _ => 0

def lost : Entry C → Nat
  | .arrival _ k => k
  | _ => 0

def cleared : Entry C → Nat
  | .clearing k _ => k
  | _ => 0

def resets : Entry C → Nat
  | .clearing k true => if k = 0 then 0 else 1
  | _ => 0

def unknown : Entry C → Nat
  | .step _ ⟨.discarded .unknownTag _, _⟩ => 1
  | _ => 0

def mismatched : Entry C → Nat
  | .step _ ⟨.discarded .checksumMismatch _, _⟩ => 1
  | _ => 0

def synced : Entry C → Nat
  | .step _ ⟨.synced _, _⟩ => 1
  | _ => 0

def processed : Entry C → Nat
  | .step _ ⟨.processed _ _, _⟩ => 1
  | _ => 0

/-- Octets of a frame that was served or found damaged. -/
def framed (c : Coverage) : Entry C → Nat
  | .step k? ⟨.processed _ _, _⟩ => (k?.map (Command.requestFrameLen c)).getD 0
  | .step k? ⟨.discarded .checksumMismatch _, _⟩ => (k?.map (Command.requestFrameLen c)).getD 0
  | _ => 0

def called : Entry C → Nat
  | .step _ ⟨_, some _⟩ => 1
  | _ => 0

def unanswered : Entry C → Nat
  | .step _ st => if st.outcome.response? = some .dropped then 1 else 0
  | _ => 0

theorem length_calls (e : Entry C) : (e.step?.toList.filterMap Step.call?).length = e.called := by
  cases e with
  | step _ st =>
    obtain ⟨outcome, call?⟩ := st
    cases call? <;> rfl
  | arrival | clearing => rfl

end Entry

abbrev Journal (C : Type) := List (Entry C)

namespace Journal

def total : Journal C → (Entry C → Nat) → Nat
  | [], _ => 0
  | e :: j, f => f e + total j f

def steps (j : Journal C) : List (Step C) := j.filterMap Entry.step?

@[simp]
theorem total_append (j j' : Journal C) (f : Entry C → Nat) :
    (j ++ j').total f = j.total f + j'.total f := by
  induction j with
  | nil => exact (Nat.zero_add _).symm
  | cons e j ih => rw [List.cons_append, total, total, ih, Nat.add_assoc]

end Journal

/-- The kinds of steps, with the octets that each takes. -/
inductive Takes (c : Coverage) : Option (Command C) → Step C → Nat → Prop
  | sync (k? : Option (Command C)) (r : Response) : Takes c k? ⟨.synced r, none⟩ 1
  | unknown (k? : Option (Command C)) (r : Response) :
    Takes c k? ⟨.discarded .unknownTag r, none⟩ 1
  | mismatch (k : Command C) (r : Response) :
    Takes c (some k) ⟨.discarded .checksumMismatch r, none⟩ (k.requestFrameLen c)
  | frame (k : Command C) (t : Tag) (r : Response) (call : Call C) :
    Takes c (some k) ⟨.processed t r, some call⟩ (k.requestFrameLen c)

/-- What an entry adds to the counters. -/
structure Counted (c c' : Counters) (e : Entry C) : Prop where
  frames : c'.frames = c.frames + .ofNat e.processed
  unknownTagBytes : c'.unknownTagBytes = c.unknownTagBytes + .ofNat e.unknown
  checksumErrors : c'.checksumErrors = c.checksumErrors + .ofNat e.mismatched
  rxDropped : c'.rxDropped = c.rxDropped + .ofNat e.lost
  txDropped : c'.txDropped = c.txDropped + .ofNat e.unanswered
  idleResets : c'.idleResets = c.idleResets + .ofNat e.resets
  syncReplies : c'.syncReplies = c.syncReplies + .ofNat e.synced

section Takes

variable {c : Coverage} {k? : Option (Command C)} {st : Step C} {k : Nat}

theorem Takes.amount (h : Takes c k? st k) :
    (Entry.step k? st).unknown + (Entry.step k? st).synced + (Entry.step k? st).framed c = k := by
  cases h with
  | sync | unknown => rfl
  | mismatch k | frame k => exact Nat.zero_add _

theorem Takes.called (h : Takes c k? st k) :
    (Entry.step k? st).called = (Entry.step k? st).processed := by
  cases h <;> rfl

theorem Takes.counted (h : Takes c k? st k) (counters : Counters) :
    Counted counters (counters.record st.outcome) (.step k? st) := by
  cases h with
  | sync _ r | unknown _ r | mismatch _ r | frame _ _ r =>
    cases r <;> constructor <;>
      simp [Counters.record, Counters.recordInput, Counters.recordReply, Outcome.response?,
        Entry.processed, Entry.unknown, Entry.mismatched, Entry.lost, Entry.unanswered,
        Entry.resets, Entry.synced]

end Takes

/-- A step takes what its outcome says, and calls a handler exactly if it served a
frame. -/
theorem Dispatch.takes_answer {settings : Settings} {table : Table C} {n : Nat}
    (hfit : table.maxFrameLen settings.coverage ≤ n) {q : List UInt8}
    {r : Taken C × List UInt8} (hb : Begins settings table q r) (hc : r.1.isComplete = true)
    (tx : Ring n) (ctx : C) :
    ∃ k, Takes settings.coverage ((Tag.ofOctets? q).bind table.lookup?)
        ⟨(answer settings r.1 tx ctx).1, call? settings n ctx r.1⟩ k ∧
      q.length = r.2.length + k := by
  cases hb with
  | zeroSync rest hz => exact ⟨1, .sync _ _, rfl⟩
  | unknownTag b rest t hz ht hl => exact ⟨1, .unknown _ _, rfl⟩
  | frame octets rest t k ht hl hlen =>
    have hk : (Tag.ofOctets? (octets ++ rest)).bind table.lookup? = some k := by
      rw [Tag.ofOctets?_append ht, Option.bind_some, hl]
    have hroom : ¬n < Tag.width + k.responseLen := by
      have hr := ((Table.maxFrameLen_le_iff.mp hfit).2 k (Table.lookup?_eq_some hl).1).2
      simp only [Command.responseFrameLen, Frame.length] at hr
      omega
    refine ⟨k.requestFrameLen settings.coverage, ?_, by rw [List.length_append, hlen, Nat.add_comm]⟩
    simp only [hk, answer, call?]
    cases Frame.verify settings.coverage octets with
    | error e => exact .mismatch k _
    | ok r =>
      simp only [if_neg hroom]
      exact .frame k r.1 _ _
  | noTag | noPayload | noChecksum => simp [Taken.isComplete] at hc

namespace Session

open Dispatch

variable {ses ses' : Session C n s}

def entry (ses : Session C n s) : Entry C :=
  .step ses.channel.command? (ses.channel.stepAt ses.context)

theorem takes_stepAt (h : ses.channel.Inv)
    (hp : (ses.channel.process ses.context).1.progressed = true) :
    ∃ k, Takes ses.channel.settings.coverage ses.channel.command?
        (ses.channel.stepAt ses.context) k ∧
      ses.channel.rx.len = ses.process.channel.rx.len + k := by
  have htaken : (takeFrame ses.channel.settings ses.channel.table ses.channel.rx).1 =
    (next ses.channel.settings ses.channel.table ses.channel.rx.toList).1 := (takeFrame_eq h.rx).1
  have hrest : (takeFrame ses.channel.settings ses.channel.table ses.channel.rx).2.toList =
    (next ses.channel.settings ses.channel.table ses.channel.rx.toList).2 := (takeFrame_eq h.rx).2
  rw [Channel.progressed_process, htaken] at hp
  obtain ⟨k, htakes, hk⟩ := takes_answer h.fits
    (begins ses.channel.settings ses.channel.table ses.channel.rx.toList) hp ses.channel.tx
    ses.context
  rw [← htaken] at htakes
  rw [← hrest, Ring.length_toList h.rx, Ring.length_toList (inv_takeFrame h.rx)] at hk
  exact ⟨k, htakes, hk⟩

/-- What an entry says of the session before and behind it. -/
structure Posted (ses ses' : Session C n s) (e : Entry C) : Prop where
  kept : Channel.Kept ses.channel ses'.channel
  balance : ses.channel.rx.len + e.offered = ses'.channel.rx.len + e.lost + e.unknown + e.synced +
    e.framed ses.channel.settings.coverage + e.cleared
  steps : ses'.steps = ses.steps ++ e.step?.toList
  called : e.called = e.processed
  counted : Counted ses.channel.counters ses'.channel.counters e

theorem posted_step (h : ses.channel.Inv)
    (hp : (ses.channel.process ses.context).1.progressed = true) :
    Posted ses ses.process ses.entry := by
  obtain ⟨k, htakes, hlen⟩ := takes_stepAt h hp
  refine ⟨process_kept h, ?_, steps_process hp, htakes.called, htakes.counted _⟩
  rw [hlen, ← htakes.amount]
  simp only [entry, Entry.offered, Entry.lost, Entry.cleared]
  omega

theorem posted_arrival (h : ses.channel.Inv) (timers : TimerQueue s) (bs : List UInt8)
    (now : UInt32) :
    Posted ses (ses.apply timers (.receive bs now)).1
      (.arrival bs.length (ses.channel.rx.lost bs)) := by
  have hk := apply_kept h timers (.receive bs now)
  cases bs with
  | nil =>
    refine ⟨hk, rfl, (List.append_nil _).symm, rfl, ?_⟩
    constructor <;> exact (UInt32.add_zero _).symm
  | cons b bs =>
    have hlen := Ring.len_offer_add_lost h.rx (b :: bs)
    have hdropped := Ring.dropped_eq_lost h.rx (b :: bs)
    refine ⟨hk, ?_, (List.append_nil _).symm, rfl, ?_⟩
    · exact hlen.symm
    · constructor
      case rxDropped =>
        rw [Entry.lost, ← hdropped]
        rfl
      all_goals exact (UInt32.add_zero _).symm

/-- Octets that are cleared away are counted as a reset if there are any. -/
theorem counted_clearing (c : Counters) (count : Nat) :
    Counted (C := C) c (if count = 0 then c else c.recordIdleReset) (.clearing count true) := by
  cases count with
  | zero => constructor <;> exact (UInt32.add_zero _).symm
  | succ count =>
    rw [if_neg (Nat.succ_ne_zero count)]
    constructor
    case idleResets => rfl
    all_goals exact (UInt32.add_zero _).symm

theorem posted_expired (h : ses.channel.Inv) (timers : TimerQueue s) (e : Expiry s) :
    Posted ses (ses.apply timers (.handleExpired e)).1
      (.clearing (ses.channel.rx.len - (ses.channel.handleExpired timers e).2.rx.len) true) := by
  have hk := apply_kept h timers (.handleExpired e)
  obtain he | ⟨_, -, -, he⟩ := ses.channel.handleExpired_counted timers e
  · have hch : (ses.apply timers (.handleExpired e)).1.channel = ses.channel := by
      simp only [apply, he]
    rw [he, Nat.sub_self]
    refine ⟨hk, by rw [hch]; rfl, (List.append_nil _).symm, rfl, ?_⟩
    rw [hch]
    exact counted_clearing ses.channel.counters 0
  · have hcounters : (ses.apply timers (.handleExpired e)).1.channel.counters =
        if ses.channel.rx.len = 0 then ses.channel.counters
        else ses.channel.counters.recordIdleReset := by
      simp only [apply, he, Ring.isEmpty, decide_eq_true_eq]
    have hempty : (ses.apply timers (.handleExpired e)).1.channel.rx.len = 0 := by
      simp only [apply, he]
      rfl
    rw [he]
    refine ⟨hk, ?_, (List.append_nil _).symm, rfl, ?_⟩
    · rw [hempty]
      exact (Nat.zero_add _).symm
    · rw [hcounters]
      exact counted_clearing ses.channel.counters ses.channel.rx.len

theorem posted_resync (h : ses.channel.Inv) (timers : TimerQueue s) (now : UInt32) :
    Posted ses (ses.apply timers (.resync now)).1
      (.clearing (ses.channel.rx.len - (ses.channel.resync timers now).1.rx.len) false) := by
  refine ⟨apply_kept h timers (.resync now), (Nat.zero_add _).symm, (List.append_nil _).symm, rfl,
    ?_⟩
  constructor <;> exact (UInt32.add_zero _).symm

end Session

/-- The counters are the sums over a journal. -/
structure Tallied (c : Counters) (j : Journal C) : Prop where
  frames : c.frames = .ofNat (j.total Entry.processed)
  unknownTagBytes : c.unknownTagBytes = .ofNat (j.total Entry.unknown)
  checksumErrors : c.checksumErrors = .ofNat (j.total Entry.mismatched)
  rxDropped : c.rxDropped = .ofNat (j.total Entry.lost)
  txDropped : c.txDropped = .ofNat (j.total Entry.unanswered)
  idleResets : c.idleResets = .ofNat (j.total Entry.resets)
  syncReplies : c.syncReplies = .ofNat (j.total Entry.synced)

theorem Tallied.snoc {c c' : Counters} {j : Journal C} {e : Entry C} (h : Tallied c j)
    (he : Counted c c' e) : Tallied c' (j ++ [e]) := by
  have hadd (f : Entry C → Nat) : UInt32.ofNat (Journal.total (j ++ [e]) f) =
      .ofNat (j.total f) + .ofNat (f e) := by
    rw [Journal.total_append, UInt32.ofNat_add]
    rfl
  constructor
  · rw [he.frames, h.frames, hadd]
  · rw [he.unknownTagBytes, h.unknownTagBytes, hadd]
  · rw [he.checksumErrors, h.checksumErrors, hadd]
  · rw [he.rxDropped, h.rxDropped, hadd]
  · rw [he.txDropped, h.txDropped, hadd]
  · rw [he.idleResets, h.idleResets, hadd]
  · rw [he.syncReplies, h.syncReplies, hadd]

namespace Session

variable {ses ses' : Session C n s} {j : Journal C}

end Session

end CommandLink
