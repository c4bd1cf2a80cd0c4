import CommandLink.Proofs.Channel.Session
import CommandLink.Proofs.Dispatch.Room
import CommandLink.Proofs.Frame.Damage
import Mathlib.Logic.Function.Iterate

namespace CommandLink

variable {C : Type} {n s : Nat}

/-- Calls of the handlers of a table, one after another: each is what its handler makes of
the request in the state that the call before it left. -/
inductive Call.Chain (table : Table C) : C → List (Call C) → C → Prop
  | nil (ctx : C) : Chain table ctx [] ctx
  | cons {k : Command C} {payload : List UInt8} {ctx last : C} {calls : List (Call C)}
    (hk : k ∈ table.commands) (hlen : payload.length = k.requestLen)
    (rest : Chain table (k.call payload ctx).context calls last) :
    Chain table ctx (k.call payload ctx :: calls) last

theorem Call.Chain.append {table : Table C} {ctx mid last : C}
    {calls calls' : List (Call C)} (h : Chain table ctx calls mid)
    (h' : Chain table mid calls' last) : Chain table ctx (calls ++ calls') last := by
  induction h with
  | nil => exact h'
  | cons hk hlen _ ih => exact .cons hk hlen (ih h')

/-- No reply is longer than what is owed. -/
theorem Step.sent_prefix_owes {settings : Settings} {st : Step C} (h : st.Replied settings) :
    st.sent settings.coverage <+: st.owes settings := by
  rw [sent]
  cases hq : st.outcome.queued? with
  | none => exact List.nil_prefix
  | some k => rw [owes_of_queued h.errors hq]

theorem Step.length_sent_le {settings : Settings} {made : List (Step C)}
    (h : ∀ st ∈ made, st.Replied settings) :
    (made.flatMap (sent settings.coverage)).length ≤ (made.flatMap (owes settings)).length := by
  induction made with
  | nil => exact Nat.le_refl _
  | cons st made ih =>
    rw [List.forall_mem_cons] at h
    rw [List.flatMap_cons, List.flatMap_cons, List.length_append, List.length_append]
    exact Nat.add_le_add (sent_prefix_owes h.1).length_le (ih h.2)

namespace Channel

variable {ch : Channel C n s}

open Dispatch

theorem Inv.tableFits (h : ch.Inv) : ch.table.Fits ch.settings.coverage n :=
  Table.fits_iff.mpr h.fits

/-- A handler is called for a frame that verifies, with the request that stands in it. -/
theorem frame_of_call (h : ch.Inv) {ctx : C}
    {call : Call C} (hcall : (ch.stepAt ctx).call? = some call) :
    ∃ k ∈ ch.table.commands, ∃ frame payload, payload.length = k.requestLen ∧
      (takeFrame ch.settings ch.table ch.rx).1 = .frame k frame ∧
      Frame.verify ch.settings.coverage frame = .ok (k.tag, payload) ∧
      call = k.call payload ctx := by
  have hframe := @frame_of_takeFrame _ _ ch.settings ch.table _ h.rx
  rw [stepAt] at hcall
  generalize (takeFrame ch.settings ch.table ch.rx).1 = taken at hcall hframe ⊢
  cases taken with
  | incomplete | zeroSync | unknownTag => cases hcall
  | frame k frame =>
    obtain ⟨hk, htag, hlen⟩ := hframe rfl
    obtain ⟨payload, hpayload, hv⟩ | hv := Frame.verify_request htag hlen
    · simp only [call?, hv, if_neg (room_of_fits h.tableFits hk), Option.some.injEq] at hcall
      exact ⟨k, hk, frame, payload, hpayload, rfl, hv, hcall.symm⟩
    · simp only [call?, hv] at hcall
      cases hcall

theorem process_frame {k : Command C} {frame payload : List UInt8}
    (htaken : (takeFrame ch.settings ch.table ch.rx).1 = .frame k frame)
    (hv : Frame.verify ch.settings.coverage frame = .ok (k.tag, payload)) (ctx : C) :
    let served := serve ch.settings.coverage k payload ch.tx ctx
    (ch.process ctx).1 = .processed k.tag served.1 ∧ (ch.process ctx).2.1.tx = served.2.1 ∧
      (ch.process ctx).2.2 = served.2.2 := by
  simp only [process, step, htaken, answer, hv, and_self]

end Channel

namespace Session

/-- The handlers that were called so far, in their order. -/
def calls (ses : Session C n s) : List (Call C) := ses.steps.filterMap Step.call?

/-- The steps that were made between two sessions tell what happened there. Their calls, one
after another, are what changed the application's state; their replies, in their order, are
what was put behind the output, from which sinks took the oldest octets; and if there was room
for all that they owe, then all of it was sent. -/
structure Records (ses : Session C n s) (made : List (Step C)) (done : Session C n s) : Prop where
  kept : Channel.Kept ses.channel done.channel
  steps : done.steps = ses.steps ++ made
  calls : Call.Chain ses.channel.table ses.context (made.filterMap Step.call?) done.context
  taken : ses.wire <+: done.wire
  octets : done.wire ++ done.channel.tx.toList = ses.wire ++ ses.channel.tx.toList ++
    made.flatMap (Step.sent ses.channel.settings.coverage)
  replied : ∀ st ∈ made, st.Replied ses.channel.settings
  room : ses.channel.tx.len + (made.flatMap (Step.owes ses.channel.settings)).length ≤ n →
    ∀ st ∈ made, st.sent ses.channel.settings.coverage = st.owes ses.channel.settings

variable {ses mid done : Session C n s} {made made' : List (Step C)}

/-- Operations without a step at most let sinks take octets from the output. -/
theorem Records.of_taken (hk : Channel.Kept ses.channel done.channel)
    (hsteps : done.steps = ses.steps) (hctx : done.context = ses.context) {taken : List UInt8}
    (hwire : done.wire = ses.wire ++ taken)
    (htx : ses.channel.tx.toList = taken ++ done.channel.tx.toList) : ses.Records [] done where
  kept := hk
  steps := hsteps.trans (List.append_nil _).symm
  calls := hctx ▸ .nil _
  taken := hwire ▸ List.prefix_append _ _
  octets := by rw [hwire, htx, List.flatMap_nil, List.append_nil, List.append_assoc]
  replied := List.forall_mem_nil _
  room _ := List.forall_mem_nil _

theorem Records.of_same (hk : Channel.Kept ses.channel done.channel)
    (hsteps : done.steps = ses.steps) (hctx : done.context = ses.context)
    (hwire : done.wire = ses.wire) (htx : done.channel.tx = ses.channel.tx) :
    ses.Records [] done :=
  .of_taken hk hsteps hctx (hwire.trans (List.append_nil _).symm) (htx ▸ rfl)

theorem Records.refl (h : ses.channel.Inv) : ses.Records [] ses :=
  .of_same (.refl h) rfl rfl rfl rfl

/-- What is behind the output between two records is at most what the first of them owes. -/
theorem Records.len_le (hr : ses.Records made done) (h : ses.channel.Inv) :
    done.channel.tx.len ≤ ses.channel.tx.len +
      (made.flatMap (Step.owes ses.channel.settings)).length := by
  have hlength := congrArg List.length hr.octets
  have htaken := hr.taken.length_le
  have hsent := Step.length_sent_le hr.replied
  simp only [List.length_append, Ring.length_toList h.tx, Ring.length_toList hr.kept.inv.tx]
    at hlength
  omega

theorem Records.trans (h : ses.channel.Inv) (hr : ses.Records made mid)
    (hr' : mid.Records made' done) : ses.Records (made ++ made') done where
  kept := hr.kept.trans hr'.kept
  steps := by rw [hr'.steps, hr.steps, List.append_assoc]
  calls := by
    have hcalls := hr'.calls
    rw [hr.kept.table] at hcalls
    rw [List.filterMap_append]
    exact hr.calls.append hcalls
  taken := hr.taken.trans hr'.taken
  octets := by
    rw [hr'.octets, hr.octets, hr.kept.settings, List.flatMap_append, List.append_assoc]
  replied := by
    have hreplied := hr'.replied
    rw [hr.kept.settings] at hreplied
    exact List.forall_mem_append.mpr ⟨hr.replied, hreplied⟩
  room hroom := by
    have hlen := hr.len_le h
    have hlate := hr'.room
    rw [hr.kept.settings] at hlate
    rw [List.flatMap_append, List.length_append] at hroom
    exact List.forall_mem_append.mpr ⟨hr.room (by omega), hlate (by omega)⟩

/-- A step that calls a handler leaves the state that the handler did. -/
theorem chain_stepAt (h : ses.channel.Inv) :
    Call.Chain ses.channel.table ses.context
      ([ses.channel.stepAt ses.context].filterMap Step.call?) ses.process.context := by
  have hctx : ses.process.context = _ := ses.channel.context_process ses.context
  rw [hctx]
  cases hcall : (ses.channel.stepAt ses.context).call? with
  | none =>
    rw [List.filterMap_cons_none hcall]
    exact .nil _
  | some call =>
    obtain ⟨k, hk, -, payload, hlen, -, -, rfl⟩ := Channel.frame_of_call h hcall
    rw [List.filterMap_cons_some hcall]
    exact .cons hk hlen (.nil _)

theorem records_process (h : ses.channel.Inv) : ∃ made, ses.Records made ses.process := by
  cases hp : (ses.channel.process ses.context).1.progressed with
  | false =>
    rw [process_stuck hp]
    exact ⟨[], .refl h⟩
  | true =>
    have ha := Channel.answered_process h ses.context
    refine ⟨[ses.channel.stepAt ses.context], process_kept h, steps_process hp, chain_stepAt h,
      List.prefix_rfl, ?_, List.forall_mem_singleton.mpr ha.replied, fun hroom => ?_⟩
    · have hlist : ses.process.channel.tx.toList = _ := ha.list
      have hwire : ses.process.wire = ses.wire := rfl
      rw [hwire, hlist, List.flatMap_singleton, List.append_assoc]
    · rw [List.flatMap_singleton] at hroom
      exact List.forall_mem_singleton.mpr (ha.room (Nat.le_sub_of_add_le' hroom))

theorem records_processAll (h : ses.channel.Inv) : ∃ made, ses.Records made ses.processAll :=
  processAll_induct (P := fun ses' => ∃ made, ses.Records made ses')
    (fun ses' hr => by
      obtain ⟨made, hr⟩ := hr
      obtain ⟨made', hr'⟩ := records_process hr.kept.inv
      exact ⟨made ++ made', hr.trans h hr'⟩)
    ⟨[], .refl h⟩

theorem records_apply (h : ses.channel.Inv) (timers : TimerQueue s) (op : Op s) :
    ∃ made, ses.Records made (ses.apply timers op).1 := by
  have hk := apply_kept h timers op
  cases op with
  | receive bs now =>
    refine ⟨[], .of_same hk rfl rfl rfl ?_⟩
    cases bs <;> rfl
  | receiveByte b now | resync now => exact ⟨[], .of_same hk rfl rfl rfl rfl⟩
  | process => exact records_process h
  | processAll => exact records_processAll h
  | handleExpired e =>
    refine ⟨[], .of_same hk rfl rfl rfl ?_⟩
    simp only [apply]
    rcases Channel.handleExpired_cases ses.channel timers e with he | ⟨_, _, -, -, he⟩ <;> rw [he]
    rfl
  | pump canWrite write st =>
    obtain ⟨moved, tx', wire', st', sent, hpump, hm⟩ :=
      Script.pump_wired canWrite write h.free h.tx ses.wire st
    simp only [apply, hpump] at hk ⊢
    exact ⟨[], .of_taken hk rfl rfl hm.wire_eq hm.list⟩

/-- Whatever a channel is used for, its record tells of it. -/
theorem records_run (h : ses.channel.Inv) (ops : List (TimerQueue s × Op s)) :
    ∃ made, ses.Records made (ses.run ops) := by
  induction ops generalizing ses with
  | nil => exact ⟨[], .refl h⟩
  | cons o ops ih =>
    obtain ⟨made, hr⟩ := records_apply h o.1 o.2
    obtain ⟨made', hr'⟩ := ih hr.kept.inv
    exact ⟨made ++ made', hr.trans h hr'⟩

/-- All that a new channel did is on record. -/
theorem records_new {settings : Settings} {table : Table C} {timers timers' : TimerQueue s}
    {ch : Channel C n s} (hnew : Channel.new n settings table timers = .ok (ch, timers'))
    (ctx : C) (ops : List (TimerQueue s × Op s)) :
    let start : Session C n s := ⟨ch, ctx, [], []⟩
    start.Records (start.run ops).steps (start.run ops) := by
  intro start
  obtain ⟨made, hr⟩ := records_run (show start.channel.Inv from Channel.inv_new hnew) ops
  rwa [show (start.run ops).steps = made from hr.steps]

end Session

end CommandLink
