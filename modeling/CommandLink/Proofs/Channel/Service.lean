import CommandLink.Proofs.Channel.Stream
import CommandLink.Proofs.Frame.Encode

namespace CommandLink.Session

variable {C : Type} {n s : Nat}

open Dispatch

/-- Any request that arrives whole is dispatched, once: one step is made, which leaves
the application's state as the handler does and sends its reply if there is room, and
nothing is left of the input. -/
def Serves (ses : Session C n s) : Prop :=
  ∀ k ∈ ses.channel.table.commands, ∀ payload : List UInt8, payload.length = k.requestLen →
    ∀ (timers : TimerQueue s) (now : UInt32),
      let frame := Frame.encode ses.channel.settings.coverage k.tag payload
      let fed := (ses.apply timers (.receive frame now)).1
      (ses.channel.receive timers frame now).1 = frame.length ∧
        (fed.channel.processAll fed.context).1 = 1 ∧
        (∃ r, ses.Records [⟨.processed k.tag r, some (k.call payload ses.context)⟩]
          fed.processAll) ∧
        fed.processAll.context = (k.call payload ses.context).context ∧
        fed.processAll.channel.rx.len = 0

theorem stored_of_fits {ch : Channel C n s} (h : ch.Inv) (timers : TimerQueue s) {bs : List UInt8}
    (now : UInt32) (hfit : ch.rx.len + bs.length ≤ n) :
    (ch.receive timers bs now).1 = bs.length := by
  cases bs with
  | nil => rfl
  | cons b bs =>
    have hstored : (ch.rx.offer (b :: bs)).1 = (b :: bs).length := by
      cases hr : ch.rx.overwrite with
      | false =>
        rw [(Ring.offer_refusing h.rx hr _).2]
        omega
      | true => exact (Ring.offer_displacing h.rx hr _).2
    exact hstored

/-- The steps that a request leads to which arrives at an empty input. -/
theorem outlook_request {ses : Session C n s} (h : ses.channel.Inv)
    (hempty : ses.channel.rx.len = 0) {k : Command C} (hk : k ∈ ses.channel.table.commands)
    {frame : List UInt8} (ht : k.tag.toOctets <+: frame)
    (hlen : frame.length = k.requestFrameLen ses.channel.settings.coverage)
    (hfit : ses.channel.rx.len + frame.length ≤ n) (timers : TimerQueue s) (now : UInt32) :
    ∃ made ctx, (ses.apply timers (.receive frame now)).1.processAll.outlook =
        ⟨ses.steps.map Step.bare ++ made, [], ctx⟩ ∧
      Tells ses.channel.settings.coverage ses.context [.frame k frame] made ctx := by
  have hk' := apply_kept h timers (.receive frame now)
  have hnil : ses.channel.rx.toList = [] := (Ring.toList_eq_nil_iff h.rx).mpr hempty
  obtain ⟨made, ctx, hsettle, htells⟩ := settle_stream h.fits
    (Stream.frame k frame [] hk ht hlen Stream.nil) (ses.steps.map Step.bare) ses.context
  refine ⟨made, ctx, ?_, htells⟩
  rw [outlook_processAll hk'.inv, settled_receive h (lossless_of_fits h timers now hfit),
    settled, feed_settle, feed, outlook, hnil, List.nil_append]
  rw [line, List.flatMap_singleton] at hsettle
  exact hsettle

/-- A step that tells of one frame alone calls the handler with what stands in it. -/
theorem step_of_tells {c : Coverage} {ctx ctx' : C} {k : Command C} {frame payload : List UInt8}
    {made : List (Step C)} (h : Tells c ctx [.frame k frame] made ctx')
    (hverify : Frame.verify c frame = .ok (k.tag, payload)) :
    (∃ r, made = [⟨.processed k.tag r, some (k.call payload ctx)⟩]) ∧
      ctx' = (k.call payload ctx).context := by
  obtain ⟨houtcomes, hcalls, hcontext⟩ := h
  simp only [Item.serve, Item.call?, hverify, after, Option.map_some, Option.getD_some,
    Option.toList_some, List.append_nil] at hcalls hcontext
  rw [List.flatMap_singleton, Item.outcomes, hverify] at houtcomes
  obtain ⟨⟨outcome, call?⟩, rfl, hout⟩ := List.map_eq_singleton_iff.mp houtcomes
  refine ⟨?_, hcontext⟩
  obtain ⟨r, rfl⟩ : ∃ r, outcome = .processed k.tag r := by
    cases outcome with
    | processed t r =>
      cases hout
      exact ⟨r, rfl⟩
    | incomplete | discarded | synced => simp [Outcome.bare] at hout
  cases call? with
  | none => cases hcalls
  | some call =>
    cases hcalls
    exact ⟨r, rfl⟩

/-- Nothing but an empty input is needed for the next request to be served. -/
theorem serves_of_empty {ses : Session C n s} (h : ses.channel.Inv)
    (hempty : ses.channel.rx.len = 0) : ses.Serves := by
  intro k hk payload hpayload timers now frame fed
  have ht := Frame.tag_prefix_encode ses.channel.settings.coverage k.tag payload
  have hlen : frame.length = k.requestFrameLen ses.channel.settings.coverage := by
    rw [Frame.length_encode, hpayload]
    rfl
  have hfit : ses.channel.rx.len + frame.length ≤ n := by
    have hmax := ((Table.maxFrameLen_le_iff.mp h.fits).2 k hk).1
    omega
  obtain ⟨told, ctx, hdone, htells⟩ := outlook_request h hempty hk ht hlen hfit timers now
  obtain ⟨made, hrecords⟩ := records_run h [(timers, .receive frame now), (timers, .processAll)]
  have hsteps : fed.processAll.steps = ses.steps ++ made := hrecords.steps
  have htold : made.map Step.bare = told := by
    have hall := congrArg Outlook.told hdone
    rw [outlook, hsteps, List.map_append] at hall
    exact List.append_cancel_left hall
  obtain ⟨⟨r, rfl⟩, hcontext⟩ :=
    step_of_tells (tells_of_bare (htold ▸ htells)) (Frame.verify_encode _ _ _)
  have hcount : (fed.channel.processAll fed.context).1 = 1 := by
    have hst : fed.channel.stepEach fed.context =
      [⟨.processed k.tag r, some (k.call payload ses.context)⟩] := List.append_cancel_left hsteps
    show (fed.channel.processEach fed.context).1.countP Outcome.isProcessed = 1
    rw [← Channel.outcome_stepEach, hst]
    rfl
  have hrest : fed.processAll.channel.rx.toList = [] := congrArg Outlook.rest hdone
  refine ⟨stored_of_fits h timers now hfit, hcount, ⟨r, hrecords⟩, ?_, ?_⟩
  · exact (congrArg Outlook.context hdone).trans hcontext
  · exact (Ring.toList_eq_nil_iff hrecords.kept.inv.rx).mp hrest

end CommandLink.Session
