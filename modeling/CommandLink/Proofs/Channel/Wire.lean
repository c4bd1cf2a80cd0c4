import CommandLink.Proofs.Channel.Record
import CommandLink.Proofs.Device.Link

namespace CommandLink.Session

variable {C : Type} {n s : Nat}

/-- What sinks took, followed by what is still queued, is every reply that was
reported as queued, whole and in the order of the steps, and nothing else. -/
theorem wire_eq_replies {settings : Settings} {table : Table C} {timers timers' : TimerQueue s}
    {ch : Channel C n s} (hnew : Channel.new n settings table timers = .ok (ch, timers'))
    (ctx : C) (ops : List (TimerQueue s × Op s)) :
    let ses := run ⟨ch, ctx, [], []⟩ ops
    ses.wire ++ ses.channel.tx.toList = ses.steps.flatMap (Step.sent settings.coverage) ∧
      ∀ st ∈ ses.steps, ∀ k, st.outcome.queued? = some k →
        (st.reply settings.coverage).length = k ∧
          ∀ d r, st.outcome = .discarded d r → settings.errorReplies = true := by
  have hrecords := records_new hnew ctx ops
  obtain ⟨-, -, slot, -, rfl⟩ := Channel.new_eq_ok hnew
  intro ses
  refine ⟨hrecords.octets, fun st hst k hk => ?_⟩
  have hreplied := hrecords.replied st hst
  refine ⟨hreplied.whole k hk, ?_⟩
  rintro d r ho
  have hr : r = .queued k := by
    rw [ho] at hk
    cases r with
    | queued m => cases hk; rfl
    | silent | dropped => cases hk
  exact hreplied.errors d k (hr ▸ ho)

/-- A pump into a sink that pumps the channel again before it takes an octet. -/
def meddle {s : Nat} : Op s :=
  let take (b : UInt8) (st : List UInt8) : Script (List UInt8) (Except Empty Unit) :=
    .answer (.ok ()) (b :: st)
  let room (st : List UInt8) : Script (List UInt8) Bool := .answer true st
  .pump room (fun b st => .pump room take st fun _ => take b) []

theorem wire_eq_replies_meddle :
    let frame := Frame.encode .tagAndPayload Device.ping.tag [1, 2, 3, 4]
    let timers := Device.linkTimers 5000
    let ses := run ⟨Device.link 16 {}, {}, [], []⟩
      [(timers, .receive (frame ++ [0]) 0), (timers, .process), (timers, meddle),
        (timers, .processAll)]
    Channel.new 16 {} Device.table (.new 1 5000) = .ok (Device.link 16 {}, timers) ∧
      ses.wire = frame ∧ ses.channel.tx.toList = [0] ∧
      ses.wire ++ ses.channel.tx.toList = ses.steps.flatMap (Step.sent .tagAndPayload) ∧
      ∀ st ∈ ses.steps, ∀ k, st.outcome.queued? = some k →
        (st.reply .tagAndPayload).length = k ∧
          ∀ d r, st.outcome = .discarded d r → ({} : Settings).errorReplies = true := by
  have hnew : Channel.new 16 {} Device.table (.new 1 5000) =
      .ok (Device.link 16 {}, Device.linkTimers 5000) := Device.new_link (by decide) rfl
  exact ⟨hnew, by decide +kernel, by decide +kernel, wire_eq_replies hnew _ _⟩

end CommandLink.Session
