import CommandLink.Proofs.Channel.Wire
import CommandLink.Proofs.Frame.Message

namespace CommandLink

/-- The message that a step sends, if its reply was reported as queued. -/
def Step.message? {C : Type} (st : Step C) : Option Message :=
  match st.outcome.queued? with
  | none => none
  | some _ =>
    match st.outcome with
    | .incomplete _ => none
    | .synced _ => some .sync
    | .discarded .unknownTag _ => some (.error .command)
    | .discarded .checksumMismatch _ => some (.error .data)
    | .processed _ _ =>
      st.call?.bind fun call =>
        match call.reply with
        | .respond => some (.response call.tag call.response)
        | .reject e => some (.error e)
        | .silent => none

theorem Step.sent_eq {C : Type} (c : Coverage) (st : Step C) :
    st.sent c = Message.joined c st.message?.toList := by
  obtain ⟨outcome, call?⟩ := st
  rw [sent, message?]
  cases hq : outcome.queued? with
  | none => rfl
  | some k =>
    cases outcome with
    | incomplete a => rfl
    | synced r => rfl
    | discarded d r => cases d <;> exact (List.append_nil _).symm
    | processed t r =>
      cases call? with
      | none => rfl
      | some call =>
        obtain ⟨tag, request, reply, response, context⟩ := call
        cases reply with
        | respond | reject e => exact (List.append_nil _).symm
        | silent => rfl

theorem Step.sent_flatMap {C : Type} (c : Coverage) (steps : List (Step C)) :
    steps.flatMap (Step.sent c) = Message.joined c (steps.filterMap Step.message?) := by
  induction steps with
  | nil => rfl
  | cons st steps ih =>
    rw [List.flatMap_cons, List.filterMap_cons, st.sent_eq, ih]
    cases st.message? with
    | none => rfl
    | some m => rw [Message.joined_cons]; exact congrArg (· ++ _) (List.append_nil _)

theorem Channel.fromTable_stepAt {C : Type} {n s : Nat} {ch : Channel C n s} (h : ch.Inv)
    (ctx : C) {m : Message} (hm : (ch.stepAt ctx).message? = some m) : m.FromTable ch.table := by
  rw [Step.message?] at hm
  split at hm
  · cases hm
  · split at hm
    · cases hm
    · cases hm; trivial
    · cases hm; trivial
    · cases hm; trivial
    · obtain ⟨call, hcall, hreply⟩ := Option.bind_eq_some_iff.mp hm
      obtain ⟨k, hk, _, payload, -, -, -, rfl⟩ := Channel.frame_of_call h hcall
      split at hreply
      · cases hreply
        exact ⟨k, hk, rfl, Vector.length_toList⟩
      · cases hreply
        trivial
      · cases hreply

namespace Session

variable {C : Type} {n s : Nat}

def messages (ses : Session C n s) : List Message := ses.steps.filterMap Step.message?

/-- What is said comes from the table. -/
theorem fromTable_run {ses : Session C n s} (h : ses.channel.Inv) (hold : ses.steps = [])
    (ops : List (TimerQueue s × Op s)) :
    ∀ m ∈ (ses.run ops).messages, m.FromTable ses.channel.table := by
  have hsteps : ∀ st ∈ (ses.run ops).steps, ∀ m, st.message? = some m →
      m.FromTable ses.channel.table := by
    refine forall_steps_run h (by simp [hold]) (fun ch ctx hk m hm => ?_) ops
    rw [← hk.table]
    exact Channel.fromTable_stepAt hk.inv ctx hm
  intro m hm
  obtain ⟨st, hst, hsome⟩ := List.mem_filterMap.mp hm
  exact hsteps st hst m hsome

/-- The host reads the replies off the wire: those that are there whole at any
time, and all of them once the output is on the wire too. -/
structure Legible (c : Coverage) (table : Table C) (ses : Session C n s) : Prop where
  fromTable : ∀ m ∈ ses.messages, m.FromTable table
  sent : ses.steps.flatMap (Step.sent c) = Message.joined c ses.messages
  all : Message.readAll c table (ses.wire ++ ses.channel.tx.toList) = (ses.messages, [])
  soFar : ∃ got late part, Message.Arrived c table ses.messages ses.wire got late part

theorem legible_run {settings : Settings} {table : Table C} {timers timers' : TimerQueue s}
    {ch : Channel C n s} (hnew : Channel.new n settings table timers = .ok (ch, timers'))
    (ctx : C) (ops : List (TimerQueue s × Op s)) :
    Legible settings.coverage table (run ⟨ch, ctx, [], []⟩ ops) := by
  have hoctets := (records_new hnew ctx ops).octets
  have hfrom := fromTable_run (show (⟨ch, ctx, [], []⟩ : Session C n s).channel.Inv from
    Channel.inv_new hnew) rfl ops
  obtain ⟨-, -, slot, -, rfl⟩ := Channel.new_eq_ok hnew
  generalize run _ ops = ses at hoctets hfrom
  have hbalance : ses.wire ++ ses.channel.tx.toList =
      Message.joined settings.coverage ses.messages := by
    rw [messages, ← Step.sent_flatMap]
    exact hoctets
  refine ⟨hfrom, Step.sent_flatMap _ _, ?_, ?_⟩
  · rw [hbalance, Message.readAll_joined_self hfrom]
  · exact Message.arrived_of_prefix hfrom ⟨_, hbalance⟩

/-- Replies carry no length and yet can be told apart: two sequences of them
whose octets agree agree themselves, so that the host can read the replies of
every run off the wire. -/
theorem replies_unambiguous (table : Table C) (c : Coverage) :
    (∀ ms ms' : List Message, (∀ m ∈ ms, m.FromTable table) → (∀ m ∈ ms', m.FromTable table) →
      (Message.joined c ms <+: Message.joined c ms' → ms <+: ms') ∧
        (Message.joined c ms = Message.joined c ms' → ms = ms')) ∧
    ∀ {n s : Nat} (settings : Settings) (timers timers' : TimerQueue s) (ch : Channel C n s),
      settings.coverage = c → Channel.new n settings table timers = .ok (ch, timers') →
        ∀ (ctx : C) (ops : List (TimerQueue s × Op s)),
          Legible c table (run ⟨ch, ctx, [], []⟩ ops) := by
  constructor
  · intro ms ms' h h'
    refine ⟨Message.prefix_of_joined h h', fun he => ?_⟩
    have hread := Message.readAll_joined_self (c := c) h
    rw [he, Message.readAll_joined_self h'] at hread
    exact (congrArg Prod.fst hread).symm
  · rintro n s settings timers timers' ch rfl hnew ctx ops
    exact legible_run hnew ctx ops

/-- Under this coverage a reply without payload is a bare tag. -/
theorem replies_unambiguous_bare :
    let settings : Settings := { coverage := .payloadOnly, errorReplies := true }
    let told : List Message := [.sync, .response Device.setValue.tag [], .error .value]
    let more : List Message := told ++ [.response Device.ping.tag [0, 1, 2, 3]]
    let timers := Device.linkTimers 5000
    let frame := Frame.encode .payloadOnly Device.setValue.tag [1, 0, 0, 0]
    let ses := run ⟨Device.link 16 settings, {}, [], []⟩
      [(timers, .receive (frame ++ [0]) 0), (timers, .process), (timers, meddle),
        (timers, .receive [255, 0, 0, 0] 1), (timers, .processAll)]
    (∀ m ∈ told, m.FromTable Device.table) ∧ (∀ m ∈ more, m.FromTable Device.table) ∧
      Message.joined .payloadOnly told <+: Message.joined .payloadOnly more ∧ told <+: more ∧
      Channel.new 16 settings Device.table (.new 1 5000) =
        .ok (Device.link 16 settings, timers) ∧
      ses.messages = [.response Device.setValue.tag [], .sync, .error .command, .sync, .sync,
        .sync] ∧
      Legible .payloadOnly Device.table ses := by
  intro settings told more timers frame ses
  have htold : ∀ m ∈ told, m.FromTable Device.table := by decide
  have hmore : ∀ m ∈ more, m.FromTable Device.table := by decide
  have hp : Message.joined .payloadOnly told <+: Message.joined .payloadOnly more := by
    decide +kernel
  have hnew : Channel.new 16 settings Device.table (.new 1 5000) =
      .ok (Device.link 16 settings, timers) := Device.new_link (by decide) rfl
  obtain ⟨hjoined, hruns⟩ := replies_unambiguous Device.table .payloadOnly
  exact ⟨htold, hmore, hp, (hjoined told more htold hmore).1 hp, hnew, by decide +kernel,
    hruns settings _ timers _ rfl hnew {} _⟩

end Session

end CommandLink
