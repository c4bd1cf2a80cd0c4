import CommandLink.Proofs.Dispatch.Head
import CommandLink.Proofs.Frame.Encode

namespace CommandLink

/-- A call of a handler: what it was given and what it left. -/
structure Call (C : Type) where
  tag : Tag
  request : List UInt8
  reply : Reply
  response : List UInt8
  context : C

/-- The handler gets a response buffer of zeros. -/
def Command.call {C : Type} (k : Command C) (payload : List UInt8) (ctx : C) : Call C :=
  let handled := k.handler ctx payload (Vector.replicate k.responseLen 0)
  ⟨k.tag, payload, handled.reply, handled.response.toList, handled.context⟩

namespace Outcome

/-- What became of the input, leaving the fate of the reply aside. -/
def bare : Outcome → Outcome
  | .incomplete a => .incomplete a
  | .processed t _ => .processed t .silent
  | .discarded d _ => .discarded d .silent
  | .synced _ => .synced .silent

def queued? (o : Outcome) : Option Nat :=
  match o.response? with
  | some (.queued k) => some k
  | _ => none

theorem progressed_bare (o : Outcome) : o.bare.progressed = o.progressed := by
  cases o <;> rfl

end Outcome

/-- One step over the input, as the application and the host see it. -/
structure Step (C : Type) where
  outcome : Outcome
  call? : Option (Call C)

namespace Step

variable {C : Type}

/-- The octets that a step owes the host. -/
def reply (c : Coverage) (st : Step C) : List UInt8 :=
  match st.outcome with
  | .incomplete _ => []
  | .synced _ => [0]
  | .discarded .unknownTag _ => Frame.encode c ErrorReply.command.tag []
  | .discarded .checksumMismatch _ => Frame.encode c ErrorReply.data.tag []
  | .processed _ _ =>
    match st.call? with
    | none => []
    | some call =>
      match call.reply with
      | .respond => Frame.encode c call.tag call.response
      | .reject e => Frame.encode c e.tag []
      | .silent => []

/-- The octets that a step sends: the reply if it was reported as queued. -/
def sent (c : Coverage) (st : Step C) : List UInt8 :=
  match st.outcome.queued? with
  | some _ => st.reply c
  | none => []

/-- What a step owes under the settings, which may leave errors in the input unanswered. -/
def owes (settings : Settings) (st : Step C) : List UInt8 :=
  match st.outcome with
  | .discarded _ _ => if settings.errorReplies then st.reply settings.coverage else []
  | _ => st.reply settings.coverage

/-- What a step says of its reply is true: it has the length that was reported, and errors
are only answered if the settings say so. -/
structure Replied (settings : Settings) (st : Step C) : Prop where
  whole : ∀ k, st.outcome.queued? = some k → (st.reply settings.coverage).length = k
  errors : ∀ d k, st.outcome = .discarded d (.queued k) → settings.errorReplies = true

def bare (st : Step C) : Step C := ⟨st.outcome.bare, st.call?⟩

theorem owes_of_queued {settings : Settings} {st : Step C} {k : Nat}
    (he : ∀ d k, st.outcome = .discarded d (.queued k) → settings.errorReplies = true)
    (hq : st.outcome.queued? = some k) : st.owes settings = st.reply settings.coverage := by
  obtain ⟨outcome, call?⟩ := st
  cases outcome with
  | discarded d r =>
    cases r with
    | queued m => exact if_pos (he d m rfl)
    | silent | dropped => cases hq
  | incomplete | synced | processed => rfl

end Step

namespace Dispatch

variable {C : Type} {n : Nat}

/-- The call that an item leads to. No handler is called whose response has no
place in `n` octets. -/
def call? (settings : Settings) (n : Nat) (ctx : C) : Taken C → Option (Call C)
  | .frame k octets =>
    match Frame.verify settings.coverage octets with
    | .ok (_, payload) =>
      if n < Tag.width + k.responseLen then none else some (k.call payload ctx)
    | .error _ => none
  | _ => none

def verdict (settings : Settings) : Taken C → Outcome
  | .incomplete a => .incomplete a
  | .zeroSync => .synced .silent
  | .unknownTag => .discarded .unknownTag .silent
  | .frame _ octets =>
    match Frame.verify settings.coverage octets with
    | .ok (t, _) => .processed t .silent
    | .error _ => .discarded .checksumMismatch .silent

def after (ctx : C) (call? : Option (Call C)) : C := (call?.map Call.context).getD ctx

theorem progressed_verdict (settings : Settings) (taken : Taken C) :
    (verdict settings taken).progressed = taken.isComplete := by
  cases taken with
  | frame k octets =>
    simp only [verdict]
    cases Frame.verify settings.coverage octets <;> rfl
  | incomplete | zeroSync | unknownTag => rfl

theorem answer_bare (settings : Settings) (taken : Taken C) (tx : Ring n) (ctx : C) :
    (answer settings taken tx ctx).1.bare = verdict settings taken := by
  cases taken with
  | frame k octets =>
    simp only [answer, verdict]
    cases Frame.verify settings.coverage octets <;> rfl
  | incomplete | zeroSync | unknownTag => rfl

theorem serve_context (c : Coverage) (k : Command C) (payload : List UInt8) (tx : Ring n)
    (ctx : C) : (serve c k payload tx ctx).2.2 =
      after ctx (if n < Tag.width + k.responseLen then none else some (k.call payload ctx)) := by
  rw [serve]
  split
  · rfl
  · simp only [after, Command.call, Option.map_some, Option.getD_some]
    split <;> rfl

theorem answer_context (settings : Settings) (taken : Taken C) (tx : Ring n) (ctx : C) :
    (answer settings taken tx ctx).2.2 = after ctx (call? settings n ctx taken) := by
  cases taken with
  | frame k octets =>
    simp only [answer, call?]
    cases Frame.verify settings.coverage octets with
    | error e => rfl
    | ok r => exact serve_context settings.coverage k r.2 tx ctx
  | incomplete | zeroSync | unknownTag => rfl

/-- The output after it was owed `octets`, and the fate of the reply. Nothing is silent that
is owed, and nothing is dropped but for want of room. -/
inductive Sends (tx : Ring n) : List UInt8 → Response × Ring n → Prop
  | queued (octets : List UInt8) (tx' : Ring n) (hlist : tx'.toList = tx.toList ++ octets)
    (hinv : tx'.Inv) (hkept : tx'.overwrite = false) :
    Sends tx octets (.queued octets.length, tx')
  | silent : Sends tx [] (.silent, tx)
  | dropped (octets : List UInt8) (hroom : octets.length ≤ tx.free → octets = []) :
    Sends tx octets (.dropped, tx)

theorem send_sends {tx : Ring n} (h : tx.Inv) (ho : tx.overwrite = false) (octets : List UInt8) :
    Sends tx octets (send tx octets) := by
  rw [send]
  rcases Ring.pushAll?_eq h ho octets with ⟨hfull, hp⟩ | ⟨tx', hp, hlist, hinv, hkept⟩
  · rw [hp]
    exact .dropped octets fun hfits => absurd hfits (Nat.not_le.mpr hfull)
  · rw [hp]
    exact .queued octets tx' hlist hinv hkept

theorem sendError_sends {tx : Ring n} (h : tx.Inv) (ho : tx.overwrite = false)
    (settings : Settings) (e : ErrorReply) :
    Sends tx (if settings.errorReplies then Frame.encode settings.coverage e.tag [] else [])
      (sendError settings e tx) := by
  rw [sendError]
  split
  · exact send_sends h ho _
  · exact .silent

theorem sendFrame_sends {tx : Ring n} (h : tx.Inv) (ho : tx.overwrite = false) (c : Coverage)
    (t : Tag) (payload : List UInt8) :
    Sends tx (Frame.encode c t payload) (sendFrame c t payload tx) := by
  rw [sendFrame]
  split
  · next hlarge =>
    refine .dropped _ fun hfits => absurd hfits (Nat.not_le.mpr ?_)
    rw [Frame.length_encode]
    exact Nat.lt_of_le_of_lt (Nat.sub_le _ _) hlarge
  · exact send_sends h ho _

/-- What a step does to the output: its reply is appended whole if it was
reported as queued, and otherwise nothing is. It was sent if there was room. -/
structure Answered (settings : Settings) (tx tx' : Ring n) (st : Step C) : Prop where
  inv : tx'.Inv
  kept : tx'.overwrite = false
  list : tx'.toList = tx.toList ++ st.sent settings.coverage
  replied : st.Replied settings
  room : (st.owes settings).length ≤ tx.free → st.sent settings.coverage = st.owes settings

theorem Answered.stay {settings : Settings} {tx : Ring n} {st : Step C} (h : tx.Inv)
    (ho : tx.overwrite = false) (hq : st.outcome.queued? = none)
    (hroom : (st.owes settings).length ≤ tx.free → st.owes settings = []) :
    Answered settings tx tx st := by
  have hsent : st.sent settings.coverage = [] := by rw [Step.sent, hq]
  refine ⟨h, ho, ?_, ⟨fun k hk => ?_, fun d k hd => ?_⟩, fun hfits => ?_⟩
  · rw [hsent, List.append_nil]
  · exact absurd (hq.symm.trans hk) (by simp)
  · rw [hd] at hq
    cases hq
  · rw [hsent, hroom hfits]

theorem Sends.answered {settings : Settings} {tx tx' : Ring n} {r : Response} {st : Step C}
    (hs : Sends tx (st.owes settings) (r, tx')) (h : tx.Inv) (ho : tx.overwrite = false)
    (hr : st.outcome.response? = some r)
    (he : ∀ d k, st.outcome = .discarded d (.queued k) → settings.errorReplies = true) :
    Answered settings tx tx' st := by
  generalize howes : st.owes settings = owed at hs
  cases hs with
  | queued _ _ hlist hinv hkept =>
    have hq : st.outcome.queued? = some owed.length := by rw [Outcome.queued?, hr]
    have hreply : st.reply settings.coverage = owed :=
      (Step.owes_of_queued he hq).symm.trans howes
    have hsent : st.sent settings.coverage = owed := by rw [Step.sent, hq, hreply]
    refine ⟨hinv, hkept, by rw [hsent, hlist], ⟨fun k hk => ?_, he⟩, fun _ => by rw [hsent, howes]⟩
    rw [hreply]
    exact Option.some.inj (hq.symm.trans hk)
  | silent => exact .stay h ho (by rw [Outcome.queued?, hr]) fun _ => howes
  | dropped _ hroom => exact .stay h ho (by rw [Outcome.queued?, hr]) (howes ▸ hroom)

theorem serve_sends {tx : Ring n} (h : tx.Inv) (ho : tx.overwrite = false) (c : Coverage)
    (k : Command C) (payload : List UInt8) (ctx : C) (t : Tag) (o : Response) :
    Sends tx
      (Step.reply c ⟨.processed t o,
        if n < Tag.width + k.responseLen then none else some (k.call payload ctx)⟩)
      ((serve c k payload tx ctx).1, (serve c k payload tx ctx).2.1) := by
  rw [serve]
  split
  · exact .dropped [] fun _ => rfl
  · simp only [Step.reply, Command.call]
    cases (k.handler ctx payload (Vector.replicate k.responseLen 0)).reply with
    | respond => exact sendFrame_sends h ho c k.tag _
    | reject e => exact sendFrame_sends h ho c e.tag []
    | silent => exact .silent

theorem sendError_silent {settings : Settings} {e : ErrorReply} {tx : Ring n} {k : Nat}
    (h : (sendError settings e tx).1 = .queued k) : settings.errorReplies = true := by
  rw [sendError] at h
  split at h
  · next he => exact he
  · cases h

theorem answered (settings : Settings) {tx : Ring n} (h : tx.Inv) (ho : tx.overwrite = false)
    (taken : Taken C) (ctx : C) :
    Answered settings tx (answer settings taken tx ctx).2.1
      ⟨(answer settings taken tx ctx).1, call? settings n ctx taken⟩ := by
  cases taken with
  | incomplete a => exact .stay h ho rfl fun _ => rfl
  | zeroSync =>
    have hs := send_sends h ho [0]
    exact Sends.answered hs h ho rfl (fun d k hd => by simp [answer] at hd)
  | unknownTag =>
    have hs := sendError_sends h ho settings .command
    refine Sends.answered hs h ho rfl fun d k hd => ?_
    simp only [answer, Outcome.discarded.injEq] at hd
    exact sendError_silent hd.2
  | frame k octets =>
    simp only [answer, call?]
    cases Frame.verify settings.coverage octets with
    | error e =>
      have hs := sendError_sends h ho settings .data
      refine Sends.answered hs h ho rfl fun d k hd => ?_
      simp only [Outcome.discarded.injEq] at hd
      exact sendError_silent hd.2
    | ok r =>
      have hs := serve_sends h ho settings.coverage k r.2 ctx r.1
        (serve settings.coverage k r.2 tx ctx).1
      exact Sends.answered hs h ho rfl (fun d k hd => by simp at hd)

end Dispatch

end CommandLink
