import CommandLink.Dispatch.Step
import CommandLink.Proofs.Frame.Buffer
import CommandLink.Proofs.Ring.Fifo

namespace CommandLink

/-- A handler that is called, with the request and the response buffer that it is given. -/
structure Handover where
  tag : Tag
  request : List UInt8
  response : List UInt8
  deriving DecidableEq

/-- What a step asks of others: the handlers that it calls and the octets that it offers to
the output. -/
structure Deeds where
  calls : List Handover := []
  offers : List (List UInt8) := []
  deriving DecidableEq

namespace Dispatch

variable {C : Type} {n : Nat}

open CommandLink.Frame (slice? copySlice? slice?_eq copySlice?_eq)

/-! A step in memory of `n` octets for the frame and as many for the reply, with no answer
where it would leave either of them or a queue. -/

def takeInside? (settings : Settings) (table : Table C) (rx : Ring n) :
    Option (Taken C × Ring n) :=
  (rx.applyInside? .peek).bind fun first =>
    if settings.zeroSync ∧ first.1 = .octet (some 0) then
      (rx.applyInside? (.discard 1)).map fun dropped => (.zeroSync, dropped.2)
    else
      (rx.applyInside? (.peekInto (List.replicate Tag.width 0))).bind fun
        | (.filled true octets, _) =>
          match (Tag.ofOctets? octets).bind table.lookup? with
          | none => (rx.applyInside? (.discard 1)).map fun dropped => (.unknownTag, dropped.2)
          | some k =>
            if rx.len < Tag.width + k.requestLen then some (.incomplete .payload, rx)
            else if rx.len < k.requestFrameLen settings.coverage then
              some (.incomplete .checksum, rx)
            else
              (slice? (List.replicate n 0) 0 (k.requestFrameLen settings.coverage)).bind
                fun room => (rx.applyInside? (.popInto room)).bind fun
                  | (.filled _ octets, rx') => some (.frame k octets, rx')
                  | _ => none
        | _ => some (.incomplete .tag, rx)

def sendInside? (tx : Ring n) (octets : List UInt8) : Option (Response × Ring n) :=
  (tx.applyInside? (.pushAll octets)).map fun
    | (.accepted true, tx') => (.queued octets.length, tx')
    | (_, tx') => (.dropped, tx')

/-- Offer the frame that was written to the front of the memory, if there was room for it. -/
def offerInside? (tx : Ring n) :
    Except FrameError Nat × List UInt8 → Option (List (List UInt8) × Response × Ring n)
  | (.error _, _) => some ([], .dropped, tx)
  | (.ok len, memory) =>
    (slice? memory 0 len).bind fun octets =>
      (sendInside? tx octets).map fun sent => ([octets], sent)

def sendErrorInside? (settings : Settings) (e : ErrorReply) (tx : Ring n) :
    Option (List (List UInt8) × Response × Ring n) :=
  if settings.errorReplies then
    (Frame.encodeInside? settings.coverage e.tag []
      (List.replicate (Tag.width + Checksum.width) 0)).bind (offerInside? tx)
  else some ([], .silent, tx)

/-- The response is written to the memory in which the reply is then assembled around it
or over it. -/
def serveInside? (c : Coverage) (k : Command C) (payload : List UInt8) (tx : Ring n) (ctx : C) :
    Option (Deeds × Response × Ring n × C) :=
  let memory := List.replicate n 0
  match slice? memory Tag.width (Tag.width + k.responseLen) with
  | none => some ({}, .dropped, tx, ctx)
  | some response =>
    if h : response.length = k.responseLen then
      let handled := k.handler ctx payload ⟨response.toArray, h⟩
      let calls := [⟨k.tag, payload, response⟩]
      (copySlice? memory Tag.width (Tag.width + k.responseLen) handled.response.toList).bind
        fun memory =>
          match handled.reply with
          | .respond =>
            ((Frame.sealInside? c k.tag k.responseLen memory).bind (offerInside? tx)).map
              fun (offers, r, tx') => (⟨calls, offers⟩, r, tx', handled.context)
          | .reject e =>
            ((Frame.encodeInside? c e.tag [] memory).bind (offerInside? tx)).map
              fun (offers, r, tx') => (⟨calls, offers⟩, r, tx', handled.context)
          | .silent => some (⟨calls, []⟩, .silent, tx, handled.context)
    else none

def answerInside? (settings : Settings) (taken : Taken C) (tx : Ring n) (ctx : C) :
    Option (Deeds × Outcome × Ring n × C) :=
  match taken with
  | .incomplete a => some ({}, .incomplete a, tx, ctx)
  | .zeroSync => (sendInside? tx [0]).map fun (r, tx') => (⟨[], [[0]]⟩, .synced r, tx', ctx)
  | .unknownTag =>
    (sendErrorInside? settings .command tx).map fun (offers, r, tx') =>
      (⟨[], offers⟩, .discarded .unknownTag r, tx', ctx)
  | .frame k octets =>
    (Frame.verifyInside? settings.coverage octets).bind fun
      | .ok (t, payload) =>
        (serveInside? settings.coverage k payload tx ctx).map fun (deeds, r, tx', ctx') =>
          (deeds, .processed t r, tx', ctx')
      | .error _ =>
        (sendErrorInside? settings .data tx).map fun (offers, r, tx') =>
          (⟨[], offers⟩, .discarded .checksumMismatch r, tx', ctx)

def stepInside? (settings : Settings) (table : Table C) (rx tx : Ring n) (ctx : C) :
    Option (Deeds × Outcome × Ring n × Ring n × C) :=
  (takeInside? settings table rx).bind fun (taken, rx') =>
    (answerInside? settings taken tx ctx).map fun (deeds, outcome, tx', ctx') =>
      (deeds, outcome, rx', tx', ctx')

/-! None of it leaves the memory. -/

theorem takeInside?_eq {rx : Ring n} (h : rx.Inv) (settings : Settings) (table : Table C) :
    takeInside? settings table rx = some (takeFrame settings table rx) := by
  have hlen := Ring.length_toList h
  have hle := h.len_le
  rw [takeInside?, takeFrame]
  simp only [Ring.applyInside?_eq h, Option.bind_some, Option.map_some, Ring.apply,
    Ring.Answer.octet.injEq]
  split
  · rfl
  · simp only [Ring.peekInto, List.length_replicate]
    cases ho : rx.oldest? Tag.width with
    | none => rfl
    | some octets =>
      obtain ⟨t, ht⟩ : ∃ t, Tag.ofOctets? octets = some t := by
        rw [Ring.oldest?_eq h] at ho
        split at ho
        · cases ho
        · next hwide =>
          cases ho
          rw [← Option.ne_none_iff_exists', Ne, Tag.ofOctets?_take (Nat.le_refl _),
            Tag.ofOctets?_eq_none_iff]
          exact hwide
      simp only [Option.bind_some, ht]
      cases table.lookup? t with
      | none => rfl
      | some k =>
        simp only
        split
        · rfl
        · by_cases hc : rx.len < k.requestFrameLen settings.coverage
          · rw [if_pos hc, Ring.take?_eq h, if_pos (hlen.symm ▸ hc)]
          · have hroom : ((List.replicate n (0 : UInt8)).take
                (k.requestFrameLen settings.coverage)).length =
                  k.requestFrameLen settings.coverage := by
              rw [List.length_take, List.length_replicate]
              omega
            rw [if_neg hc, slice?_eq (Nat.zero_le _) (by rw [List.length_replicate]; omega)]
            simp only [Option.bind_some, Ring.popInto, List.drop_zero, hroom, Ring.take?_eq h,
              hlen, if_neg hc]

theorem sendInside?_eq {tx : Ring n} (h : tx.Inv) (octets : List UInt8) :
    sendInside? tx octets = some (send tx octets) := by
  rw [sendInside?, Ring.applyInside?_eq h, Option.map_some, Ring.apply, send]
  cases tx.pushAll? octets <;> rfl

/-- What was written whole to the front of the memory is offered. -/
theorem offerInside?_eq {tx : Ring n} (h : tx.Inv) (octets rest : List UInt8) :
    offerInside? tx (.ok octets.length, octets ++ rest) = some ([octets], send tx octets) := by
  have hslice : slice? (octets ++ rest) 0 octets.length = some octets := by
    rw [slice?_eq (Nat.zero_le _) (by rw [List.length_append]; omega), List.take_left]
    rfl
  rw [offerInside?, hslice, Option.bind_some, sendInside?_eq h]
  rfl

end Dispatch

end CommandLink
