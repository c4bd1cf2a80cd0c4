import CommandLink.Command.Table
import CommandLink.Dispatch.Outcome
import CommandLink.Ring.Basic
import CommandLink.Settings.Basic

namespace CommandLink

inductive Taken (C : Type) where
  | incomplete (a : Awaiting)
  | zeroSync
  | unknownTag
  | frame (k : Command C) (octets : List UInt8)

namespace Dispatch

variable {C : Type} {n : Nat}

/-- Take the next item from the input. Nothing leaves the input while a frame
is incomplete; an octet that starts no known tag leaves it alone. -/
def takeFrame (settings : Settings) (table : Table C) (rx : Ring n) : Taken C × Ring n :=
  if settings.zeroSync ∧ rx.peek? = some 0 then (.zeroSync, (rx.discard 1).2)
  else match (rx.oldest? Tag.width).bind Tag.ofOctets? with
    | none => (.incomplete .tag, rx)
    | some t =>
      match table.lookup? t with
      | none => (.unknownTag, (rx.discard 1).2)
      | some k =>
        if rx.len < Tag.width + k.requestLen then (.incomplete .payload, rx)
        else match rx.take? (k.requestFrameLen settings.coverage) with
          | none => (.incomplete .checksum, rx)
          | some (octets, rx') => (.frame k octets, rx')

/-- Queue a reply whole or drop it. -/
def send (tx : Ring n) (octets : List UInt8) : Response × Ring n :=
  match tx.pushAll? octets with
  | none => (.dropped, tx)
  | some tx' => (.queued octets.length, tx')

def sendError (settings : Settings) (e : ErrorReply) (tx : Ring n) : Response × Ring n :=
  if settings.errorReplies then send tx (Frame.encode settings.coverage e.tag [])
  else (.silent, tx)

/-- Queue a frame that has been assembled in `n` octets of memory. -/
def sendFrame (c : Coverage) (t : Tag) (payload : List UInt8) (tx : Ring n) : Response × Ring n :=
  if n < Frame.length c payload.length then (.dropped, tx)
  else send tx (Frame.encode c t payload)

/-- Call the handler of a command and queue its reply. The handler is not
called for a response that has no place in `n` octets of memory. -/
def serve (c : Coverage) (k : Command C) (payload : List UInt8) (tx : Ring n) (ctx : C) :
    Response × Ring n × C :=
  if n < Tag.width + k.responseLen then (.dropped, tx, ctx)
  else
    let handled := k.handler ctx payload (Vector.replicate k.responseLen 0)
    match handled.reply with
    | .respond =>
      let (r, tx') := sendFrame c k.tag handled.response.toList tx
      (r, tx', handled.context)
    | .reject e =>
      let (r, tx') := sendFrame c e.tag [] tx
      (r, tx', handled.context)
    | .silent => (.silent, tx, handled.context)

def answer (settings : Settings) (taken : Taken C) (tx : Ring n) (ctx : C) :
    Outcome × Ring n × C :=
  match taken with
  | .incomplete a => (.incomplete a, tx, ctx)
  | .zeroSync =>
    let (r, tx') := send tx [0]
    (.synced r, tx', ctx)
  | .unknownTag =>
    let (r, tx') := sendError settings .command tx
    (.discarded .unknownTag r, tx', ctx)
  | .frame k octets =>
    match Frame.verify settings.coverage octets with
    | .ok (t, payload) =>
      let (r, tx', ctx') := serve settings.coverage k payload tx ctx
      (.processed t r, tx', ctx')
    | .error _ =>
      let (r, tx') := sendError settings .data tx
      (.discarded .checksumMismatch r, tx', ctx)

/-- At most one item of the input is taken and answered. -/
def step (settings : Settings) (table : Table C) (rx tx : Ring n) (ctx : C) :
    Outcome × Ring n × Ring n × C :=
  let (taken, rx') := takeFrame settings table rx
  let (outcome, tx', ctx') := answer settings taken tx ctx
  (outcome, rx', tx', ctx')

end Dispatch

end CommandLink
