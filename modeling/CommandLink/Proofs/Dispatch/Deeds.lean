import CommandLink.Device.Handlers
import CommandLink.Proofs.Dispatch.Items
import CommandLink.Proofs.Dispatch.Memory

namespace CommandLink

/-- What an item of the input is owed: nothing, a reply that has no place in the memory, or
octets. -/
inductive Due where
  | nothing
  | lost
  | octets (bs : List UInt8)

namespace Due

def offers : Due → List (List UInt8)
  | .octets bs => [bs]
  | .nothing | .lost => []

/-- A frame that is assembled in `n` octets of memory. -/
def framed (n : Nat) (c : Coverage) (t : Tag) (payload : List UInt8) : Due :=
  if n < Frame.length c payload.length then .lost else .octets (Frame.encode c t payload)

def ofError (settings : Settings) (e : ErrorReply) : Due :=
  if settings.errorReplies then .octets (Frame.encode settings.coverage e.tag []) else .nothing

/-- Only a response is made of what the handler left in the response buffer. -/
def ofHandled {C : Type} (n : Nat) (c : Coverage) (k : Command C)
    (handled : Handled C k.responseLen) : Due :=
  match handled.reply with
  | .respond => framed n c k.tag handled.response.toList
  | .reject e => framed n c e.tag []
  | .silent => .nothing

end Due

namespace Dispatch

variable {C : Type} {n : Nat} {c : Coverage} {t : Tag} {payload memory : List UInt8}

open CommandLink.Frame (slice? copySlice? slice?_eq copySlice?_eq)

/-- What becomes of what is owed. A queue that may not displace its oldest octets takes
all of a reply or none of it. -/
inductive Meets (tx : Ring n) : Due → Response → Ring n → Prop
  | nothing : Meets tx .nothing .silent tx
  | lost : Meets tx .lost .dropped tx
  | refused (bs : List UInt8) (hpolicy : tx.overwrite = false) (hroom : tx.free < bs.length) :
    Meets tx (.octets bs) .dropped tx
  | queued (bs : List UInt8) (tx' : Ring n) (hroom : tx.overwrite = true ∨ bs.length ≤ tx.free)
    (hlist : tx'.toList = (tx.toList ++ bs).drop (tx.len + bs.length - n)) (hinv : tx'.Inv)
    (hkept : tx'.overwrite = tx.overwrite) : Meets tx (.octets bs) (.queued bs.length) tx'

/-- What an item leads to: the handlers that are called, what is owed, the outcome with the
fate `r` of the reply, and the application's state. -/
inductive Answers (settings : Settings) (n : Nat) (ctx : C) (r : Response) :
    Taken C → List Handover → Due → Outcome → C → Prop
  | incomplete (a : Awaiting) :
    Answers settings n ctx r (.incomplete a) [] .nothing (.incomplete a) ctx
  | zeroSync : Answers settings n ctx r .zeroSync [] (.octets [0]) (.synced r) ctx
  | unknownTag : Answers settings n ctx r .unknownTag [] (.ofError settings .command)
    (.discarded .unknownTag r) ctx
  | mismatch (k : Command C) (frame : List UInt8)
    (hv : Frame.verify settings.coverage frame = .error .checksumMismatch) :
    Answers settings n ctx r (.frame k frame) [] (.ofError settings .data)
      (.discarded .checksumMismatch r) ctx
  | unplaced (k : Command C) (frame payload : List UInt8)
    (hv : Frame.verify settings.coverage frame = .ok (k.tag, payload))
    (hn : n < Tag.width + k.responseLen) :
    Answers settings n ctx r (.frame k frame) [] .lost (.processed k.tag r) ctx
  | served (k : Command C) (frame payload : List UInt8) (handled : Handled C k.responseLen)
    (hv : Frame.verify settings.coverage frame = .ok (k.tag, payload))
    (hlen : payload.length = k.requestLen) (hn : Tag.width + k.responseLen ≤ n)
    (hcall : k.handler ctx payload (Vector.replicate k.responseLen 0) = handled) :
    Answers settings n ctx r (.frame k frame)
      [⟨k.tag, payload, List.replicate k.responseLen 0⟩] (.ofHandled n settings.coverage k handled)
      (.processed k.tag r) handled.context

/-! What is offered is what is owed. -/

theorem meets_send {tx : Ring n} (h : tx.Inv) (bs : List UInt8) :
    Meets tx (.octets bs) (send tx bs).1 (send tx bs).2 := by
  have hlen := Ring.length_toList h
  rw [send]
  cases ho : tx.overwrite with
  | true =>
    obtain ⟨hinv, hkept⟩ := Ring.inv_offer h bs
    have hall : tx.pushAll? bs = some (tx.offer bs).2 := by
      rw [Ring.pushAll?, if_neg (by simp [ho])]
    rw [hall]
    exact .queued bs _ (.inl ho) (Ring.offer_displacing h ho bs).1 hinv hkept
  | false =>
    obtain ⟨hfull, hp⟩ | ⟨tx', hp, hlist, hinv, hkept⟩ := Ring.pushAll?_eq h ho bs
    · rw [hp]
      exact .refused bs ho hfull
    · rw [hp]
      have hroom := hinv.len_le
      rw [← Ring.length_toList hinv, hlist, List.length_append, hlen] at hroom
      refine .queued bs tx' (.inr (Nat.le_sub_of_add_le' hroom)) ?_ hinv (hkept.trans ho.symm)
      rw [hlist, Nat.sub_eq_zero_of_le hroom, List.drop_zero]

theorem meets_sendFrame {tx : Ring n} (h : tx.Inv) (c : Coverage) (t : Tag)
    (payload : List UInt8) :
    Meets tx (.framed n c t payload) (sendFrame c t payload tx).1
      (sendFrame c t payload tx).2 := by
  rw [sendFrame, Due.framed]
  split
  · exact .lost
  · exact meets_send h _

theorem meets_sendError {tx : Ring n} (h : tx.Inv) (settings : Settings) (e : ErrorReply) :
    Meets tx (.ofError settings e) (sendError settings e tx).1 (sendError settings e tx).2 := by
  rw [sendError, Due.ofError]
  split
  · exact meets_send h _
  · exact .nothing

theorem offer_encoded {tx : Ring n} (h : tx.Inv) (hn : memory.length = n) :
    (Frame.encodeInside? c t payload memory).bind (offerInside? tx) =
      some ((Due.framed n c t payload).offers, sendFrame c t payload tx) := by
  rw [Frame.encodeInside?_eq, Option.bind_some, sendFrame, Due.framed]
  split
  · next hsmall =>
    rw [Frame.encodeInto_of_lt (hn ▸ hsmall)]
    rfl
  · next hfits =>
    rw [Frame.encodeInto_of_le (hn ▸ Nat.le_of_not_lt hfits), ← Frame.length_encode c t payload]
    exact offerInside?_eq h _ _

theorem offer_sealed {tx : Ring n} (h : tx.Inv) (hn : memory.length = n)
    (hheld : (memory.drop Tag.width).take payload.length = payload) :
    (Frame.sealInside? c t payload.length memory).bind (offerInside? tx) =
      some ((Due.framed n c t payload).offers, sendFrame c t payload tx) := by
  rw [← offer_encoded h hn, Frame.sealInside?_eq, Frame.encodeInside?_eq]
  by_cases hfits : Frame.length c payload.length ≤ memory.length
  · rw [Frame.sealInto_of_le hfits, Frame.encodeInto_of_le hfits, hheld]
  · rw [Frame.sealInto_of_lt (Nat.lt_of_not_le hfits),
      Frame.encodeInto_of_lt (Nat.lt_of_not_le hfits)]

theorem sendErrorInside?_eq {tx : Ring n} (h : tx.Inv) (settings : Settings) (e : ErrorReply) :
    sendErrorInside? settings e tx =
      some ((Due.ofError settings e).offers, sendError settings e tx) := by
  rw [sendErrorInside?, sendError, Due.ofError]
  split
  · have hfits : Frame.length settings.coverage 0 ≤ Tag.width + Checksum.width := by
      cases settings.coverage <;> decide
    rw [Frame.encodeInside?_eq, Option.bind_some,
      Frame.encodeInto_of_le (by rwa [List.length_replicate]),
      ← Frame.length_encode settings.coverage e.tag []]
    exact offerInside?_eq h _ _
  · rfl

/-- No handler is called for a response without a place in the memory. -/
theorem serveInside?_of_lt {tx : Ring n} {k : Command C} (hn : n < Tag.width + k.responseLen)
    (ctx : C) : serveInside? c k payload tx ctx = some ({}, serve c k payload tx ctx) := by
  have hslice : slice? (List.replicate n 0) Tag.width (Tag.width + k.responseLen) = none := by
    rw [Frame.slice?, if_neg (by rw [List.length_replicate]; omega)]
  rw [serveInside?, hslice, serve, if_pos hn]

/-- The handler is given zeros. -/
theorem slice?_zeros {m : Nat} (h : Tag.width + m ≤ n) :
    slice? (List.replicate n 0) Tag.width (Tag.width + m) = some (List.replicate m 0) := by
  rw [slice?_eq (Nat.le_add_right _ _) (by rwa [List.length_replicate]), List.take_replicate,
    List.drop_replicate, Nat.min_eq_left h, Nat.add_sub_cancel_left]

/-- What it leaves stands where the payload of its reply belongs. -/
theorem exists_copySlice? {bs : List UInt8} (h : Tag.width + bs.length ≤ n) :
    ∃ memory, copySlice? (List.replicate n 0) Tag.width (Tag.width + bs.length) bs = some memory ∧
      memory.length = n ∧ (memory.drop Tag.width).take bs.length = bs := by
  have hn : (List.replicate n (0 : UInt8)).length = n := List.length_replicate
  have hwide : Tag.width ≤ (List.replicate n (0 : UInt8)).length := by omega
  refine ⟨_, copySlice?_eq rfl (by rwa [hn]), ?_, ?_⟩
  · rw [Frame.length_overwriteAt (by rwa [hn]), hn]
  · rw [List.take_drop, take_overwriteAt hwide]
    exact List.drop_left' (List.length_take_of_le hwide)

theorem serveInside?_of_le {tx : Ring n} (h : tx.Inv) {k : Command C}
    (hn : Tag.width + k.responseLen ≤ n) (ctx : C) :
    serveInside? c k payload tx ctx =
      some (⟨[⟨k.tag, payload, List.replicate k.responseLen 0⟩],
        (Due.ofHandled n c k (k.handler ctx payload (Vector.replicate k.responseLen 0))).offers⟩,
        serve c k payload tx ctx) := by
  have hzeros : (⟨(List.replicate k.responseLen (0 : UInt8)).toArray, by simp⟩ :
      Vector UInt8 k.responseLen) = Vector.replicate k.responseLen 0 := by
    apply Vector.toList_inj.mp
    rw [Vector.toList_mk, Vector.toList_replicate]
  rw [serveInside?, slice?_zeros hn, serve, if_neg (Nat.not_lt.mpr hn)]
  simp only [List.length_replicate, dite_true, hzeros]
  generalize k.handler ctx payload (Vector.replicate k.responseLen 0) = handled
  have hlen : handled.response.toList.length = k.responseLen := Vector.length_toList
  obtain ⟨memory, hcopy, hmemory, hheld⟩ := exists_copySlice? (hlen.symm ▸ hn)
  rw [hlen] at hcopy
  rw [hcopy, Option.bind_some]
  cases hreply : handled.reply with
  | silent => simp [Due.ofHandled, hreply, Due.offers]
  | respond =>
    have hsealed : (Frame.sealInside? c k.tag k.responseLen memory).bind (offerInside? tx) =
        some ((Due.framed n c k.tag handled.response.toList).offers,
          sendFrame c k.tag handled.response.toList tx) := by
      rw [← offer_sealed h hmemory hheld, hlen]
    simp [hsealed, Due.ofHandled, hreply]
  | reject e =>
    have hencoded : (Frame.encodeInside? c e.tag [] memory).bind (offerInside? tx) =
        some ((Due.framed n c e.tag []).offers, sendFrame c e.tag [] tx) :=
      offer_encoded h hmemory
    simp [hencoded, Due.ofHandled, hreply]

theorem meets_serve {tx : Ring n} (h : tx.Inv) {k : Command C} {handled : Handled C k.responseLen}
    {ctx : C} (hn : Tag.width + k.responseLen ≤ n)
    (hcall : k.handler ctx payload (Vector.replicate k.responseLen 0) = handled) :
    Meets tx (.ofHandled n c k handled) (serve c k payload tx ctx).1
        (serve c k payload tx ctx).2.1 ∧
      (serve c k payload tx ctx).2.2 = handled.context := by
  rw [serve, if_neg (Nat.not_lt.mpr hn), hcall]
  simp only [Due.ofHandled]
  cases handled.reply with
  | respond => exact ⟨meets_sendFrame h c k.tag _, rfl⟩
  | reject e => exact ⟨meets_sendFrame h c e.tag [], rfl⟩
  | silent => exact ⟨.nothing, rfl⟩

/-- An item is answered: `deeds` are done for it, `due` is owed for it, and `r` becomes of
that. -/
structure Settles (settings : Settings) (tx : Ring n) (ctx : C) (taken : Taken C) (due : Due)
    (r : Response) (deeds : Deeds) (done : Outcome × Ring n × C) : Prop where
  answers : Answers settings n ctx r taken deeds.calls due done.1 done.2.2
  offers : deeds.offers = due.offers
  meets : Meets tx due r done.2.1

theorem settles_frame {settings : Settings} {tx : Ring n} (h : tx.Inv) {k : Command C}
    {frame : List UInt8} (ht : Tag.ofOctets? frame = some k.tag)
    (hlen : frame.length = k.requestFrameLen settings.coverage) (ctx : C) :
    ∃ deeds due r, answerInside? settings (.frame k frame) tx ctx =
        some (deeds, answer settings (.frame k frame) tx ctx) ∧
      Settles settings tx ctx (.frame k frame) due r deeds
        (answer settings (.frame k frame) tx ctx) := by
  rw [answerInside?, answer, Frame.verifyInside?_eq, Option.bind_some]
  obtain ⟨payload, hpayload, hv⟩ | hv := Frame.verify_request ht hlen
  · simp only [hv]
    by_cases hn : n < Tag.width + k.responseLen
    · have hdropped : serve settings.coverage k payload tx ctx = (.dropped, tx, ctx) := by
        rw [serve, if_pos hn]
      rw [serveInside?_of_lt hn, hdropped]
      exact ⟨_, _, _, rfl, .unplaced k frame payload hv hn, rfl, .lost⟩
    · have hle := Nat.le_of_not_lt hn
      obtain ⟨hmeets, hcontext⟩ := meets_serve (c := settings.coverage) h hle
        (rfl : k.handler ctx payload (Vector.replicate k.responseLen 0) = _)
      rw [serveInside?_of_le h hle]
      refine ⟨_, _, _, rfl, ?_, rfl, hmeets⟩
      rw [hcontext]
      exact .served k frame payload _ hv hpayload hle rfl
  · simp only [hv, sendErrorInside?_eq h]
    exact ⟨_, _, _, rfl, .mismatch k frame hv, rfl, meets_sendError h settings .data⟩

theorem settles {settings : Settings} {tx : Ring n} (h : tx.Inv) {taken : Taken C}
    (hframe : ∀ k frame, taken = .frame k frame → Tag.ofOctets? frame = some k.tag ∧
      frame.length = k.requestFrameLen settings.coverage) (ctx : C) :
    ∃ deeds due r, answerInside? settings taken tx ctx =
        some (deeds, answer settings taken tx ctx) ∧
      Settles settings tx ctx taken due r deeds (answer settings taken tx ctx) := by
  cases taken with
  | incomplete a => exact ⟨_, _, .silent, rfl, .incomplete a, rfl, .nothing⟩
  | zeroSync =>
    rw [answerInside?, sendInside?_eq h]
    exact ⟨_, _, _, rfl, .zeroSync, rfl, meets_send h [0]⟩
  | unknownTag =>
    rw [answerInside?, sendErrorInside?_eq h]
    exact ⟨_, _, _, rfl, .unknownTag, rfl, meets_sendError h settings .command⟩
  | frame k frame =>
    obtain ⟨ht, hlen⟩ := hframe k frame rfl
    exact settles_frame h ht hlen ctx

/-- A frame at the head of an input that leads to a call of its handler, when there are `n`
octets for the response. -/
structure Hands (settings : Settings) (table : Table C) (n : Nat) (q : List UInt8)
    (handover : Handover) (k : Command C) (frame rest : List UInt8) : Prop where
  known : k ∈ table.commands
  head : q = frame ++ rest
  whole : frame.length = k.requestFrameLen settings.coverage
  verified : Frame.verify settings.coverage frame = .ok (k.tag, handover.request)
  placed : Tag.width + k.responseLen ≤ n
  tag : handover.tag = k.tag
  request : handover.request.length = k.requestLen
  response : handover.response = List.replicate k.responseLen 0

/-- One step that takes the item `taken`. Both queues stay sound. -/
structure Performs (settings : Settings) (table : Table C) (rx tx : Ring n) (ctx : C)
    (taken : Taken C) (due : Due) (r : Response) (deeds : Deeds)
    (done : Outcome × Ring n × Ring n × C) : Prop where
  takes : Begins settings table rx.toList (taken, done.2.1.toList)
  settles : Settles settings tx ctx taken due r deeds (done.1, done.2.2)
  waits : taken.isComplete = false → done.2 = (rx, tx, ctx)
  called : ∀ handover, handover ∈ deeds.calls ↔
    ∃ k frame rest, Hands settings table n rx.toList handover k frame rest
  once : deeds.calls.length ≤ 1
  input : done.2.1.Inv ∧ done.2.1.overwrite = rx.overwrite
  output : done.2.2.1.Inv ∧ done.2.2.1.overwrite = tx.overwrite

theorem answer_of_not_isComplete {settings : Settings} {taken : Taken C} {tx : Ring n} {ctx : C}
    (h : taken.isComplete = false) : (answer settings taken tx ctx).2 = (tx, ctx) := by
  cases taken with
  | incomplete a => rfl
  | zeroSync | unknownTag | frame => cases h

theorem Meets.output {tx tx' : Ring n} {due : Due} {r : Response} (hm : Meets tx due r tx')
    (h : tx.Inv) : tx'.Inv ∧ tx'.overwrite = tx.overwrite := by
  cases hm with
  | nothing | lost | refused => exact ⟨h, rfl⟩
  | queued _ _ _ _ hinv hkept => exact ⟨hinv, hkept⟩

theorem Meets.of_refusing {tx tx' : Ring n} {bs : List UInt8} {r : Response}
    (hm : Meets tx (.octets bs) r tx') (h : tx.Inv) (hpolicy : tx.overwrite = false) :
    (bs.length ≤ tx.free → r = .queued bs.length ∧ tx'.toList = tx.toList ++ bs) ∧
      (tx.free < bs.length → r = .dropped ∧ tx' = tx) := by
  cases hm with
  | refused _ _ hroom =>
    exact ⟨fun hfits => absurd hroom (Nat.not_lt.mpr hfits), fun _ => ⟨rfl, rfl⟩⟩
  | queued _ _ hroom hlist =>
    obtain hdisplaces | hfits := hroom
    · rw [hpolicy] at hdisplaces
      cases hdisplaces
    · have hle := Nat.add_le_of_le_sub' h.len_le hfits
      rw [Nat.sub_eq_zero_of_le hle, List.drop_zero] at hlist
      exact ⟨fun _ => ⟨rfl, hlist⟩, fun hshort => absurd hfits (Nat.not_le.mpr hshort)⟩

theorem Answers.length_calls {settings : Settings} {ctx ctx' : C} {r : Response} {taken : Taken C}
    {calls : List Handover} {due : Due} {outcome : Outcome}
    (ha : Answers settings n ctx r taken calls due outcome ctx') : calls.length ≤ 1 := by
  cases ha with
  | served => exact Nat.le_refl 1
  | incomplete | zeroSync | unknownTag | mismatch | unplaced => exact Nat.zero_le 1

/-- The calls are decided by what stands at the head of the input. -/
theorem mem_calls_iff {settings : Settings} {table : Table C} {q q' : List UInt8} {ctx ctx' : C}
    {r : Response} {taken : Taken C} {calls : List Handover} {due : Due} {outcome : Outcome}
    (hb : Begins settings table q (taken, q'))
    (ha : Answers settings n ctx r taken calls due outcome ctx') (handover : Handover) :
    handover ∈ calls ↔ ∃ k frame rest, Hands settings table n q handover k frame rest := by
  constructor
  · intro hmem
    cases ha with
    | served k frame payload handled hv hlen hn hcall =>
      obtain rfl := List.mem_singleton.mp hmem
      cases hb with
      | frame _ _ t _ ht hl hc =>
        exact ⟨k, frame, q', (Table.lookup?_eq_some hl).1, rfl, hc, hv, hn, rfl, hlen, rfl⟩
    | incomplete | zeroSync | unknownTag | mismatch | unplaced => cases hmem
  · rintro ⟨k, frame, rest, hk, rfl, hwhole, hv, hn, htag, -, hresponse⟩
    have hframe : Begins settings table (frame ++ rest) (.frame k frame, rest) :=
      .frame frame rest k.tag k (Frame.ofOctets?_of_verify hv) (Table.lookup?_tag table hk) hwhole
    -- An input begins in one way only, so that this frame is the item that was taken.
    have htaken := (next_eq hb).symm.trans (next_eq hframe)
    cases htaken
    cases ha with
    | served _ _ payload _ hv' =>
      have hsame := hv.symm.trans hv'
      simp only [Except.ok.injEq, Prod.mk.injEq, true_and] at hsame
      rw [List.mem_singleton, ← hsame, ← htag, ← hresponse]
    | unplaced _ _ _ _ hn' => omega
    | mismatch _ _ hv' => cases hv.symm.trans hv'

/-- One step, in memory of `n` octets: it takes one item from the input or waits, and does what
the item calls for. -/
theorem step_performs {rx tx : Ring n} (hrx : rx.Inv) (htx : tx.Inv) (settings : Settings)
    (table : Table C) (ctx : C) :
    ∃ deeds taken due r, stepInside? settings table rx tx ctx =
        some (deeds, step settings table rx tx ctx) ∧
      Performs settings table rx tx ctx taken due r deeds (step settings table rx tx ctx) := by
  have hbegins := begins settings table rx.toList
  obtain ⟨htaken, hrest⟩ := @takeFrame_eq _ _ settings table _ hrx
  rw [← Prod.mk.eta (p := next settings table rx.toList), ← htaken, ← hrest] at hbegins
  have hframe k frame (ht : (takeFrame settings table rx).1 = .frame k frame) :=
    (frame_of_takeFrame hrx ht).2
  obtain ⟨deeds, due, r, hanswer, hsettles⟩ := settles htx hframe ctx
  refine ⟨deeds, (takeFrame settings table rx).1, due, r, ?_, hbegins, hsettles, ?_,
    mem_calls_iff hbegins hsettles.answers, hsettles.answers.length_calls,
    ⟨inv_takeFrame hrx, takeFrame_overwrite settings table rx⟩, hsettles.meets.output htx⟩
  · simp only [stepInside?, takeInside?_eq hrx, Option.bind_some, hanswer, Option.map_some, step]
  · intro hwait
    obtain ⟨-, hsame⟩ | ⟨hcomplete, -⟩ := takeFrame_discards settings table rx
    · exact Prod.ext hsame (answer_of_not_isComplete hwait)
    · rw [hcomplete] at hwait
      cases hwait

/-- In thirteen octets there is a place for the value and the count, but none for their
checksum: the handler is called, and its reply is lost. -/
theorem step_performs_getValue :
    let settings : Settings := { coverage := .payloadOnly }
    let rx := ((Ring.empty : Ring 13).offer (Device.getValue.tag.toOctets ++ [9])).2
    let done := step settings Device.table rx Ring.empty {}
    let deeds : Deeds := ⟨[⟨Device.getValue.tag, [], List.replicate 8 0⟩], []⟩
    rx.Inv ∧ stepInside? settings Device.table rx Ring.empty {} = some (deeds, done) ∧
      done.1 = .processed Device.getValue.tag .dropped ∧ done.2.1.toList = [9] ∧
      done.2.2.2.requests = 1 ∧
      ∃ taken due r, Performs settings Device.table rx Ring.empty {} taken due r deeds done := by
  intro settings rx done deeds
  have hempty : (Ring.empty : Ring 13).Inv := Ring.inv_empty (by decide)
  have hrx : rx.Inv := (Ring.inv_offer hempty _).1
  obtain ⟨deeds', taken, due, r, hinside, hperforms⟩ :=
    step_performs hrx hempty settings Device.table {}
  have hdeeds : (stepInside? settings Device.table rx Ring.empty {}).map Prod.fst =
      some deeds := by decide +kernel
  have hdone : done.1 = .processed Device.getValue.tag .dropped ∧ done.2.1.toList = [9] ∧
      done.2.2.2.requests = 1 := by decide +kernel
  rw [hinside, Option.map_some, Option.some.injEq] at hdeeds
  subst hdeeds
  exact ⟨hrx, hinside, hdone.1, hdone.2.1, hdone.2.2, taken, due, r, hperforms⟩

end Dispatch

end CommandLink
