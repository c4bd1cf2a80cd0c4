import CommandLink.Proofs.Channel.Construction
import CommandLink.Proofs.Channel.Ledger
import CommandLink.Proofs.Device.Calls
import CommandLink.Proofs.Dispatch.Deeds

namespace CommandLink

open Dispatch

/-- A value above the limit calls for a bare error frame. -/
theorem Device.meets_setValue {n : Nat} {tx : Ring n} (h : tx.Inv) {coverage : Coverage}
    (hbare : Frame.length coverage 0 ≤ n) {a b c d : UInt8} (hlarge : maxValue < word32 a b c d)
    (device : Device) :
    let served := serve coverage setValue [a, b, c, d] tx device
    Meets tx (.octets (Frame.encode coverage ErrorReply.value.tag [])) served.1 served.2.1 ∧
      served.2.2 = device.countRequest := by
  have hplaced : Tag.width + setValue.responseLen ≤ n :=
    Nat.le_trans (Frame.width_le_length coverage 0) hbare
  have hcall := call_setValue a b c d device
  rw [if_pos hlarge] at hcall
  obtain ⟨hmeets, hcontext⟩ := meets_serve (c := coverage) h hplaced
    (rfl : setValue.handler device [a, b, c, d] (Vector.replicate _ 0) = _)
  have hreply : (setValue.handler device [a, b, c, d] (Vector.replicate _ 0)).reply =
      .reject .value := congrArg Call.reply hcall
  have hdue : Due.ofHandled n coverage setValue
      (setValue.handler device [a, b, c, d] (Vector.replicate _ 0)) =
        .octets (Frame.encode coverage ErrorReply.value.tag []) := by
    simp only [Due.ofHandled, hreply]
    exact if_neg (Nat.not_lt.mpr hbare)
  exact ⟨hdue ▸ hmeets, hcontext.trans (congrArg Call.context hcall)⟩

namespace Session

section Calls

variable {C : Type} {n s : Nat} {ses ses' : Session C n s}

/-- What an operation means to the application: nothing, or a call for a frame that is
counted. -/
inductive Advances (ses ses' : Session C n s) : Prop
  | idle (hcalls : ses'.calls = ses.calls) (hcontext : ses'.context = ses.context)
    (hframes : ses'.channel.counters.frames = ses.channel.counters.frames)
  | call (k : Command C) (payload : List UInt8) (hk : k ∈ ses.channel.table.commands)
    (hlen : payload.length = k.requestLen)
    (hcalls : ses'.calls = ses.calls ++ [k.call payload ses.context])
    (hcontext : ses'.context = (k.call payload ses.context).context)
    (hframes : ses'.channel.counters.frames = ses.channel.counters.frames + 1)

theorem idle_of_posted {e : Entry C} (h : Posted ses ses' e) (hstep : e.step? = none)
    (hcontext : ses'.context = ses.context) : Advances ses ses' := by
  have hcalls : ses'.calls = ses.calls := by
    rw [calls, h.steps, hstep, Option.toList_none, List.append_nil, calls]
  have hframes := h.counted.frames
  cases e with
  | step => cases hstep
  | arrival | clearing => exact .idle hcalls hcontext (hframes.trans (UInt32.add_zero _))

theorem advances_process (h : ses.channel.Inv) : Advances ses ses.process := by
  cases hp : (ses.channel.process ses.context).1.progressed with
  | false =>
    rw [process_stuck hp]
    exact .idle rfl rfl rfl
  | true =>
    have hposted := posted_step h hp
    have hframes := hposted.counted.frames
    have hcontext : ses.process.context =
        after ses.context (ses.channel.stepAt ses.context).call? :=
      ses.channel.context_process ses.context
    have hcalls : ses.process.calls = ses.calls ++
        [ses.channel.stepAt ses.context].filterMap Step.call? := by
      rw [calls, steps_process hp, List.filterMap_append, calls]
    have hframe := @Channel.frame_of_call _ _ _ _ h ses.context
    rw [← hposted.called, entry] at hframes
    generalize ses.channel.stepAt ses.context = st at hframes hcontext hcalls hframe
    obtain ⟨outcome, call?⟩ := st
    cases call? with
    | none =>
      rw [List.filterMap_cons_none rfl, List.filterMap_nil, List.append_nil] at hcalls
      exact .idle hcalls hcontext (hframes.trans (UInt32.add_zero _))
    | some call =>
      obtain ⟨k, hk, -, payload, hlen, -, -, rfl⟩ := hframe rfl
      exact .call k payload hk hlen hcalls hcontext hframes

theorem advances_pump (h : ses.channel.Inv) (timers : TimerQueue s) {σ ε : Type}
    (canWrite : σ → Script σ Bool) (write : UInt8 → σ → Script σ (Except ε Unit)) (st : σ) :
    Advances ses (ses.apply timers (.pump canWrite write st)).1 := by
  obtain ⟨moved, tx', wire', st', sent, hpump, -⟩ :=
    Script.pump_wired canWrite write h.free h.tx ses.wire st
  simp only [apply, hpump]
  exact .idle rfl rfl rfl

end Calls

section Device

variable {n s : Nat} {ses ses' : Session Device n s}

open CommandLink.Device (lastStored Served maxValue setValue word?)

/-- What holds of a device in every state: it keeps the last value that it was told to, and
never one above the limit, every handler stayed inside of its slices and answered as it
should, and two counts of the requests agree. -/
structure Contract (ses : Session Device n s) : Prop where
  stored : ses.context.value = lastStored ses.calls
  bounded : ses.context.value ≤ maxValue
  served : ∀ before call, before ++ [call] <+: ses.calls → Served before call
  dispatched : ses.channel.counters.frames = .ofNat ses.calls.length
  requests : ses.context.requests = ses.channel.counters.frames

/-- The contract, with what carries it over a step. -/
structure Tracks (ses : Session Device n s) : Prop extends Contract ses where
  inv : ses.channel.Inv
  table : ses.channel.table = Device.table

theorem Tracks.advance (h : Tracks ses) (hadvances : Advances ses ses')
    (hkept : Channel.Kept ses.channel ses'.channel) : Tracks ses' := by
  have htable := hkept.table.trans h.table
  cases hadvances with
  | idle hcalls hcontext hframes =>
    refine ⟨⟨?_, ?_, ?_, ?_, ?_⟩, hkept.inv, htable⟩
    · rw [hcontext, hcalls, h.stored]
    · rw [hcontext]
      exact h.bounded
    · rw [hcalls]
      exact h.served
    · rw [hframes, hcalls, h.dispatched]
    · rw [hframes, hcontext, h.requests]
  | call k payload hk hlen hcalls hcontext hframes =>
    rw [h.table] at hk
    have hdevice := Device.context_call hk hlen ses.context
    rw [← hcontext] at hdevice
    have hstored : ses'.context.value = lastStored ses'.calls := by
      rw [hcalls, Device.lastStored_concat, hdevice, h.stored]
    refine ⟨⟨hstored, hstored ▸ Device.lastStored_le _, ?_, ?_, ?_⟩, hkept.inv, htable⟩
    · intro before call hbefore
      rw [hcalls, List.prefix_concat_iff] at hbefore
      obtain hlast | hbefore := hbefore
      -- The call that is new was made after all the others, in the state `ses`.
      · obtain ⟨rfl, hcall⟩ := List.append_inj' hlast rfl
        obtain rfl := List.singleton_inj.mp hcall
        exact Device.served_call hk hlen h.stored (h.requests.trans h.dispatched)
      · exact h.served before call hbefore
    · rw [hframes, hcalls, h.dispatched, List.length_append, UInt32.ofNat_add]
      rfl
    · rw [hframes, hdevice, ← h.requests]
      rfl

theorem Tracks.process (h : Tracks ses) : Tracks ses.process :=
  h.advance (advances_process h.inv) (process_kept h.inv)

theorem Tracks.apply (h : Tracks ses) (timers : TimerQueue s) (op : Op s) :
    Tracks (ses.apply timers op).1 := by
  have hkept := apply_kept h.inv timers op
  cases op with
  | process => exact h.process
  | processAll => exact processAll_induct (P := Tracks) (fun _ => Tracks.process) h
  | receive bs now =>
    exact h.advance (idle_of_posted (posted_arrival h.inv timers bs now) rfl rfl) hkept
  | receiveByte b now =>
    exact h.advance (idle_of_posted (posted_arrival h.inv timers [b] now) rfl rfl) hkept
  | handleExpired e =>
    exact h.advance (idle_of_posted (posted_expired h.inv timers e) rfl rfl) hkept
  | resync now => exact h.advance (idle_of_posted (posted_resync h.inv timers now) rfl rfl) hkept
  | pump canWrite write st => exact h.advance (advances_pump h.inv timers canWrite write st) hkept

/-- The clock may show any time. -/
def clocked (ses : Session Device n s) (uptime : Nat) : Session Device n s :=
  { ses with context.uptime := uptime }

theorem Tracks.clocked (h : Tracks ses) (uptime : Nat) : Tracks (ses.clocked uptime) :=
  ⟨⟨h.stored, h.bounded, h.served, h.dispatched, h.requests⟩, h.inv, h.table⟩

/-- Operations one after another. Each finds the clock, and the timers, in a state of its
own. The states within `processAll` are those that `process` leads to. -/
def runClocked (ses : Session Device n s) :
    List (Nat × TimerQueue s × Op s) → Session Device n s
  | [] => ses
  | (uptime, timers, op) :: ops => ((ses.clocked uptime).apply timers op).1.runClocked ops

theorem Tracks.run (h : Tracks ses) (ops : List (Nat × TimerQueue s × Op s)) :
    Tracks (ses.runClocked ops) := by
  induction ops generalizing ses with
  | nil => exact h
  | cons o ops ih => exact ih ((h.clocked o.1).apply o.2.1 o.2.2)

/-- The next step tells the host that a value is wrong, if there is room for the bare error
frame, and leaves the value of the device alone. -/
structure Rejects (ses : Session Device n s) : Prop where
  kept : ses.process.context.value = ses.context.value
  answered : let bare := Frame.encode ses.channel.settings.coverage ErrorReply.value.tag []
    bare.length ≤ ses.channel.tx.free →
      (ses.channel.process ses.context).1 = .processed setValue.tag (.queued bare.length) ∧
        ses.process.channel.tx.toList = ses.channel.tx.toList ++ bare
  unanswered : let bare := Frame.encode ses.channel.settings.coverage ErrorReply.value.tag []
    ses.channel.tx.free < bare.length →
      (ses.channel.process ses.context).1 = .processed setValue.tag .dropped ∧
        ses.process.channel.tx = ses.channel.tx

theorem Tracks.rejects (h : Tracks ses) {call : Call Device} {v : UInt32}
    (hcall : (ses.channel.stepAt ses.context).call? = some call)
    (htag : call.tag = setValue.tag) (hv : word? call.request = some v) (hlarge : maxValue < v) :
    Rejects ses := by
  obtain ⟨k, hk, frame, payload, hlen, htaken, hverify, rfl⟩ :=
    Channel.frame_of_call h.inv hcall
  rw [h.table] at hk
  obtain rfl := Device.table.eq_of_tag_eq hk (by simp [Device.table, Device.commands]) htag
  obtain ⟨a, b, c, d, rfl⟩ := List.length_eq_four.mp hlen
  obtain rfl : word32 a b c d = v := Option.some.inj hv
  have hbare := h.inv.tableFits.bare .value
  rw [Frame.length_encode] at hbare
  obtain ⟨hmeets, hcontext⟩ := Device.meets_setValue h.inv.tx hbare hlarge ses.context
  obtain ⟨houtcome, htx, hafter⟩ := Channel.process_frame htaken hverify ses.context
  obtain ⟨hroom, hfull⟩ := hmeets.of_refusing h.inv.tx h.inv.refusing
  have hvalue := congrArg Device.value (hafter.trans hcontext)
  refine ⟨hvalue, fun hfits => ?_, fun hshort => ?_⟩
  · obtain ⟨hr, hlist⟩ := hroom hfits
    exact ⟨hr ▸ houtcome, htx ▸ hlist⟩
  · obtain ⟨hr, hsame⟩ := hfull hshort
    exact ⟨hr ▸ houtcome, htx.trans hsame⟩

/-- A link to the device keeps its contract, whatever arrives and however it is used: in every
state, and in the next step if that is for a value above the limit. -/
theorem keeps_contract {settings : Settings} {timers timers' : TimerQueue s}
    {ch : Channel Device n s}
    (hnew : Channel.new n settings Device.table timers = .ok (ch, timers'))
    (ops : List (Nat × TimerQueue s × Op s)) :
    let start : Session Device n s := ⟨ch, {}, [], []⟩
    Contract (start.runClocked ops) ∧ ∀ uptime,
      let ses := (start.runClocked ops).clocked uptime
      ∀ call v, (ses.channel.stepAt ses.context).call? = some call →
        call.tag = setValue.tag → word? call.request = some v → maxValue < v → Rejects ses := by
  intro start
  have hinv := Channel.inv_new hnew
  obtain ⟨-, -, slot, -, rfl⟩ := Channel.new_eq_ok hnew
  have hstart : Tracks start := by
    refine ⟨⟨rfl, Device.lastStored_le [], fun before call hbefore => ?_, rfl, rfl⟩, hinv, rfl⟩
    exact absurd (List.prefix_nil.mp hbefore) (by simp)
  have htracks : Tracks (start.runClocked ops) := hstart.run ops
  exact ⟨htracks.toContract, fun uptime _ _ => (htracks.clocked uptime).rejects⟩

/-- Seven is stored, a million and one is rejected, and a damaged frame comes to nothing. The
rejection finds no room behind two answers that were not taken. -/
theorem keeps_contract_seven :
    let settings : Settings := { coverage := .payloadOnly }
    let store (v : UInt32) := Frame.encode .payloadOnly setValue.tag (octets32 v)
    let q := Device.linkTimers 5000
    let ops : List (Nat × TimerQueue 1 × Op 1) := [(0, q, .receive (store 7) 3),
      (2, q, .process), (5, q, .receive ((store 9).set 4 8) 5), (6, q, .processAll),
      (9, q, .receive Device.getValue.tag.toOctets 9), (9, q, .processAll),
      (9, q, .receive (store 1000001) 9)]
    let start : Session Device 18 1 := ⟨Device.link 18 settings, {}, [], []⟩
    let ses := start.runClocked ops
    Channel.new 18 settings Device.table (.new 1 5000) = .ok (Device.link 18 settings, q) ∧
      ses.process.context = ⟨7, 3, 9⟩ ∧ ses.process.channel.counters.txDropped = 1 ∧
      Contract ses ∧ Rejects (ses.clocked 9) := by
  intro settings store q ops start ses
  have hnew : Channel.new 18 settings Device.table (.new 1 5000) =
      .ok (Device.link 18 settings, q) := Device.new_link (by decide) rfl
  have hlast : ses.process.context = ⟨7, 3, 9⟩ ∧
      ses.process.channel.counters.txDropped = 1 ∧
      ((ses.clocked 9).channel.stepAt (ses.clocked 9).context).call?.map
        (fun call => (call.tag, call.request)) = some (setValue.tag, octets32 1000001) := by
    decide +kernel
  obtain ⟨hcontext, hdropped, hnext⟩ := hlast
  obtain ⟨call, hcall, hpair⟩ := Option.map_eq_some_iff.mp hnext
  obtain ⟨htag, hrequest⟩ := Prod.mk.inj hpair
  obtain ⟨hcontract, hrejects⟩ := keeps_contract hnew ops
  exact ⟨hnew, hcontext, hdropped, hcontract,
    hrejects 9 call 1000001 hcall htag (hrequest ▸ rfl) (by decide)⟩

end Device

end Session

end CommandLink
