import CommandLink.Proofs.Channel.Session
import CommandLink.Proofs.Device.Link
import CommandLink.Proofs.Dispatch.Outlook

namespace CommandLink

def Op.received {s : Nat} : Op s → List UInt8
  | .receive bs _ => bs
  | .receiveByte b _ => [b]
  | _ => []

namespace Session

variable {C : Type} {n s : Nat}

open Dispatch

/-- The operation loses no input: all that it brings is stored on top of what
was there, and nothing is cleared. -/
def Lossless (ses : Session C n s) (timers : TimerQueue s) : Op s → Prop
  | .receive bs now =>
    (ses.channel.receive timers bs now).2.1.rx.len = ses.channel.rx.len + bs.length
  | .receiveByte b now =>
    (ses.channel.receiveByte timers b now).2.1.rx.len = ses.channel.rx.len + 1
  | .handleExpired e => (ses.channel.handleExpired timers e).1 = false
  | .resync _ => False
  | _ => True

instance (ses : Session C n s) (timers : TimerQueue s) (op : Op s) :
    Decidable (ses.Lossless timers op) :=
  match op with
  | .receive _ _ | .receiveByte _ _ => inferInstanceAs (Decidable ((_ : Nat) = _))
  | .handleExpired _ => inferInstanceAs (Decidable ((_ : Bool) = _))
  | .resync _ => inferInstanceAs (Decidable False)
  | .process | .processAll | .pump _ _ _ => inferInstanceAs (Decidable True)

def LosslessRun (ses : Session C n s) : List (TimerQueue s × Op s) → Prop
  | [] => True
  | (timers, op) :: ops => ses.Lossless timers op ∧ (ses.apply timers op).1.LosslessRun ops

instance losslessRunDecidable (ses : Session C n s) :
    (ops : List (TimerQueue s × Op s)) → Decidable (ses.LosslessRun ops)
  | [] => inferInstanceAs (Decidable True)
  | (timers, op) :: ops =>
    have := losslessRunDecidable (ses.apply timers op).1 ops
    inferInstanceAs (Decidable (_ ∧ _))

def received (ops : List (TimerQueue s × Op s)) : List UInt8 := ops.flatMap fun o => o.2.received

def outlook (ses : Session C n s) : Outlook C :=
  ⟨ses.steps.map Step.bare, ses.channel.rx.toList, ses.context⟩

/-- What a session comes to if it receives nothing more. -/
def settled (ses : Session C n s) : Outlook C :=
  settle ses.channel.settings ses.channel.table n ses.outlook

theorem bare_stepAt {ses : Session C n s} (h : ses.channel.Inv) :
    (ses.channel.stepAt ses.context).bare = foretold ses.channel.settings n
      (next ses.channel.settings ses.channel.table ses.channel.rx.toList).1 ses.context := by
  rw [← (takeFrame_eq h.rx).1, foretold, ← answer_bare ses.channel.settings _ ses.channel.tx]
  rfl

theorem progressed_process {ses : Session C n s} (h : ses.channel.Inv) :
    (ses.channel.process ses.context).1.progressed =
      (next ses.channel.settings ses.channel.table ses.outlook.rest).1.isComplete := by
  rw [Channel.progressed_process, (takeFrame_eq h.rx).1]
  rfl

theorem outlook_process {ses : Session C n s} (h : ses.channel.Inv)
    (hp : (ses.channel.process ses.context).1.progressed = true) :
    ses.process.outlook = absorb ses.channel.settings ses.channel.table n ses.outlook := by
  have hctx : ses.process.context = after ses.context (call? ses.channel.settings n ses.context
      (takeFrame ses.channel.settings ses.channel.table ses.channel.rx).1) :=
    ses.channel.context_process ses.context
  rw [(takeFrame_eq h.rx).1] at hctx
  rw [outlook, steps_process hp, List.map_append, List.map_singleton, bare_stepAt h, hctx]
  congr 1
  exact (takeFrame_eq h.rx).2

theorem settled_process {ses : Session C n s} (h : ses.channel.Inv) :
    ses.process.settled = ses.settled := by
  cases hp : (ses.channel.process ses.context).1.progressed with
  | false => rw [process_stuck hp]
  | true =>
    rw [settled, settled, (process_kept h).settings, (process_kept h).table, outlook_process h hp]
    exact (settle_complete (by rw [← progressed_process h, hp])).symm

theorem settled_processAll {ses : Session C n s} (h : ses.channel.Inv) :
    ses.processAll.settled = ses.settled :=
  (processAll_induct (P := fun ses' => ses'.channel.Inv ∧ ses'.settled = ses.settled)
    (fun _ hs => ⟨(process_kept hs.1).inv, (settled_process hs.1).trans hs.2⟩) ⟨h, rfl⟩).2

theorem outlook_processAll {ses : Session C n s} (h : ses.channel.Inv) :
    ses.processAll.outlook = ses.settled := by
  rw [← settled_processAll h, settled, settle_incomplete]
  rw [← progressed_process (processAll_kept h).inv]
  exact processAll_rests ses

theorem receive_lossless {ch : Channel C n s} (h : ch.Inv) {timers : TimerQueue s}
    {bs : List UInt8} {now : UInt32}
    (hl : (ch.receive timers bs now).2.1.rx.len = ch.rx.len + bs.length) :
    (ch.receive timers bs now).2.1.rx.toList = ch.rx.toList ++ bs := by
  cases bs with
  | nil => exact (List.append_nil _).symm
  | cons b bs => exact Ring.offer_lossless h.rx (b :: bs) hl

theorem feed_settled_nil (ses : Session C n s) :
    feed ses.channel.settings ses.channel.table n ses.settled [] = ses.settled := by
  rw [feed_nil, settled, settle_settle]

theorem settled_of_fed {ses ses' : Session C n s} (hk : Channel.Kept ses.channel ses'.channel)
    {bs : List UInt8} (ho : ses'.outlook = { ses.outlook with rest := ses.outlook.rest ++ bs }) :
    ses'.settled = feed ses.channel.settings ses.channel.table n ses.settled bs := by
  rw [settled, hk.settings, hk.table, ho, settled, feed_settle, feed]

theorem settled_of_same {ses ses' : Session C n s} (hk : Channel.Kept ses.channel ses'.channel)
    (ho : ses'.outlook = ses.outlook) : ses'.settled = ses.settled := by
  rw [settled, settled, hk.settings, hk.table, ho]

theorem settled_receive {ses : Session C n s} (h : ses.channel.Inv) {timers : TimerQueue s}
    {bs : List UInt8} {now : UInt32} (hl : ses.Lossless timers (.receive bs now)) :
    (ses.apply timers (.receive bs now)).1.settled =
      feed ses.channel.settings ses.channel.table n ses.settled bs := by
  have hlist : (ses.apply timers (.receive bs now)).1.channel.rx.toList =
    ses.channel.rx.toList ++ bs := receive_lossless h hl
  apply settled_of_fed (apply_kept h timers (.receive bs now))
  rw [outlook, hlist]
  rfl

/-- The outlook is fed by what an operation brings, and only by that. -/
theorem settled_apply {ses : Session C n s} (h : ses.channel.Inv) {timers : TimerQueue s}
    {op : Op s} (hl : ses.Lossless timers op) :
    (ses.apply timers op).1.settled =
      feed ses.channel.settings ses.channel.table n ses.settled op.received := by
  have hk := apply_kept h timers op
  have hquiet := feed_settled_nil ses
  cases op with
  | receive bs now => exact settled_receive h hl
  | receiveByte b now =>
    have hone : ses.Lossless timers (.receive [b] now) := hl
    exact settled_receive h hone
  | process => exact (settled_process h).trans hquiet.symm
  | processAll => exact (settled_processAll h).trans hquiet.symm
  | handleExpired e =>
    apply (settled_of_same hk ?_).trans hquiet.symm
    rcases Channel.handleExpired_cases ses.channel timers e with he | ⟨_, _, -, -, he⟩
    · simp only [apply, he]
    · simp only [Lossless, he, Bool.true_eq_false] at hl
  | resync now => exact hl.elim
  | pump canWrite write st =>
    obtain ⟨moved, tx', wire', st', sent, hpump, hm⟩ :=
      Script.pump_wired canWrite write h.free h.tx ses.wire st
    apply (settled_of_same hk ?_).trans hquiet.symm
    simp only [apply, hpump]
    rfl

theorem settled_run {ses : Session C n s} (h : ses.channel.Inv)
    {ops : List (TimerQueue s × Op s)} (hl : ses.LosslessRun ops) :
    (ses.run ops).settled =
      feed ses.channel.settings ses.channel.table n ses.settled (received ops) := by
  induction ops generalizing ses with
  | nil =>
    exact (feed_settled_nil ses).symm
  | cons o ops ih =>
    obtain ⟨ho, hops⟩ := hl
    have hk := apply_kept h o.1 o.2
    have hi := ih hk.inv hops
    rw [hk.settings, hk.table, settled_apply h ho, feed_feed] at hi
    exact hi

/-- A schedule that ends with `processAll` brings its session to what the
octets alone foretell. -/
theorem outlook_schedule {ses : Session C n s} (h : ses.channel.Inv)
    {ops : List (TimerQueue s × Op s)} (hl : ses.LosslessRun ops) (timers : TimerQueue s) :
    (ses.run (ops ++ [(timers, .processAll)])).outlook =
      feed ses.channel.settings ses.channel.table n ses.settled (received ops) := by
  rw [run_append, ← settled_run h hl]
  exact outlook_processAll (run_kept h ops).inv

/-- Two sessions that differ at most in their output and in the fate of replies. -/
structure Agree (a b : Session C n s) : Prop where
  steps : a.steps.map Step.bare = b.steps.map Step.bare
  context : a.context = b.context
  input : a.channel.rx.toList = b.channel.rx.toList

theorem Agree.of_outlook {a b : Session C n s} (h : a.outlook = b.outlook) : Agree a b :=
  ⟨congrArg Outlook.told h, congrArg Outlook.context h, congrArg Outlook.rest h⟩

/-- One octet after the other, each with all the steps that it makes possible. -/
def bytewise (arrivals : List (TimerQueue s × UInt8 × UInt32)) : List (TimerQueue s × Op s) :=
  arrivals.flatMap fun (timers, b, now) => [(timers, .receiveByte b now), (timers, .processAll)]

theorem received_bytewise (arrivals : List (TimerQueue s × UInt8 × UInt32)) :
    received (bytewise arrivals) = arrivals.map fun a => a.2.1 := by
  induction arrivals with
  | nil => rfl
  | cons a arrivals ih =>
    rw [List.map_cons, ← ih]
    rfl

theorem lossless_of_fits {ses : Session C n s} (h : ses.channel.Inv) (timers : TimerQueue s)
    {bs : List UInt8} (now : UInt32) (hfit : ses.channel.rx.len + bs.length ≤ n) :
    ses.Lossless timers (.receive bs now) := by
  cases bs with
  | nil => exact (Nat.add_zero _).symm
  | cons b bs =>
    have hl := Ring.len_offer_of_fits h.rx hfit
    exact hl

theorem losslessRun_bytewise {ses : Session C n s} (h : ses.channel.Inv)
    {arrivals : List (TimerQueue s × UInt8 × UInt32)}
    (hfit : ses.channel.rx.len + arrivals.length ≤ n) : ses.LosslessRun (bytewise arrivals) := by
  induction arrivals generalizing ses with
  | nil => trivial
  | cons a arrivals ih =>
    obtain ⟨timers, b, now⟩ := a
    rw [List.length_cons] at hfit
    have hroom : ses.channel.rx.len + [b].length ≤ n := by
      rw [List.length_singleton]
      omega
    have hone : ses.Lossless timers (.receive [b] now) := lossless_of_fits h timers now hroom
    have hle := len_processAll_le (ses.apply timers (.receiveByte b now)).1
    have hk := apply_kept h timers (.receiveByte b now)
    refine ⟨hone, trivial, ih (processAll_kept hk.inv).inv ?_⟩
    have hlen : (ses.apply timers (.receiveByte b now)).1.channel.rx.len =
      ses.channel.rx.len + 1 := hone
    rw [hlen] at hle
    exact Nat.le_trans (Nat.add_le_add_right hle _) (by omega)

/-- The way in which the same octets arrive is of no account. Schedules may cut
them at any place and step in between, and one that takes them octet by octet
does as one that takes them at once. -/
theorem schedules_agree {settings : Settings} {table : Table C} {timers timers' : TimerQueue s}
    {ch : Channel C n s} (hnew : Channel.new n settings table timers = .ok (ch, timers'))
    (ctx : C) (before : List (TimerQueue s × Op s)) :
    let ses := run ⟨ch, ctx, [], []⟩ before
    (∀ (ops ops' : List (TimerQueue s × Op s)) (q q' : TimerQueue s),
      ses.LosslessRun ops → ses.LosslessRun ops' → received ops = received ops' →
        Agree (ses.run (ops ++ [(q, .processAll)])) (ses.run (ops' ++ [(q', .processAll)]))) ∧
      ∀ (arrivals : List (TimerQueue s × UInt8 × UInt32)) (q q₁ q₂ : TimerQueue s) (now : UInt32),
        ses.channel.rx.len + arrivals.length ≤ n →
          Agree (ses.run (bytewise arrivals ++ [(q, .processAll)]))
            (ses.run [(q₁, .receive (arrivals.map fun a => a.2.1) now), (q₂, .processAll)]) := by
  intro ses
  have hinv : ses.channel.Inv := (run_kept (Channel.inv_new hnew) before).inv
  have hagree (ops ops' : List (TimerQueue s × Op s)) (q q' : TimerQueue s)
      (h : ses.LosslessRun ops) (h' : ses.LosslessRun ops') (hsame : received ops = received ops') :
      Agree (ses.run (ops ++ [(q, .processAll)])) (ses.run (ops' ++ [(q', .processAll)])) := by
    apply Agree.of_outlook
    rw [outlook_schedule hinv h, outlook_schedule hinv h', hsame]
  refine ⟨hagree, fun arrivals q q₁ q₂ now hfit => ?_⟩
  have hwhole : ses.LosslessRun [(q₁, .receive (arrivals.map fun a => a.2.1) now)] :=
    ⟨lossless_of_fits hinv q₁ now (by rwa [List.length_map]), trivial⟩
  apply hagree _ _ q q₂ (losslessRun_bytewise hinv hfit) hwhole
  rw [received_bytewise]
  exact (List.append_nil _).symm

/-- The second frame of a stream is cut behind its first octet, within its
payload and within its checksum. -/
theorem schedules_agree_ping :
    let frame := Frame.encode .tagAndPayload Device.ping.tag [1, 2, 3, 4]
    let q := Device.linkTimers 5000
    let ses := run ⟨Device.link 16 {}, {}, [], []⟩ [(q, .receive (frame ++ frame.take 1) 0)]
    let ops := [(q, .process), (q, .receive ((frame.drop 1).take 5) 3), (q, .processAll),
      (q, .receive ((frame.drop 6).take 3) 4), (q, .process), (q, .receiveByte 96 5)]
    let ops' := [(q, .processAll), (q, .receive (frame.drop 1) 3)]
    Channel.new 16 {} Device.table (.new 1 5000) = .ok (Device.link 16 {}, q) ∧
      ses.LosslessRun ops ∧ ses.LosslessRun ops' ∧ received ops = received ops' ∧
      Agree (ses.run (ops ++ [(q, .processAll)])) (ses.run (ops' ++ [(q, .processAll)])) := by
  intro frame q ses ops ops'
  have hnew : Channel.new 16 {} Device.table (.new 1 5000) = .ok (Device.link 16 {}, q) :=
    Device.new_link (by decide) rfl
  have h : ses.LosslessRun ops := by decide +kernel
  have h' : ses.LosslessRun ops' := by decide +kernel
  have hsame : received ops = received ops' := by decide +kernel
  exact ⟨hnew, h, h', hsame, (schedules_agree hnew _ _).1 ops ops' q q h h' hsame⟩

end Session

end CommandLink
