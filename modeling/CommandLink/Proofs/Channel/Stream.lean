import CommandLink.Proofs.Channel.Chunks
import CommandLink.Proofs.Channel.Record
import CommandLink.Proofs.Dispatch.Items

namespace CommandLink.Session

variable {C : Type} {n s : Nat}

theorem tells_of_bare {c : Coverage} {ctx ctx' : C} {items : List (Item C)}
    {made : List (Step C)} (h : Tells c ctx items (made.map Step.bare) ctx') :
    Tells c ctx items made ctx' := by
  have hbare (o : Outcome) : o.bare.bare = o.bare := by cases o <;> rfl
  refine ⟨?_, ?_, h.context⟩
  · rw [← h.outcomes, List.map_map]
    exact List.map_congr_left fun st _ => (hbare st.outcome).symm
  · rw [← h.calls, List.filterMap_map]
    rfl

/-- A stream that reaches an empty input whole is dispatched item by item: no
frame is missed, none is made up, and nothing is left over. The application's state is
what the handlers made of it, and their replies are what was put behind the output. -/
theorem stream_dispatched {settings : Settings} {table : Table C} {timers timers' : TimerQueue s}
    {ch : Channel C n s} (hnew : Channel.new n settings table timers = .ok (ch, timers'))
    (ctx : C) (before ops : List (TimerQueue s × Op s)) (q : TimerQueue s)
    (items : List (Item C)) :
    let ses := run ⟨ch, ctx, [], []⟩ before
    let done := ses.run (ops ++ [(q, .processAll)])
    ses.channel.rx.len = 0 → Stream settings table items → ses.LosslessRun ops →
      received ops = line items →
        ∃ made, ses.Records made done ∧
          Tells settings.coverage ses.context items made done.context ∧
          done.channel.rx.len = 0 := by
  intro ses done hempty hstream hl hline
  have hkept := run_kept (show (⟨ch, ctx, [], []⟩ : Session C n s).channel.Inv from
    Channel.inv_new hnew) before
  obtain ⟨-, -, slot, -, rfl⟩ := Channel.new_eq_ok hnew
  have hsettings : ses.channel.settings = settings := hkept.settings
  have htable : ses.channel.table = table := hkept.table
  have hnil : ses.channel.rx.toList = [] := (Ring.toList_eq_nil_iff hkept.inv.rx).mpr hempty
  have hfit : table.maxFrameLen settings.coverage ≤ n := by
    rw [← hsettings, ← htable]
    exact hkept.inv.fits
  obtain ⟨told, ctx', hsettle, htells⟩ :=
    Dispatch.settle_stream hfit hstream (ses.steps.map Step.bare) ses.context
  have hdone : done.outlook = ⟨ses.steps.map Step.bare ++ told, [], ctx'⟩ := by
    rw [outlook_schedule hkept.inv hl, hsettings, htable, settled, hsettings, htable,
      Dispatch.feed_settle, Dispatch.feed, outlook, hnil, List.nil_append, hline, hsettle]
  obtain ⟨made, hmade⟩ := records_run hkept.inv (ops ++ [(q, .processAll)])
  have htold : made.map Step.bare = told := by
    have h := congrArg Outlook.told hdone
    rw [outlook, hmade.steps, List.map_append] at h
    exact List.append_cancel_left h
  have hcontext : done.context = ctx' := congrArg Outlook.context hdone
  have hrest : done.channel.rx.toList = [] := congrArg Outlook.rest hdone
  exact ⟨made, hmade, tells_of_bare (htold ▸ hcontext ▸ htells),
    (Ring.toList_eq_nil_iff hmade.kept.inv.rx).mp hrest⟩

/-- A ping, one with a damaged payload, the synchronisation octet and two stray
octets before a request for the version, in chunks that respect none of them. -/
theorem stream_dispatched_ping :
    let good := Frame.encode .tagAndPayload Device.ping.tag [1, 2, 3, 4]
    let bad := good.set 5 9
    let version := Frame.encode .tagAndPayload Device.getFirmwareVersion.tag []
    let items : List (Item Device) := [.frame Device.ping good, .frame Device.ping bad, .sync,
      .noise [112, 105], .frame Device.getFirmwareVersion version]
    let q := Device.linkTimers 5000
    let ops := [(q, .receive ((line items).take 13) 0), (q, .processAll),
      (q, .receive ((line items).drop 13 |>.take 11) 3), (q, .process), (q, .processAll),
      (q, .receive ((line items).drop 24) 4)]
    let ses := run ⟨Device.link 16 {}, {}, [], []⟩ []
    let done := ses.run (ops ++ [(q, .processAll)])
    Channel.new 16 {} Device.table (.new 1 5000) = .ok (Device.link 16 {}, q) ∧
      ses.channel.rx.len = 0 ∧ Stream {} Device.table items ∧ ses.LosslessRun ops ∧
      received ops = line items ∧
      ∃ made, ses.Records made done ∧
        Tells .tagAndPayload ses.context items made done.context ∧ done.channel.rx.len = 0 := by
  intro good bad version items q ops ses done
  have hnew : Channel.new 16 {} Device.table (.new 1 5000) = .ok (Device.link 16 {}, q) :=
    Device.new_link (by decide) rfl
  have hping : Device.ping ∈ Device.table.commands := .tail _ (.head _)
  have hstream : Stream {} Device.table items := by
    have hlast : Stream {} Device.table [.frame Device.getFirmwareVersion version] :=
      .frame _ _ _ (.head _) ⟨_, rfl⟩ (by decide +kernel) .nil
    have hnoise := Stream.noise [112, 105] _ _ _ (by decide +kernel) (by decide) hlast
    have hsync := Stream.sync _ rfl hnoise
    have hbad := Stream.frame _ bad _ hping ⟨_, rfl⟩ (by decide +kernel) hsync
    exact .frame _ good _ hping ⟨_, rfl⟩ (by decide +kernel) hbad
  have hl : ses.LosslessRun ops := by decide +kernel
  have hline : received ops = line items := by decide +kernel
  exact ⟨hnew, rfl, hstream, hl, hline,
    stream_dispatched hnew {} [] ops q items rfl hstream hl hline⟩

end CommandLink.Session
