import CommandLink.Proofs.Channel.Site

namespace CommandLink.Site

variable {s : Nat} {longest : UInt32} {b : Nat} {site : Site s}

/-- What the calls of others leave of a channel: all of it. -/
structure Undisturbed (site site' : Site s) (k : Nat) : Prop where
  party : site'.party? k = site.party? k
  taken : site'.taken = site.taken
  timer : ∀ p, site.party? k = some p → site'.timers.timer p.slot = site.timers.timer p.slot

theorem Undisturbed.refl (site : Site s) (k : Nat) : Undisturbed site site k :=
  ⟨rfl, rfl, fun _ _ => rfl⟩

variable {k : Nat} {p : Party s}

theorem undisturbed_build {C : Type} (h : Orderly longest b site) {k' : Nat}
    (hname : k = k' → site.party? k ≠ none) (n : Nat) (settings : Settings) (table : Table C)
    (ctx : C) : Undisturbed site (site.step (.build k' n settings table ctx)) k := by
  have hbuilds := h.builds k' n settings table ctx
  generalize site.step (.build k' n settings table ctx) = site' at hbuilds
  cases hbuilds with
  | opens hv hfit hb =>
    refine ⟨?_, rfl, fun p hp => TimerQueue.timer_update_ne _ ?_ _⟩
    · by_cases he : k = k'
      · obtain ⟨p, hp⟩ := Option.ne_none_iff_exists'.mp (hname he)
        rw [← he, openAt, party_enroll_self, hp, Option.getD_some]
      · exact party_enroll_ne _ _ he _
    · exact fun he => Nat.ne_of_lt (h.seated k p hp).below (congrArg Fin.val he)
  | fails => exact .refl site k

theorem call_eq (hp : site.party? k = some p) (op : Op s) :
    site.call k op =
      { site with
        timers := (p.apply site.timers op).2
        party? := Function.update site.party? k (some (p.apply site.timers op).1) } := by
  simp only [call, hp]

theorem call_none (hp : site.party? k = none) (op : Op s) : site.call k op = site := by
  simp only [call, hp]

theorem taken_call (site : Site s) (k : Nat) (op : Op s) :
    (site.call k op).taken = site.taken := by
  rw [call]
  split <;> rfl

theorem undisturbed_call (h : Orderly longest b site) {k' : Nat} (hne : k ≠ k') (op : Op s) :
    Undisturbed site (site.call k' op) k := by
  cases hp' : site.party? k' with
  | some p' =>
    have hseat := h.seated k' p' hp'
    have hw := Session.apply_wakes hseat.inv (h.longest_eq ▸ hseat.timeout) op
    rw [call_eq hp']
    refine ⟨Function.update_of_ne hne _ _, rfl, fun p hp => hw.elsewhere ?_⟩
    exact fun he => hne (h.apart k k' p p' hp hp' he)
  | none =>
    rw [call_none hp']
    exact .refl site k

theorem undisturbed_step (h : Orderly longest b site) {a : Act s} (ha : a.concerns k = false) :
    Undisturbed site (site.step a) k := by
  cases a with
  | build k' n settings table ctx =>
    exact undisturbed_build h (fun he => absurd he (of_decide_eq_false ha)) n settings table ctx
  | use k' op own => exact undisturbed_call h (of_decide_eq_false ha) op
  | handle k' j =>
    simp only [step]
    split
    · exact undisturbed_call h (of_decide_eq_false ha) _
    · exact .refl site k
  | expire now => cases ha

/-- A channel among others and one that is alone: the same state and the same
answers but for the number of the slot, the same timer, and the same told by every
expiry. -/
structure Twins (site alone : Site s) (p p' : Party s) : Prop where
  same : p' = p.atSlot p'.slot
  timer : alone.timers.timer p'.slot = site.timers.timer p.slot
  told : alone.taken.map (fun e => e.generationOf? p'.slot) =
    site.taken.map fun e => e.generationOf? p.slot

variable {alone site' alone' : Site s} {b' : Nat} {p' : Party s}

theorem Twins.undisturbed (h : Twins site alone p p') (hp : site.party? k = some p)
    (hp' : alone.party? k = some p') (hs : Undisturbed site site' k)
    (ha : Undisturbed alone alone' k) : Twins site' alone' p p' := by
  refine ⟨h.same, ?_, ?_⟩
  · rw [ha.timer p' hp', hs.timer p hp, h.timer]
  · rw [ha.taken, hs.taken, h.told]

theorem Twins.expire (h : Twins site alone p p') (hs : Orderly longest b site)
    (ha : Orderly longest b' alone) (now : UInt32) :
    Twins (site.step (.expire now)) (alone.step (.expire now)) p p' := by
  have hl : alone.timers.longest = site.timers.longest := ha.longest_eq.trans hs.longest_eq.symm
  refine ⟨h.same, ?_, ?_⟩
  · simp only [step, TimerQueue.timer_expire, hl, h.timer]
  · simp only [step, List.map_append, h.told, List.map_singleton,
      TimerQueue.generationOf?_expire, hl, h.timer]

theorem Twins.call (h : Twins site alone p p') (hs : Orderly longest b site)
    (ha : Orderly longest b' alone) (hp : site.party? k = some p)
    (hp' : alone.party? k = some p') {op op' : Op s} (hop : op.Alike p.slot p'.slot op') :
    ∃ q q', (site.call k op).party? k = some q ∧ (alone.call k op').party? k = some q' ∧
      Twins (site.call k op) (alone.call k op') q q' := by
  obtain ⟨slot, rfl⟩ : ∃ slot, p' = p.atSlot slot := ⟨_, h.same⟩
  have hfit := (hs.seated k p hp).timeout
  have hwake := Party.timer_apply (hs.longest_eq ▸ hfit) op
  have hwake' := Party.timer_apply (p := p.atSlot slot) (ha.longest_eq ▸ hfit) op'
  have hstate : ((p.atSlot slot).apply alone.timers op').1 =
      (p.apply site.timers op).1.atSlot slot := Party.apply_atSlot h.timer hop
  have hkept := Member.apply_kept (hs.seated k p hp).inv site.timers op
  have hslot : (p.apply site.timers op).1.slot = p.slot := hkept.slot
  rw [call_eq hp, call_eq hp', hstate]
  refine ⟨_, _, Function.update_self _ _ _, Function.update_self _ _ _, rfl, ?_, ?_⟩
  · rw [hslot]
    calc ((p.atSlot slot).apply alone.timers op').2.timer slot
      _ = op'.wake p.member.timeout (alone.timers.timer slot) := hwake'
      _ = op.wake p.member.timeout (site.timers.timer p.slot) := by
        rw [hop.wake_eq]
        exact congrArg _ h.timer
      _ = (p.apply site.timers op).2.timer p.slot := hwake.symm
  · rw [hslot]
    exact h.told

/-- No expiry has told of a slot that is yet to be given out. -/
theorem twins_openAt {C : Type} (hs : Orderly longest b site) (ha : Orderly longest b' alone)
    (hticks : alone.taken.length = site.taken.length) (hb : b < s) (hb' : b' < s) (k n : Nat)
    (settings : Settings) (table : Table C) (ctx : C) :
    Twins (site.openAt ⟨b, hb⟩ k n settings table ctx)
      (alone.openAt ⟨b', hb'⟩ k n settings table ctx)
      (.built (opened n settings table ⟨b, hb⟩) ctx)
      (.built (opened n settings table ⟨b', hb'⟩) ctx) := by
  refine ⟨rfl, ?_, ?_⟩
  · exact (timer_openAt_self ..).trans (timer_openAt_self ..).symm
  · refine (ha.told_of_le (Nat.le_refl b')).trans ?_
    rw [hticks]
    exact (hs.told_of_le (Nat.le_refl b)).symm

/-- What a site after `b` valid constructions has in common with the part of it that
concerns the channel `k`, after `b'` of them. -/
structure Mirrors (k b b' : Nat) (site alone : Site s) : Prop where
  ticks : alone.taken.length = site.taken.length
  absent : site.party? k = none → s ≤ b ∨ (alone.party? k = none ∧ b' = 0)
  present : ∀ p, site.party? k = some p → ∃ p', alone.party? k = some p' ∧ Twins site alone p p'

theorem Mirrors.undisturbed (h : Mirrors k b b' site alone) (hs : Undisturbed site site' k)
    (ha : Undisturbed alone alone' k) {c c' : Nat} (hc : b ≤ c)
    (hc' : site.party? k = none → c' = b') : Mirrors k c c' site' alone' := by
  refine ⟨?_, fun hnone => ?_, fun p hp => ?_⟩
  · rw [hs.taken, ha.taken, h.ticks]
  · rw [hs.party] at hnone
    rw [ha.party, hc' hnone]
    exact (h.absent hnone).imp_left hc.trans'
  · rw [hs.party] at hp
    obtain ⟨p', hp', ht⟩ := h.present p hp
    exact ⟨p', ha.party.trans hp', ht.undisturbed hp hp' hs ha⟩

theorem Mirrors.call (h : Mirrors k b b' site alone) (hs : Orderly longest b site)
    (ha : Orderly longest b' alone) {op op' : Op s}
    (hop : ∀ p p', Twins site alone p p' → op.Alike p.slot p'.slot op') :
    Mirrors k b b' (site.call k op) (alone.call k op') := by
  cases hold : site.party? k with
  | some p =>
    obtain ⟨p', hp', ht⟩ := h.present p hold
    obtain ⟨q, q', hq, hq', ht'⟩ := ht.call hs ha hold hp' (hop p p' ht)
    refine ⟨?_, fun hnone => ?_, fun p₁ hp₁ => ?_⟩
    · rw [taken_call, taken_call, h.ticks]
    · rw [hq] at hnone
      cases hnone
    · obtain rfl : q = p₁ := Option.some.inj (hq.symm.trans hp₁)
      exact ⟨q', hq', ht'⟩
  | none =>
    rw [call_none hold]
    refine ⟨?_, fun _ => ?_, fun p hp => ?_⟩
    · rw [taken_call, h.ticks]
    · refine (h.absent hold).imp_right fun hn => ?_
      rwa [call_none hn.1]
    · rw [hold] at hp
      cases hp

theorem Mirrors.expire (h : Mirrors k b b' site alone) (hs : Orderly longest b site)
    (ha : Orderly longest b' alone) (now : UInt32) :
    Mirrors k b b' (site.step (.expire now)) (alone.step (.expire now)) := by
  refine ⟨?_, h.absent, fun p hp => ?_⟩
  · simp only [step, List.length_append, h.ticks, List.length_singleton]
  · obtain ⟨p', hp', ht⟩ := h.present p hp
    exact ⟨p', hp', ht.expire hs ha now⟩

theorem Mirrors.build {C : Type} (h : Mirrors k b b' site alone) (hs : Orderly longest b site)
    (ha : Orderly longest b' alone) (n : Nat) (settings : Settings) (table : Table C) (ctx : C) :
    Mirrors k (b + [Act.build k n settings table ctx].countP (Act.isValid (s := s) longest))
      (b' + [Act.build k n settings table ctx].countP (Act.isValid (s := s) longest))
      (site.step (.build k n settings table ctx)) (alone.step (.build k n settings table ctx)) := by
  cases hold : site.party? k with
  | some p =>
    obtain ⟨p', hp', -⟩ := h.present p hold
    have hin : site.party? k ≠ none := by simp [hold]
    have hin' : alone.party? k ≠ none := by simp [hp']
    exact h.undisturbed (undisturbed_build hs (fun _ => hin) n settings table ctx)
      (undisturbed_build ha (fun _ => hin') n settings table ctx) (Nat.le_add_right _ _)
      fun hn => absurd hn hin
  | none =>
    have hbs := hs.builds k n settings table ctx
    have hba := ha.builds k n settings table ctx
    generalize site.step (.build k n settings table ctx) = site' at hbs
    generalize alone.step (.build k n settings table ctx) = alone' at hba
    have hticks : alone'.taken.length = site'.taken.length := by rw [hba.taken, hbs.taken, h.ticks]
    -- Once no timer is left, the channel never comes to be, whatever its part does.
    by_cases hfull : s ≤ b
    · cases hbs with
      | opens _ _ hb => exact absurd hb (Nat.not_lt.mpr hfull)
      | fails =>
        refine ⟨hticks, fun _ => .inl (Nat.le_add_right_of_le hfull), fun p hp => ?_⟩
        rw [hold] at hp
        cases hp
    · obtain ⟨hnone, rfl⟩ := (h.absent hold).resolve_left hfull
      cases hbs with
      | fails hno =>
        cases hba with
        | opens hv hfit => exact absurd (hno hv hfit) hfull
        | fails =>
          have hinvalid :
              [Act.build k n settings table ctx].countP (Act.isValid (s := s) longest) = 0 := by
            simpa [Act.isValid] using fun hv hfit => hfull (hno hv hfit)
          exact h.undisturbed (.refl site k) (.refl alone k) (Nat.le_add_right _ _)
            fun _ => by rw [hinvalid]
      | opens hv hfit hb =>
        cases hba with
        | fails hno => exact absurd (hno hv hfit) (Nat.not_le.mpr (Nat.zero_lt_of_lt hb))
        | opens _ _ h0 =>
          have hparty := party_openAt_self hold ⟨b, hb⟩ n settings table ctx
          refine ⟨hticks, fun hn => by simp [hparty] at hn, fun p hp => ?_⟩
          obtain rfl := Option.some.inj (hparty.symm.trans hp)
          exact ⟨_, party_openAt_self hnone ⟨0, h0⟩ n settings table ctx,
            twins_openAt hs ha h.ticks hb h0 k n settings table ctx⟩

theorem mirrors_step (h : Mirrors k b b' site alone) (hs : Orderly longest b site)
    (ha : Orderly longest b' alone) {a : Act s} (hown : a.concerns k = true) :
    Mirrors k (b + [a].countP (Act.isValid longest)) (b' + [a].countP (Act.isValid longest))
      (site.step a) (alone.step a) := by
  cases a with
  | build k' n settings table ctx =>
    obtain rfl : k = k' := of_decide_eq_true hown
    exact h.build hs ha n settings table ctx
  | use k' op own =>
    obtain rfl : k = k' := of_decide_eq_true hown
    exact h.call hs ha fun _ _ _ => .same op own
  | handle k' j =>
    obtain rfl : k = k' := of_decide_eq_true hown
    simp only [step]
    cases he : site.taken[j]? with
    | none =>
      have he' : alone.taken[j]? = none := by
        rw [List.getElem?_eq_none_iff, h.ticks]
        exact List.getElem?_eq_none_iff.mp he
      rw [he']
      exact h
    | some e =>
      obtain ⟨hj, -⟩ := List.getElem?_eq_some_iff.mp he
      obtain ⟨e', he'⟩ : ∃ e', alone.taken[j]? = some e' :=
        ⟨_, List.getElem?_eq_getElem (h.ticks ▸ hj)⟩
      rw [he']
      refine h.call hs ha fun p p' ht => .expiry e e' ?_
      have htold := congrArg (fun told => told[j]?) ht.told
      simpa only [List.getElem?_map, he, he', Option.map_some, Option.some_inj] using htold
  | expire now => exact h.expire hs ha now

theorem mirrors_run (hs : Orderly longest 0 site) (hk : site.party? k = none)
    (acts : List (Act s)) :
    Mirrors k (acts.countP (Act.isValid longest))
      ((acts.filter (Act.concerns k)).countP (Act.isValid longest)) (site.run acts)
      (site.run (acts.filter (Act.concerns k))) := by
  induction acts using List.reverseRecOn with
  | nil => exact ⟨rfl, fun _ => .inr ⟨hk, rfl⟩, fun p hp => by simp [run, hk] at hp⟩
  | append_singleton acts a ih =>
    have ho := orderly_run hs acts
    have ho' := orderly_run hs (acts.filter (Act.concerns k))
    rw [Nat.zero_add] at ho ho'
    rw [run_snoc, List.filter_append, List.countP_append]
    cases ha : a.concerns k with
    | true =>
      rw [List.filter_cons_of_pos ha, List.filter_nil, run_snoc, List.countP_append]
      exact mirrors_step ih ho ho' ha
    | false =>
      rw [List.filter_cons_of_neg (by simp [ha]), List.filter_nil, List.append_nil]
      exact ih.undisturbed (undisturbed_step ho ha) (.refl _ k) (Nat.le_add_right _ _) fun _ => rfl

/-- Constructions that could have succeeded but for the timers. -/
def validBuilds (longest : UInt32) (acts : List (Act s)) : Nat :=
  acts.countP (Act.isValid (TimerQueue.new s longest).longest)

/-- Channels over one queue share the supply of timers and nothing else. -/
structure Isolated (longest : UInt32) (acts : List (Act s)) : Prop where
  /-- Every channel is as its own calls and the expiries alone would have made it. -/
  alike : ∀ k p, ((start s longest).run acts).party? k = some p →
    ∃ p', ((start s longest).run (acts.filter (Act.concerns k))).party? k = some p' ∧
      Twins ((start s longest).run acts) ((start s longest).run (acts.filter (Act.concerns k))) p p'
  apart : ∀ k k' p p', ((start s longest).run acts).party? k = some p →
    ((start s longest).run acts).party? k' = some p' → p.slot = p'.slot → k = k'
  holds : ∀ k p, ((start s longest).run acts).party? k = some p →
    p.slot ∈ ((start s longest).run acts).given
  given : ((start s longest).run acts).given = (List.finRange s).take (validBuilds longest acts)
  distinct : ((start s longest).run acts).given.Nodup
  /-- A slot is known by one octet. -/
  octets : s ≤ 256 →
    (((start s longest).run acts).given.map fun slot => UInt8.ofNat slot.val).Nodup
  spent : ∀ slot, (((start s longest).run acts).timers.timer slot).allocated = true ↔
    slot ∈ ((start s longest).run acts).given
  opens : ∀ {C : Type} (n : Nat) (settings : Settings) (table : Table C),
    (∃ r, Channel.new n settings table ((start s longest).run acts).timers = .ok r) ↔
      settings.validate (TimerQueue.new s longest).longest = .ok () ∧
        table.maxFrameLen settings.coverage ≤ n ∧ validBuilds longest acts < s

theorem isolated (longest : UInt32) (acts : List (Act s)) : Isolated longest acts := by
  have hstart := orderly_start s longest
  have h := orderly_run hstart acts
  rw [Nat.zero_add] at h
  refine ⟨fun k p hp => ?_, h.apart, fun k p hp => ?_, h.given, h.nodup_given, fun hs => ?_,
    h.allocated_iff, ?_⟩
  · exact (mirrors_run hstart rfl acts).present p hp
  · exact (h.mem_given p.slot).mpr (h.seated k p hp).below
  · refine h.nodup_given.map fun slot slot' he => Fin.ext ?_
    have hn := congrArg UInt8.toNat he
    rw [UInt8.toNat_ofNat', UInt8.toNat_ofNat'] at hn
    omega
  · intro C n settings table
    constructor
    · rintro ⟨r, hr⟩
      exact h.new_eq_ok hr
    · rintro ⟨hv, hfit, hb⟩
      exact ⟨_, h.new_of_lt hv hfit hb⟩

end CommandLink.Site
