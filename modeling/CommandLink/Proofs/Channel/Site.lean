import CommandLink.Proofs.Channel.Relocate

namespace CommandLink

/-- Calls over one queue of timers. A channel goes by the name that it is built
under, an expiry by its place among those taken from the queue. -/
inductive Act (s : Nat) : Type 1
  | build {C : Type} (k n : Nat) (settings : Settings) (table : Table C) (ctx : C)
  | use (k : Nat) (op : Op s) (own : op.expiry? = none)
  | handle (k j : Nat)
  | expire (now : UInt32)

namespace Act

variable {s : Nat}

def name? : Act s → Option Nat
  | .build k _ _ _ _ | .use k _ _ | .handle k _ => some k
  | .expire _ => none

/-- The calls that are meant for a channel or for the queue. -/
def concerns (k : Nat) (a : Act s) : Bool := a.name?.all (k = ·)

/-- A construction that fails, if at all, for want of a timer. -/
def isValid (longest : UInt32) : Act s → Bool
  | .build _ n settings table _ =>
    settings.validate longest = .ok () ∧ table.maxFrameLen settings.coverage ≤ n
  | _ => false

end Act

/-- A channel and all that its user was told. -/
structure Party (s : Nat) where
  member : Member s
  heard : List Answer := []

namespace Party

variable {s : Nat}

def slot (p : Party s) : Fin s := p.member.slot

def built {C : Type} {n : Nat} (ch : Channel C n s) (ctx : C) : Party s :=
  ⟨⟨⟨ch, ctx, [], []⟩⟩, []⟩

def apply (p : Party s) (timers : TimerQueue s) (op : Op s) : Party s × TimerQueue s :=
  let (member, timers') := p.member.apply timers op
  (⟨member, p.heard ++ [p.member.session.answer timers op]⟩, timers')

def atSlot (slot : Fin s) (p : Party s) : Party s := ⟨⟨p.member.session.atSlot slot⟩, p.heard⟩

theorem apply_atSlot {p : Party s} {slot : Fin s} {timers timers' : TimerQueue s}
    (ht : timers'.timer slot = timers.timer p.slot) {op op' : Op s}
    (h : op.Alike p.slot slot op') :
    ((p.atSlot slot).apply timers' op').1 = (p.apply timers op).1.atSlot slot := by
  have hseen : timers'.timer slot = timers.timer p.member.session.channel.slot := ht
  obtain ⟨hanswer, hstate⟩ := Session.apply_atSlot hseen h
  simp only [apply, Member.apply, atSlot, hanswer, hstate]

theorem timer_apply {p : Party s} {timers : TimerQueue s} (hfit : p.member.timeout ≤ timers.longest)
    (op : Op s) : (p.apply timers op).2.timer p.slot =
      op.wake p.member.timeout (timers.timer p.slot) :=
  Session.timer_apply hfit op

/-- What every channel of a site is after `b` valid constructions. -/
structure Seated (longest : UInt32) (b : Nat) (p : Party s) : Prop where
  inv : p.member.session.channel.Inv
  timeout : p.member.timeout ≤ longest
  below : p.slot.val < b

theorem Seated.mono {longest : UInt32} {b b' : Nat} {p : Party s} (h : p.Seated longest b)
    (hle : b ≤ b') : p.Seated longest b' := ⟨h.inv, h.timeout, Nat.lt_of_lt_of_le h.below hle⟩

theorem Seated.kept {longest : UInt32} {b : Nat} {p p' : Party s} (h : p.Seated longest b)
    (hk : p.member.Kept p'.member) : p'.Seated longest b := by
  refine ⟨hk.inv, ?_, ?_⟩
  · rw [hk.timeout]
    exact h.timeout
  · rw [slot, hk.slot]
    exact h.below

end Party

/-- A queue of timers, the channels over it and the expiries taken from it. -/
structure Site (s : Nat) where
  timers : TimerQueue s
  /-- The slots of the constructions that succeeded, in their order. -/
  given : List (Fin s) := []
  party? : Nat → Option (Party s) := fun _ => none
  taken : List (Expiry s) := []

namespace Site

variable {s : Nat}

def start (s : Nat) (longest : UInt32) : Site s := { timers := .new s longest }

def call (site : Site s) (k : Nat) (op : Op s) : Site s :=
  match site.party? k with
  | some p =>
    let (p', timers) := p.apply site.timers op
    { site with timers, party? := Function.update site.party? k (some p') }
  | none => site

/-- Enter a channel under a name. If the name is in use, nobody can call the new
channel, and its timer is spent. -/
def enroll (site : Site s) (timers : TimerQueue s) (k : Nat) (p : Party s) : Site s :=
  { site with
    timers, given := site.given ++ [p.slot]
    party? := Function.update site.party? k (some ((site.party? k).getD p)) }

def step (site : Site s) : Act s → Site s
  | .build k n settings table ctx =>
    match Channel.new n settings table site.timers with
    | .ok (ch, timers) => site.enroll timers k (.built ch ctx)
    | .error _ => site
  | .use k op _ => site.call k op
  | .handle k j =>
    match site.taken[j]? with
    | some e => site.call k (.handleExpired e)
    | none => site
  | .expire now =>
    { site with
      timers := (site.timers.expire now).2
      taken := site.taken ++ [(site.timers.expire now).1] }

def run (site : Site s) (acts : List (Act s)) : Site s := acts.foldl step site

theorem run_snoc (site : Site s) (acts : List (Act s)) (a : Act s) :
    site.run (acts ++ [a]) = (site.run acts).step a := List.foldl_concat _ _ _ _

/-- A site after `b` valid constructions. The timers are given out in their order,
and nothing ever happened to those that are left. -/
structure Orderly (longest : UInt32) (b : Nat) (site : Site s) : Prop where
  longest_eq : site.timers.longest = longest
  given : site.given = (List.finRange s).take b
  used : ∀ slot, slot.val < b → (site.timers.timer slot).allocated = true
  fresh : ∀ slot, b ≤ slot.val → site.timers.timer slot = {}
  unheard : ∀ slot, b ≤ slot.val → ∀ e ∈ site.taken, e.generationOf? slot = none
  seated : ∀ k p, site.party? k = some p → p.Seated longest b
  apart : ∀ k k' p p', site.party? k = some p → site.party? k' = some p' →
    p.slot = p'.slot → k = k'

variable {longest : UInt32} {b : Nat} {site : Site s}

theorem orderly_start (s : Nat) (longest : UInt32) :
    Orderly (TimerQueue.new s longest).longest 0 (start s longest) := by
  refine ⟨rfl, rfl, fun _ h => absurd h (Nat.not_lt_zero _), fun slot _ => ?_,
    fun _ _ e he => absurd he List.not_mem_nil, fun _ _ hp => ?_, fun _ _ _ _ hp => ?_⟩
  · exact Vector.getElem_replicate slot.isLt
  · cases hp
  · cases hp

theorem Orderly.mem_given (h : Orderly longest b site) (slot : Fin s) :
    slot ∈ site.given ↔ slot.val < b := by
  rw [h.given, List.mem_take_iff_getElem]
  constructor
  · rintro ⟨i, hi, rfl⟩
    rw [List.getElem_finRange]
    exact Nat.lt_of_lt_of_le hi (Nat.min_le_left _ _)
  · intro hb
    refine ⟨slot.val, ?_, List.getElem_finRange _⟩
    rw [List.length_finRange]
    exact Nat.lt_min.mpr ⟨hb, slot.isLt⟩

theorem Orderly.allocated_iff (h : Orderly longest b site) (slot : Fin s) :
    (site.timers.timer slot).allocated = true ↔ slot ∈ site.given := by
  rw [h.mem_given]
  refine ⟨fun ha => ?_, h.used slot⟩
  by_contra hb
  rw [h.fresh slot (Nat.le_of_not_lt hb)] at ha
  cases ha

theorem Orderly.nodup_given (h : Orderly longest b site) : site.given.Nodup := by
  rw [h.given]
  exact (List.take_sublist _ _).nodup (List.nodup_finRange s)

theorem Orderly.told_of_le (h : Orderly longest b site) {slot : Fin s} (hb : b ≤ slot.val) :
    site.taken.map (fun e => e.generationOf? slot) = List.replicate site.taken.length none := by
  rw [← List.map_const']
  exact List.map_congr_left (h.unheard slot hb)

section Construction

variable {C : Type} {n : Nat} {settings : Settings} {table : Table C}

/-- The channel that a construction gives. -/
def opened (n : Nat) (settings : Settings) (table : Table C) (slot : Fin s) : Channel C n s :=
  ⟨settings, table, slot, Ring.empty.setOverwrite settings.rxOverwrite, .empty, {}, false⟩

theorem Orderly.new_of_lt (h : Orderly longest b site) (hv : settings.validate longest = .ok ())
    (hfit : table.maxFrameLen settings.coverage ≤ n) (hb : b < s) :
    Channel.new n settings table site.timers =
      .ok (opened n settings table ⟨b, hb⟩,
        site.timers.update ⟨b, hb⟩ fun _ => { allocated := true }) := by
  have hfree : (site.timers.timer ⟨b, hb⟩).allocated = false := by
    rw [h.fresh ⟨b, hb⟩ (Nat.le_refl b)]
  exact Channel.new_of_allocate (by rw [h.longest_eq, hv]) hfit
    (TimerQueue.allocate_of_first hfree fun slot hlt => h.used slot hlt)

theorem Orderly.new_eq_ok (h : Orderly longest b site) {r : Channel C n s × TimerQueue s}
    (hnew : Channel.new n settings table site.timers = .ok r) :
    settings.validate longest = .ok () ∧ table.maxFrameLen settings.coverage ≤ n ∧ b < s := by
  obtain ⟨ch, timers⟩ := r
  obtain ⟨hv, hfit, slot, ha, -⟩ := Channel.new_eq_ok hnew
  refine ⟨by rw [← h.longest_eq, hv], hfit, ?_⟩
  by_contra hb
  have hfree := (TimerQueue.allocate_eq_ok ha).1
  rw [h.used slot (by omega)] at hfree
  cases hfree

end Construction

/-- When all timers are given out, a valid construction changes nothing. -/
theorem Orderly.of_full (h : Orderly longest b site) (hb : s ≤ b) {b' : Nat} (hle : b ≤ b') :
    Orderly longest b' site := by
  have hnone (slot : Fin s) : ¬b' ≤ slot.val := by omega
  refine ⟨h.longest_eq, ?_, fun slot _ => h.used slot (by omega), fun slot hs => ?_,
    fun slot hs => ?_, fun k p hp => (h.seated k p hp).mono hle, h.apart⟩
  · have hl : (List.finRange s).length = s := List.length_finRange
    rw [h.given, List.take_of_length_le (by omega), List.take_of_length_le (by omega)]
  · exact absurd hs (hnone slot)
  · exact absurd hs (hnone slot)

theorem orderly_call (h : Orderly longest b site) (k : Nat) (op : Op s) :
    Orderly longest b (site.call k op) := by
  rw [call]
  split
  · next p hp =>
    have hseat := h.seated k p hp
    have hw := Session.apply_wakes hseat.inv (h.longest_eq ▸ hseat.timeout) op
    have hk := Member.apply_kept hseat.inv site.timers op
    have hold {k' : Nat} {p' : Party s}
        (hp' : Function.update site.party? k (some (p.apply site.timers op).1) k' = some p') :
        ∃ p₀, site.party? k' = some p₀ ∧ p₀.member.Kept p'.member := by
      by_cases he : k' = k
      · subst he
        rw [Function.update_self, Option.some_inj] at hp'
        exact ⟨p, hp, hp' ▸ hk⟩
      · rw [Function.update_of_ne he] at hp'
        exact ⟨p', hp', .refl (h.seated k' p' hp').inv⟩
    refine ⟨hw.longest.trans h.longest_eq, h.given, fun slot hs => ?_, fun slot hs => ?_, h.unheard,
      fun k' p' hp' => ?_, fun k₁ k₂ p₁ p₂ h₁ h₂ he => ?_⟩
    · exact (hw.allocated slot).trans (h.used slot hs)
    · have hne : slot ≠ p.slot := by
        rintro rfl
        exact Nat.not_lt.mpr hs hseat.below
      exact (hw.elsewhere hne).trans (h.fresh slot hs)
    · obtain ⟨p₀, hp₀, hkept⟩ := hold hp'
      exact (h.seated k' p₀ hp₀).kept hkept
    · obtain ⟨q₁, hq₁, hk₁⟩ := hold h₁
      obtain ⟨q₂, hq₂, hk₂⟩ := hold h₂
      exact h.apart k₁ k₂ q₁ q₂ hq₁ hq₂ (hk₁.slot.symm.trans (he.trans hk₂.slot))
  · exact h

theorem orderly_expire (h : Orderly longest b site) (now : UInt32) :
    Orderly longest b (site.step (.expire now)) := by
  refine ⟨h.longest_eq, h.given, fun slot hs => ?_, fun slot hs => ?_, fun slot hs e he => ?_,
    h.seated, h.apart⟩
  · simp only [step, TimerQueue.timer_expire, Timer.expire]
    split
    · exact h.used slot hs
    · exact h.used slot hs
  · simp only [step, TimerQueue.timer_expire, h.fresh slot hs]
    rfl
  · obtain he | he := List.mem_append.mp he
    · exact h.unheard slot hs e he
    · rw [List.mem_singleton.mp he, TimerQueue.generationOf?_expire, h.fresh slot hs]
      rfl

theorem party_enroll_self (site : Site s) (timers : TimerQueue s) (k : Nat) (p : Party s) :
    (site.enroll timers k p).party? k = some ((site.party? k).getD p) :=
  Function.update_self _ _ _

theorem party_enroll_ne (site : Site s) (timers : TimerQueue s) {k k' : Nat} (h : k' ≠ k)
    (p : Party s) : (site.enroll timers k p).party? k' = site.party? k' :=
  Function.update_of_ne h _ _

theorem party_of_enroll {timers : TimerQueue s} {k k' : Nat} {p p' : Party s}
    (h : (site.enroll timers k p).party? k' = some p') :
    site.party? k' = some p' ∨ (k' = k ∧ p' = p) := by
  by_cases he : k' = k
  · subst he
    rw [party_enroll_self, Option.some_inj] at h
    cases hold : site.party? k' with
    | some p₀ =>
      rw [hold] at h
      exact .inl (congrArg some h)
    | none =>
      rw [hold] at h
      exact .inr ⟨rfl, h.symm⟩
  · rw [party_enroll_ne site timers he] at h
    exact .inl h

def openAt {C : Type} (site : Site s) (slot : Fin s) (k n : Nat) (settings : Settings)
    (table : Table C) (ctx : C) : Site s :=
  site.enroll (site.timers.update slot fun _ => { allocated := true }) k
    (.built (opened n settings table slot) ctx)

theorem timer_openAt_self {C : Type} (site : Site s) (slot : Fin s) (k n : Nat)
    (settings : Settings) (table : Table C) (ctx : C) :
    (site.openAt slot k n settings table ctx).timers.timer slot = { allocated := true } :=
  TimerQueue.timer_update_self _ _ _

theorem party_openAt_self {C : Type} {site : Site s} {k : Nat} (hk : site.party? k = none)
    (slot : Fin s) (n : Nat) (settings : Settings) (table : Table C) (ctx : C) :
    (site.openAt slot k n settings table ctx).party? k =
      some (.built (opened n settings table slot) ctx) := by
  rw [openAt, party_enroll_self, hk, Option.getD_none]

/-- A construction opens a channel at the first slot left or changes nothing. -/
inductive Builds {C : Type} (longest : UInt32) (b : Nat) (site : Site s) (k n : Nat)
    (settings : Settings) (table : Table C) (ctx : C) : Site s → Prop
  | opens (hv : settings.validate longest = .ok ()) (hfit : table.maxFrameLen settings.coverage ≤ n)
    (hb : b < s) :
    Builds longest b site k n settings table ctx (site.openAt ⟨b, hb⟩ k n settings table ctx)
  | fails (h : settings.validate longest = .ok () →
      table.maxFrameLen settings.coverage ≤ n → s ≤ b) :
    Builds longest b site k n settings table ctx site

theorem Builds.taken {C : Type} {k n : Nat} {settings : Settings} {table : Table C} {ctx : C}
    {site' : Site s} (h : Builds longest b site k n settings table ctx site') :
    site'.taken = site.taken := by
  cases h <;> rfl

theorem Orderly.builds {C : Type} (h : Orderly longest b site) (k n : Nat) (settings : Settings)
    (table : Table C) (ctx : C) :
    Builds longest b site k n settings table ctx (site.step (.build k n settings table ctx)) := by
  simp only [step]
  cases hnew : Channel.new n settings table site.timers with
  | error e =>
    refine .fails fun hv hfit => ?_
    by_contra hb
    rw [h.new_of_lt hv hfit (Nat.lt_of_not_le hb)] at hnew
    cases hnew
  | ok r =>
    obtain ⟨hv, hfit, hb⟩ := h.new_eq_ok hnew
    rw [h.new_of_lt hv hfit hb] at hnew
    cases hnew
    exact .opens hv hfit hb

theorem orderly_openAt {C : Type} (h : Orderly longest b site) (k : Nat) {n : Nat}
    {settings : Settings} {table : Table C} (ctx : C) (hv : settings.validate longest = .ok ())
    (hfit : table.maxFrameLen settings.coverage ≤ n) (hb : b < s) :
    Orderly longest (b + 1) (site.openAt ⟨b, hb⟩ k n settings table ctx) := by
  have hother {slot : Fin s} (hne : slot.val ≠ b) :
      (site.openAt ⟨b, hb⟩ k n settings table ctx).timers.timer slot = site.timers.timer slot :=
    TimerQueue.timer_update_ne _ (fun he => hne (congrArg Fin.val he)) _
  refine ⟨h.longest_eq, ?_, fun slot hs => ?_, fun slot hs => ?_, fun slot hs => ?_,
    fun k' p hp => ?_, fun k₁ k₂ p₁ p₂ h₁ h₂ he => ?_⟩
  · rw [List.take_add_one, ← h.given]
    simp [openAt, enroll, opened, Party.built, Party.slot, Member.slot, hb]
  · by_cases he : slot.val = b
    · obtain rfl : slot = ⟨b, hb⟩ := Fin.ext he
      rw [timer_openAt_self]
    · rw [hother he]
      exact h.used slot (by omega)
  · rw [hother (by omega)]
    exact h.fresh slot (by omega)
  · exact h.unheard slot (by omega)
  · obtain hold | ⟨-, rfl⟩ := party_of_enroll hp
    · exact (h.seated k' p hold).mono (Nat.le_succ b)
    · exact ⟨Channel.inv_new (h.new_of_lt hv hfit hb), Settings.idleTimeout_le hv,
        Nat.lt_succ_self b⟩
  · obtain hold₁ | ⟨rfl, rfl⟩ := party_of_enroll h₁
    · obtain hold₂ | ⟨rfl, rfl⟩ := party_of_enroll h₂
      · exact h.apart k₁ k₂ p₁ p₂ hold₁ hold₂ he
      · exact absurd (congrArg Fin.val he) (Nat.ne_of_lt (h.seated k₁ p₁ hold₁).below)
    · obtain hold₂ | ⟨rfl, rfl⟩ := party_of_enroll h₂
      · exact absurd (congrArg Fin.val he) (Nat.ne_of_gt (h.seated k₂ p₂ hold₂).below)
      · rfl

theorem orderly_step (h : Orderly longest b site) (a : Act s) :
    Orderly longest (b + [a].countP (Act.isValid longest)) (site.step a) := by
  cases a with
  | build k n settings table ctx =>
    have hbuilds := h.builds k n settings table ctx
    generalize site.step (.build k n settings table ctx) = site' at hbuilds
    cases hbuilds with
    | opens hv hfit hb =>
      have hvalid :
          [Act.build k n settings table ctx].countP (Act.isValid (s := s) longest) = 1 := by
        simp [Act.isValid, hv, hfit]
      rw [hvalid]
      exact orderly_openAt h k ctx hv hfit hb
    | fails hno =>
      by_cases hvalid : settings.validate longest = .ok () ∧
        table.maxFrameLen settings.coverage ≤ n
      · exact h.of_full (hno hvalid.1 hvalid.2) (Nat.le_add_right _ _)
      · rw [List.countP_singleton, Act.isValid, if_neg (by simpa using hvalid)]
        exact h
  | use k op own => exact orderly_call h k op
  | handle k j =>
    simp only [step]
    split
    · exact orderly_call h k _
    · exact h
  | expire now => exact orderly_expire h now

theorem orderly_run (h : Orderly longest b site) (acts : List (Act s)) :
    Orderly longest (b + acts.countP (Act.isValid longest)) (site.run acts) := by
  induction acts using List.reverseRecOn with
  | nil => exact h
  | append_singleton acts a ih =>
    rw [run_snoc, List.countP_append, ← Nat.add_assoc]
    exact orderly_step ih a

end Site

end CommandLink
