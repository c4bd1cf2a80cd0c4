import CommandLink.Proofs.Channel.Session
import CommandLink.Proofs.Timer.Slots

namespace CommandLink

/-- The time at which an operation brings octets. -/
def Op.arrival? {s : Nat} : Op s → Option UInt32
  | .receive bs now => if bs.isEmpty then none else some now
  | .receiveByte _ now => some now
  | _ => none

namespace Session

variable {C : Type} {n s : Nat}

/-- What an operation does to the timers, beside what it leaves in the input. -/
inductive Wakes (ses ses' : Session C n s) (timers timers' : TimerQueue s)
    (arrival? : Option UInt32) : Prop
  | armed (now : UInt32) (ha : arrival? = some now)
    (ht : timers' = timers.update ses.channel.slot fun t =>
      t.arm ses.channel.settings.idleTimeout now)
  | idle (ha : arrival? = none) (ht : timers' = timers)
    (hrx : ses'.channel.rx.len ≤ ses.channel.rx.len)
  | cancelled (now : UInt32) (ha : arrival? = none)
    (ht : timers' = timers.cancel ses.channel.slot now) (hrx : ses'.channel.rx.len = 0)

theorem apply_wakes {ses : Session C n s} (h : ses.channel.Inv) {timers : TimerQueue s}
    (hfit : ses.channel.settings.idleTimeout ≤ timers.longest) (op : Op s) :
    Wakes ses (ses.apply timers op).1 timers (ses.apply timers op).2 op.arrival? := by
  have harm := Channel.rearm_eq hfit
  cases op with
  | receive bs now =>
    cases bs with
    | nil => exact .idle rfl rfl (Nat.le_refl _)
    | cons b bs => exact .armed now rfl (harm now)
  | receiveByte b now => exact .armed now rfl (harm now)
  | process => exact .idle rfl rfl (len_process_le ses)
  | processAll => exact .idle rfl rfl (len_processAll_le ses)
  | handleExpired e =>
    apply Wakes.idle rfl rfl
    simp only [apply]
    rcases Channel.handleExpired_cases ses.channel timers e with he | ⟨_, _, -, -, he⟩ <;>
      rw [he]
    exact Nat.zero_le _
  | resync now => exact .cancelled now rfl rfl rfl
  | pump canWrite write st =>
    obtain ⟨moved, tx', wire', st', sent, hpump, hm⟩ :=
      Script.pump_wired canWrite write h.free h.tx ses.wire st
    apply Wakes.idle rfl rfl
    simp only [apply, hpump]
    exact Nat.le_refl _

variable {ses ses' : Session C n s} {timers timers' : TimerQueue s} {arrival? : Option UInt32}

theorem Wakes.longest (h : Wakes ses ses' timers timers' arrival?) :
    timers'.longest = timers.longest := by
  cases h with
  | armed _ _ ht | cancelled _ _ ht => rw [ht]; rfl
  | idle _ ht => rw [ht]

/-- A channel touches no timer but its own. -/
theorem Wakes.elsewhere (h : Wakes ses ses' timers timers' arrival?) {slot : Fin s}
    (hne : slot ≠ ses.channel.slot) : timers'.timer slot = timers.timer slot := by
  cases h with
  | armed _ _ ht | cancelled _ _ ht => rw [ht]; exact TimerQueue.timer_update_ne timers hne _
  | idle _ ht => rw [ht]

theorem Wakes.allocated (h : Wakes ses ses' timers timers' arrival?) (slot : Fin s) :
    (timers'.timer slot).allocated = (timers.timer slot).allocated := by
  by_cases he : slot = ses.channel.slot
  · subst he
    cases h with
    | armed _ _ ht | cancelled _ _ ht => rw [ht]; simp [TimerQueue.cancel, Timer.arm, Timer.cancel]
    | idle _ ht => rw [ht]
  · rw [h.elsewhere he]

end Session

/-- A channel among others, with an application and a capacity of its own. -/
structure Member (s : Nat) where
  {Context : Type}
  {size : Nat}
  session : Session Context size s

namespace Member

variable {s : Nat}

def slot (m : Member s) : Fin s := m.session.channel.slot

def timeout (m : Member s) : UInt32 := m.session.channel.settings.idleTimeout

/-- Octets that wait in the input. -/
def waiting (m : Member s) : Nat := m.session.channel.rx.len

/-- What a member is after an event: the one that was built, still in order. -/
structure Kept (m m' : Member s) : Prop where
  slot : m'.slot = m.slot
  timeout : m'.timeout = m.timeout
  inv : m'.session.channel.Inv

theorem Kept.refl {m : Member s} (h : m.session.channel.Inv) : m.Kept m := ⟨rfl, rfl, h⟩

def apply (m : Member s) (timers : TimerQueue s) (op : Op s) : Member s × TimerQueue s :=
  let (session, timers') := m.session.apply timers op
  (⟨session⟩, timers')

theorem apply_kept {m : Member s} (h : m.session.channel.Inv) (timers : TimerQueue s) (op : Op s) :
    m.Kept (m.apply timers op).1 := by
  have hk := Session.apply_kept h timers op
  exact ⟨hk.slot, congrArg Settings.idleTimeout hk.settings, hk.inv⟩

end Member

/-- What happens to a queue of timers and the channels over it. An expiry that is
handed to a channel is any expiry at all, wherever and whenever it was taken. -/
inductive Event (s : Nat) : Type 1
  | build {C : Type} (n : Nat) (settings : Settings) (table : Table C) (ctx : C)
  | use (i : Nat) (op : Op s)
  | expire (now : UInt32)
  | allocate
  | arm (slot : Fin s) (delay now : UInt32)
  | cancel (slot : Fin s) (now : UInt32)

/-- The time at which an event brings octets to the channel `i`. -/
def Event.arrival? {s : Nat} (i : Nat) : Event s → Option UInt32
  | .use j op => if j = i then op.arrival? else none
  | _ => none

structure System (s : Nat) where
  timers : TimerQueue s
  members : List (Member s) := []

namespace System

variable {s : Nat}

def member? (sys : System s) (i : Nat) : Option (Member s) := sys.members[i]?

def owns (sys : System s) (slot : Fin s) : Bool := sys.members.any fun m => m.slot = slot

/-- A timer of a channel is armed and cancelled by that channel only. -/
def step (sys : System s) : Event s → System s
  | .build n settings table ctx =>
    match Channel.new n settings table sys.timers with
    | .ok (ch, timers) => ⟨timers, sys.members ++ [⟨⟨ch, ctx, [], []⟩⟩]⟩
    | .error _ => sys
  | .use i op =>
    match sys.member? i with
    | some m =>
      let (m', timers) := m.apply sys.timers op
      ⟨timers, sys.members.set i m'⟩
    | none => sys
  | .expire now => { sys with timers := (sys.timers.expire now).2 }
  | .allocate =>
    match sys.timers.allocate with
    | .ok (_, timers) => { sys with timers }
    | .error _ => sys
  | .arm slot delay now =>
    match sys.owns slot, sys.timers.arm slot delay now with
    | false, .ok timers => { sys with timers }
    | _, _ => sys
  | .cancel slot now =>
    if sys.owns slot then sys else { sys with timers := sys.timers.cancel slot now }

def run (sys : System s) (evs : List (Event s)) : System s := evs.foldl step sys

theorem run_snoc (sys : System s) (evs : List (Event s)) (ev : Event s) :
    sys.run (evs ++ [ev]) = (sys.run evs).step ev := List.foldl_concat _ _ _ _

/-- What holds of a system from its start on. -/
structure Sound (sys : System s) : Prop where
  inv : ∀ i m, sys.member? i = some m → m.session.channel.Inv
  timeout : ∀ i m, sys.member? i = some m → m.timeout ≤ sys.timers.longest
  allocated : ∀ i m, sys.member? i = some m → (sys.timers.timer m.slot).allocated = true
  apart : ∀ i j m m', sys.member? i = some m → sys.member? j = some m' →
    m.slot = m'.slot → i = j

theorem sound_new (s : Nat) (longest : UInt32) : Sound ⟨.new s longest, []⟩ := by
  have hnone (i : Nat) (m : Member s) :
      (⟨.new s longest, []⟩ : System s).member? i ≠ some m := by simp [member?]
  exact ⟨fun i m h => absurd h (hnone i m), fun i m h => absurd h (hnone i m),
    fun i m h => absurd h (hnone i m), fun i _ m _ h => absurd h (hnone i m)⟩

/-- The ways in which a system can change. -/
inductive Turn (sys : System s) (ev : Event s) : System s → Prop
  | joined (m : Member s) (hinv : m.session.channel.Inv) (hrx : m.waiting = 0)
    (hT : m.timeout ≤ sys.timers.longest) (hfree : (sys.timers.timer m.slot).allocated = false)
    (ha : ∀ i, ev.arrival? i = none) :
    Turn sys ev ⟨sys.timers.update m.slot fun _ => { allocated := true }, sys.members ++ [m]⟩
  | used (i : Nat) (op : Op s) (m : Member s) (hm : sys.member? i = some m)
    (hev : ev = .use i op) :
    Turn sys ev ⟨(m.apply sys.timers op).2, sys.members.set i (m.apply sys.timers op).1⟩
  | ticked (now : UInt32) (hev : ev = .expire now) :
    Turn sys ev ⟨(sys.timers.expire now).2, sys.members⟩
  | elsewhere (slot : Fin s) (f : Timer → Timer)
    (hne : ∀ i m, sys.member? i = some m → m.slot ≠ slot) (ha : ∀ i, ev.arrival? i = none) :
    Turn sys ev ⟨sys.timers.update slot f, sys.members⟩
  | idle (ha : ∀ i m, sys.member? i = some m → ev.arrival? i = none) : Turn sys ev sys

theorem Sound.slot_ne_of_free {sys : System s} (h : Sound sys) {slot : Fin s}
    (hfree : (sys.timers.timer slot).allocated = false) (i : Nat) (m : Member s)
    (hm : sys.member? i = some m) : m.slot ≠ slot := by
  rintro rfl
  rw [h.allocated i m hm] at hfree
  cases hfree

theorem slot_ne_of_owns {sys : System s} {slot : Fin s} (h : sys.owns slot = false) (i : Nat)
    (m : Member s) (hm : sys.member? i = some m) : m.slot ≠ slot := by
  rintro rfl
  have hn := List.any_eq_false.mp h m (List.mem_of_getElem? hm)
  simp at hn

theorem turn {sys : System s} (h : Sound sys) (ev : Event s) : Turn sys ev (sys.step ev) := by
  cases ev with
  | build n settings table ctx =>
    simp only [step]
    cases hnew : Channel.new n settings table sys.timers with
    | error e => exact .idle fun _ _ _ => rfl
    | ok r =>
      obtain ⟨ch, timers⟩ := r
      have hinv := Channel.inv_new hnew
      obtain ⟨hv, -, slot, ha, rfl⟩ := Channel.new_eq_ok hnew
      obtain ⟨hfree, rfl⟩ := TimerQueue.allocate_eq_ok ha
      exact .joined ⟨⟨_, ctx, [], []⟩⟩ hinv rfl (Settings.idleTimeout_le hv) hfree fun _ => rfl
  | use i op =>
    simp only [step]
    cases hm : sys.member? i with
    | some m => exact .used i op m hm rfl
    | none =>
      refine .idle fun j m hj => if_neg ?_
      rintro rfl
      rw [hm] at hj
      cases hj
  | expire now => exact .ticked now rfl
  | allocate =>
    simp only [step]
    cases ha : sys.timers.allocate with
    | error e => exact .idle fun _ _ _ => rfl
    | ok r =>
      obtain ⟨slot, timers⟩ := r
      obtain ⟨hfree, rfl⟩ := TimerQueue.allocate_eq_ok ha
      exact .elsewhere slot _ (h.slot_ne_of_free hfree) fun _ => rfl
  | arm slot delay now =>
    simp only [step]
    cases ho : sys.owns slot with
    | true => exact .idle fun _ _ _ => rfl
    | false =>
      simp only [TimerQueue.arm]
      split
      · next hn =>
        split at hn
        · cases hn
        · cases hn
          exact .elsewhere slot _ (slot_ne_of_owns ho) fun _ => rfl
      · exact .idle fun _ _ _ => rfl
  | cancel slot now =>
    simp only [step]
    split
    · exact .idle fun _ _ _ => rfl
    · next ho =>
      exact .elsewhere slot _ (slot_ne_of_owns (Bool.eq_false_iff.mpr ho)) fun _ => rfl

theorem member?_append {sys : System s} {timers : TimerQueue s} {m m' : Member s} {i : Nat}
    (h : member? ⟨timers, sys.members ++ [m]⟩ i = some m') :
    sys.member? i = some m' ∨ (i = sys.members.length ∧ m' = m) := by
  rw [member?, List.getElem?_append] at h
  split at h
  · exact .inl h
  · next hle =>
    rw [List.getElem?_singleton] at h
    split at h
    · cases h
      exact .inr ⟨by omega, rfl⟩
    · cases h

theorem member?_set {sys : System s} {timers : TimerQueue s} {m m' : Member s} {i j : Nat}
    (h : member? ⟨timers, sys.members.set i m⟩ j = some m') :
    (j ≠ i ∧ sys.member? j = some m') ∨ (j = i ∧ m' = m) := by
  rw [member?, List.getElem?_set] at h
  split at h
  · next he =>
    split at h
    · cases h
      exact .inr ⟨he.symm, rfl⟩
    · cases h
  · next hne => exact .inl ⟨Ne.symm hne, h⟩

/-- Soundness carries over to a system whose members are the old ones with the
same slots and timeouts. -/
theorem Sound.of_kept {sys sys' : System s} (h : Sound sys)
    (hl : sys'.timers.longest = sys.timers.longest)
    (ha : ∀ i m, sys.member? i = some m →
      (sys'.timers.timer m.slot).allocated = (sys.timers.timer m.slot).allocated)
    (hm : ∀ i m', sys'.member? i = some m' → ∃ m, sys.member? i = some m ∧ m.Kept m') :
    Sound sys' := by
  refine ⟨fun i m' hm' => ?_, fun i m' hm' => ?_, fun i m' hm' => ?_, fun i j m₁ m₂ h₁ h₂ he => ?_⟩
  · obtain ⟨m, -, hk⟩ := hm i m' hm'
    exact hk.inv
  · obtain ⟨m, hi, hk⟩ := hm i m' hm'
    rw [hk.timeout, hl]
    exact h.timeout i m hi
  · obtain ⟨m, hi, hk⟩ := hm i m' hm'
    rw [hk.slot, ha i m hi]
    exact h.allocated i m hi
  · obtain ⟨m, hi, hk⟩ := hm i m₁ h₁
    obtain ⟨m', hj, hk'⟩ := hm j m₂ h₂
    exact h.apart i j m m' hi hj (by rw [← hk.slot, ← hk'.slot, he])

theorem sound_step {sys : System s} (h : Sound sys) (ev : Event s) : Sound (sys.step ev) := by
  have ht := turn h ev
  generalize sys.step ev = sys' at ht
  cases ht with
  | joined m hinv hrx hT hfree ha =>
    have hne := h.slot_ne_of_free hfree
    have hmem {i : Nat} {m' : Member s}
        (hm' : member? ⟨sys.timers.update m.slot fun _ => { allocated := true },
          sys.members ++ [m]⟩ i = some m') := member?_append hm'
    refine ⟨fun i m' hm' => ?_, fun i m' hm' => ?_, fun i m' hm' => ?_,
      fun i j m₁ m₂ h₁ h₂ he => ?_⟩
    · obtain hm' | ⟨-, rfl⟩ := hmem hm'
      · exact h.inv i m' hm'
      · exact hinv
    · obtain hm' | ⟨-, rfl⟩ := hmem hm'
      · exact h.timeout i m' hm'
      · exact hT
    · obtain hm' | ⟨-, rfl⟩ := hmem hm'
      · rw [TimerQueue.timer_update_ne _ (hne i m' hm')]
        exact h.allocated i m' hm'
      · simp
    · obtain h₁ | ⟨hi, hm₁⟩ := hmem h₁
      · obtain h₂ | ⟨-, hm₂⟩ := hmem h₂
        · exact h.apart i j m₁ m₂ h₁ h₂ he
        · exact absurd (hm₂ ▸ he) (hne i m₁ h₁)
      · obtain h₂ | ⟨hj, -⟩ := hmem h₂
        · exact absurd (hm₁ ▸ he.symm) (hne j m₂ h₂)
        · rw [hi, hj]
  | used i op m hm hev =>
    have hw := Session.apply_wakes (h.inv i m hm) (h.timeout i m hm) op
    apply h.of_kept hw.longest (fun _ m' _ => hw.allocated m'.slot)
    intro j m' hm'
    obtain ⟨-, hj⟩ | ⟨rfl, rfl⟩ := member?_set hm'
    · exact ⟨m', hj, .refl (h.inv j m' hj)⟩
    · exact ⟨m, hm, Member.apply_kept (h.inv j m hm) sys.timers op⟩
  | ticked now hev =>
    refine h.of_kept rfl ?_ fun i m hm => ⟨m, hm, .refl (h.inv i m hm)⟩
    intro i m hm
    rw [TimerQueue.timer_expire, Timer.expire]
    split <;> rfl
  | elsewhere slot f hne ha =>
    refine h.of_kept rfl ?_ fun i m hm => ⟨m, hm, .refl (h.inv i m hm)⟩
    intro i m hm
    rw [TimerQueue.timer_update_ne _ (hne i m hm)]
  | idle ha => exact h

theorem sound_run {sys : System s} (h : Sound sys) (evs : List (Event s)) :
    Sound (sys.run evs) := by
  induction evs using List.reverseRecOn with
  | nil => exact h
  | append_singleton evs ev ih =>
    rw [run_snoc]
    exact sound_step ih ev

/-- What an event does to a channel and its timer, whoever it is meant for. -/
inductive Passes (sys : System s) (ev : Event s) (i : Nat) (m' : Member s) : Prop
  | empty (hrx : m'.waiting = 0)
  | armed (m : Member s) (now : UInt32) (hm : sys.member? i = some m) (hk : m.Kept m')
    (ha : ev.arrival? i = some now)
    (ht : (sys.step ev).timers.timer m'.slot = (sys.timers.timer m'.slot).arm m'.timeout now)
  | idle (m : Member s) (hm : sys.member? i = some m) (hk : m.Kept m')
    (ha : ev.arrival? i = none) (hrx : m'.waiting ≤ m.waiting)
    (ht : (sys.step ev).timers.timer m'.slot = sys.timers.timer m'.slot)
  | ticked (now : UInt32) (hm : sys.member? i = some m') (hev : ev = .expire now)
    (ht : (sys.step ev).timers.timer m'.slot =
      (sys.timers.timer m'.slot).expire sys.timers.longest now)

theorem passes {sys : System s} (h : Sound sys) {ev : Event s} {i : Nat} {m' : Member s}
    (hm' : (sys.step ev).member? i = some m') : Passes sys ev i m' := by
  have hold (hm : sys.member? i = some m') (ha : ev.arrival? i = none)
      (ht : (sys.step ev).timers.timer m'.slot = sys.timers.timer m'.slot) :
      Passes sys ev i m' := .idle m' hm (.refl (h.inv i m' hm)) ha (Nat.le_refl _) ht
  have hturn := turn h ev
  generalize hstep : sys.step ev = sys' at hm' hturn
  rw [hstep] at hold
  cases hturn with
  | joined m hinv hrx hT hfree ha =>
    obtain hm | ⟨-, rfl⟩ := member?_append hm'
    · have hne := h.slot_ne_of_free hfree i m' hm
      exact hold hm (ha i) (TimerQueue.timer_update_ne _ hne _)
    · exact .empty hrx
  | used j op m hm hev =>
    have hw := Session.apply_wakes (h.inv j m hm) (h.timeout j m hm) op
    have hk := Member.apply_kept (h.inv j m hm) sys.timers op
    obtain ⟨hij, hi⟩ | ⟨rfl, rfl⟩ := member?_set hm'
    · refine hold hi (hev ▸ if_neg (Ne.symm hij)) (hw.elsewhere fun he => hij ?_)
      exact h.apart i j m' m hi hm he
    · have ha : ev.arrival? i = op.arrival? := hev ▸ if_pos rfl
      cases hw with
      | armed now hop ht =>
        refine .armed m now hm hk (ha.trans hop) ?_
        rw [hstep, hk.slot, hk.timeout]
        exact (congrArg (·.timer m.slot) ht).trans (TimerQueue.timer_update_self _ _ _)
      | idle hop ht hrx =>
        refine .idle m hm hk (ha.trans hop) hrx ?_
        rw [hstep, hk.slot]
        exact congrArg (·.timer m.slot) ht
      | cancelled now hop ht hrx => exact .empty hrx
  | ticked now hev =>
    refine .ticked now hm' hev ?_
    rw [hstep]
    exact TimerQueue.timer_expire sys.timers now m'.slot
  | elsewhere slot f hne ha =>
    exact hold hm' (ha i) (TimerQueue.timer_update_ne _ (hne i m' hm') f)
  | idle ha => exact hold hm' (ha i m' hm') rfl

end System

end CommandLink
