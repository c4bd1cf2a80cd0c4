import CommandLink.Proofs.Timer.Slots

namespace CommandLink

deriving instance DecidableEq for Expiry

namespace TimerQueue

variable {s : Nat}

/-- The calls that change a queue of timers. -/
inductive Op (s : Nat) where
  | allocate
  | arm (slot : Fin s) (delay now : UInt32)
  | cancel (slot : Fin s) (now : UInt32)
  | expire (now : UInt32)

/-- What a call came to. -/
inductive Event (s : Nat) where
  | allocated (slot : Fin s)
  | armed (slot : Fin s) (delay now : UInt32)
  | refused (e : TimerError)
  | cancelled (slot : Fin s)
  | expired (now : UInt32) (e : Expiry s)
  deriving DecidableEq

namespace Event

/-- Whether the timer of a slot is set, stopped or taken by an event. -/
def touches (slot : Fin s) : Event s → Bool
  | .allocated slot' | .armed slot' _ _ | .cancelled slot' => slot' = slot
  | .refused _ => false
  | .expired _ e => e.contains slot

/-- Whether an event is a successful arm or a cancel of a slot. -/
def moves (slot : Fin s) : Event s → Bool
  | .armed slot' _ _ | .cancelled slot' => slot' = slot
  | .allocated _ | .refused _ | .expired _ _ => false

end Event

def apply (q : TimerQueue s) : Op s → Event s × TimerQueue s
  | .allocate =>
    match q.allocate with
    | .error e => (.refused e, q)
    | .ok (slot, q') => (.allocated slot, q')
  | .arm slot delay now =>
    match q.arm slot delay now with
    | .error e => (.refused e, q)
    | .ok q' => (.armed slot delay now, q')
  | .cancel slot now => (.cancelled slot, q.cancel slot now)
  | .expire now =>
    let (e, q') := q.expire now
    (.expired now e, q')

def run (q : TimerQueue s) : List (Op s) → List (Event s) × TimerQueue s
  | [] => ([], q)
  | op :: ops =>
    let (ev, q') := q.apply op
    let (evs, q'') := q'.run ops
    (ev :: evs, q'')

theorem run_cons (q : TimerQueue s) (op : Op s) (ops : List (Op s)) :
    q.run (op :: ops) =
      ((q.apply op).1 :: ((q.apply op).2.run ops).1, ((q.apply op).2.run ops).2) := rfl

theorem run_append (q : TimerQueue s) (ops ops' : List (Op s)) :
    q.run (ops ++ ops') =
      ((q.run ops).1 ++ ((q.run ops).2.run ops').1, ((q.run ops).2.run ops').2) := by
  induction ops generalizing q with
  | nil => rfl
  | cons op ops ih =>
    rw [List.cons_append, run_cons, run_cons, ih]
    rfl

theorem run_snoc (q : TimerQueue s) (ops : List (Op s)) (op : Op s) :
    q.run (ops ++ [op]) =
      ((q.run ops).1 ++ [((q.run ops).2.apply op).1], ((q.run ops).2.apply op).2) :=
  q.run_append ops [op]

/-- What a call does to one timer, and how the event that it comes to tells of it. -/
inductive Turn (q : TimerQueue s) (slot : Fin s) : Event s → Timer → Prop
  | untouched (ev : Event s) (h : ev.touches slot = false) (hm : ev.moves slot = false) :
    Turn q slot ev (q.timer slot)
  | allocated (hfree : (q.timer slot).allocated = false) :
    Turn q slot (.allocated slot) { allocated := true }
  | armed (delay now : UInt32) (hle : delay ≤ q.longest) :
    Turn q slot (.armed slot delay now) ((q.timer slot).arm delay now)
  | cancelled (now : UInt32) : Turn q slot (.cancelled slot) ((q.timer slot).cancel now)
  | fired (now : UInt32) (e : Expiry s)
    (he : e.generationOf? slot = some (q.timer slot).generation)
    (hd : (q.timer slot).isDue q.longest now = true) :
    Turn q slot (.expired now e) { q.timer slot with armed := false }

theorem turn (q : TimerQueue s) (op : Op s) (slot : Fin s) :
    Turn q slot (q.apply op).1 ((q.apply op).2.timer slot) := by
  cases op with
  | allocate =>
    rw [apply]
    cases ha : q.allocate with
    | error e => exact .untouched _ rfl rfl
    | ok r =>
      obtain ⟨slot', q'⟩ := r
      obtain ⟨hfree, rfl⟩ := allocate_eq_ok ha
      by_cases he : slot = slot'
      · subst he
        rw [timer_update_self]
        exact .allocated hfree
      · rw [timer_update_ne q he]
        exact .untouched _ (decide_eq_false (Ne.symm he)) rfl
  | arm slot' delay now =>
    rw [apply, arm]
    by_cases hlong : q.longest < delay
    · rw [if_pos hlong]
      exact .untouched _ rfl rfl
    · rw [if_neg hlong]
      by_cases he : slot = slot'
      · subst he
        rw [timer_update_self]
        exact .armed delay now (UInt32.not_lt.mp hlong)
      · rw [timer_update_ne q he]
        exact .untouched _ (decide_eq_false (Ne.symm he)) (decide_eq_false (Ne.symm he))
  | cancel slot' now =>
    rw [apply, cancel]
    by_cases he : slot = slot'
    · subst he
      rw [timer_update_self]
      exact .cancelled now
    · rw [timer_update_ne q he]
      exact .untouched _ (decide_eq_false (Ne.symm he)) (decide_eq_false (Ne.symm he))
  | expire now =>
    have hgen := generationOf?_expire q now slot
    rw [apply, timer_expire, Timer.expire]
    by_cases hd : (q.timer slot).isDue q.longest now = true
    · rw [if_pos hd] at hgen ⊢
      exact .fired now _ hgen hd
    · rw [if_neg hd] at hgen ⊢
      exact .untouched _ (by rw [Event.touches, Expiry.contains, hgen]; rfl) rfl

theorem longest_apply (q : TimerQueue s) (op : Op s) : (q.apply op).2.longest = q.longest := by
  cases op with
  | allocate =>
    rw [apply]
    cases ha : q.allocate with
    | error e => rfl
    | ok r =>
      obtain ⟨-, hq⟩ := allocate_eq_ok ha
      rw [hq]
      rfl
  | arm slot delay now =>
    by_cases hlong : q.longest < delay
    · rw [apply, arm, if_pos hlong]
    · rw [apply, arm, if_neg hlong]
      rfl
  | cancel | expire => rfl

theorem longest_run (q : TimerQueue s) (ops : List (Op s)) : (q.run ops).2.longest = q.longest := by
  induction ops generalizing q with
  | nil => rfl
  | cons op ops ih => exact (ih _).trans (q.longest_apply op)

/-- The latest arm of a slot, if nothing has happened to its timer since. -/
def Waiting (slot : Fin s) (evs : List (Event s)) (delay now : UInt32) : Prop :=
  ∃ before after, evs = before ++ .armed slot delay now :: after ∧
    ∀ ev ∈ after, ev.touches slot = false

theorem not_waiting_nil {slot : Fin s} {delay now : UInt32} : ¬Waiting slot [] delay now := by
  rintro ⟨before, after, heq, -⟩
  simp at heq

theorem waiting_snoc {slot : Fin s} {evs : List (Event s)} {ev : Event s} {delay now : UInt32} :
    Waiting slot (evs ++ [ev]) delay now ↔
      ev = .armed slot delay now ∨ ev.touches slot = false ∧ Waiting slot evs delay now := by
  constructor
  · rintro ⟨before, after, heq, hquiet⟩
    induction after using List.reverseRecOn with
    | nil =>
      have hlast := (List.append_inj' heq rfl).2
      exact .inl (List.singleton_inj.mp hlast)
    | append_singleton after last =>
      rw [← List.cons_append, ← List.append_assoc] at heq
      obtain ⟨hevs, hlast⟩ := List.append_inj' heq rfl
      rw [← List.singleton_inj.mp hlast] at hquiet
      exact .inr ⟨hquiet ev (by simp), before, after, hevs,
        fun ev' hm => hquiet ev' (List.mem_append_left _ hm)⟩
  · rintro (rfl | ⟨ht, before, after, rfl, hquiet⟩)
    · exact ⟨evs, [], rfl, fun _ hm => absurd hm List.not_mem_nil⟩
    · refine ⟨before, after ++ [ev], by simp, fun ev' hm => ?_⟩
      obtain hm | hm := List.mem_append.mp hm
      · exact hquiet ev' hm
      · rwa [List.mem_singleton.mp hm]

/-- A timer runs exactly as long as an arm of it waits, and towards the deadline
that the arm has set. -/
structure Follows (q : TimerQueue s) (slot : Fin s) (evs : List (Event s)) : Prop where
  waiting : (q.timer slot).armed = true → ∃ delay now, Waiting slot evs delay now
  running : ∀ delay now, Waiting slot evs delay now →
    (q.timer slot).armed = true ∧ (q.timer slot).deadline = now + delay ∧ delay ≤ q.longest

theorem follows_step {q : TimerQueue s} {slot : Fin s} {evs : List (Event s)}
    (h : Follows q slot evs) (op : Op s) :
    Follows (q.apply op).2 slot (evs ++ [(q.apply op).1]) := by
  -- The last event alone decides: it is an arm of the slot, or leaves what waits as it was.
  have ht := q.turn op slot
  have hlong := q.longest_apply op
  generalize (q.apply op).1 = ev at ht
  generalize (q.apply op).2 = q' at ht hlong
  constructor
  · intro harmed
    generalize hu : q'.timer slot = t at ht harmed
    cases ht with
    | untouched _ hquiet _ =>
      obtain ⟨delay, now, hw⟩ := h.waiting harmed
      exact ⟨delay, now, waiting_snoc.mpr (.inr ⟨hquiet, hw⟩)⟩
    | armed delay now _ => exact ⟨delay, now, waiting_snoc.mpr (.inl rfl)⟩
    | allocated | cancelled | fired => cases harmed
  · intro delay now hw
    rw [hlong]
    generalize q'.timer slot = t at ht ⊢
    obtain rfl | ⟨hquiet, hw⟩ := waiting_snoc.mp hw
    · cases ht with
      | untouched _ hquiet _ => simp [Event.touches] at hquiet
      | armed _ _ hle => exact ⟨rfl, rfl, hle⟩
    · cases ht with
      | untouched => exact h.running delay now hw
      | allocated | armed | cancelled => simp [Event.touches] at hquiet
      | fired now' e he _ => simp [Event.touches, Expiry.contains, he] at hquiet

theorem follows_run {q : TimerQueue s} {slot : Fin s} {evs : List (Event s)}
    (h : Follows q slot evs) (ops : List (Op s)) :
    Follows (q.run ops).2 slot (evs ++ (q.run ops).1) := by
  induction ops generalizing q evs with
  | nil => rwa [run, List.append_nil]
  | cons op ops ih =>
    have hnext := ih (follows_step h op)
    rwa [List.append_assoc] at hnext

/-- A timer that does not run needs no past. -/
theorem follows_nil {q : TimerQueue s} {slot : Fin s} (h : (q.timer slot).armed = false) :
    Follows q slot [] where
  waiting harmed := by rw [h] at harmed; cases harmed
  running _ _ hw := absurd hw not_waiting_nil

theorem timer_new (s : Nat) (longest : UInt32) (slot : Fin s) : (new s longest).timer slot = {} :=
  Vector.getElem_replicate slot.isLt

end TimerQueue

end CommandLink
