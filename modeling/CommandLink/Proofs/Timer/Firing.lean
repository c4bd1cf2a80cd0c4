import CommandLink.Proofs.Timer.History

namespace CommandLink.TimerQueue

variable {s : Nat}

/-- The loop over the slots that collects what fires, with a list that decides
by itself what a push onto it does. -/
def sweep (q : TimerQueue s)
    (push : List (Fin s × UInt16) → Fin s × UInt16 → List (Fin s × UInt16)) (now : UInt32) :
    List (Fin s × UInt16) :=
  (List.finRange s).foldl (fun fired slot => ((q.fired? now slot).map (push fired)).getD fired) []

theorem foldl_push {α β : Type} {cap : Nat} {push : List β → β → List β}
    (hpush : ∀ xs x, xs.length < cap → push xs x = xs ++ [x]) (f : α → Option β) (as : List α)
    (xs : List β) (hroom : xs.length + as.length ≤ cap) :
    as.foldl (fun xs a => ((f a).map (push xs)).getD xs) xs = xs ++ as.filterMap f := by
  induction as generalizing xs with
  | nil => exact (List.append_nil xs).symm
  | cons a as ih =>
    rw [List.length_cons] at hroom
    rw [List.foldl_cons, List.filterMap_cons]
    cases f a with
    | none => exact ih xs (by omega)
    | some x =>
      have hnext := ih (xs ++ [x]) (by rw [List.length_append, List.length_singleton]; omega)
      rw [List.append_assoc] at hnext
      rw [Option.map_some, Option.getD_some, hpush xs x (by omega)]
      exact hnext

/-- A list with room for one entry a slot takes everything that fires. -/
theorem sweep_eq (q : TimerQueue s)
    {push : List (Fin s × UInt16) → Fin s × UInt16 → List (Fin s × UInt16)}
    (hpush : ∀ fired entry, fired.length < s → push fired entry = fired ++ [entry])
    (now : UInt32) : q.sweep push now = (q.expire now).1.fired :=
  foldl_push hpush (q.fired? now) (List.finRange s) [] (by simp)

theorem fired_eq (q : TimerQueue s) (now : UInt32) :
    (q.expire now).1.fired =
      ((List.finRange s).filter fun slot => (q.timer slot).isDue q.longest now).map
        fun slot => (slot, (q.timer slot).generation) := by
  show (List.finRange s).filterMap (q.fired? now) = _
  induction List.finRange s with
  | nil => rfl
  | cons slot slots ih =>
    rw [List.filterMap_cons, List.filter_cons, fired?, ih]
    cases (q.timer slot).isDue q.longest now <;> rfl

theorem slots_fired (q : TimerQueue s) (now : UInt32) :
    (q.expire now).1.fired.map Prod.fst =
      (List.finRange s).filter fun slot => (q.timer slot).isDue q.longest now := by
  rw [fired_eq, List.map_map]
  exact List.map_id _

/-- What can be said of a queue from what has happened to it. -/
structure Exact (m : UInt32) (evs : List (Event s)) (q : TimerQueue s) : Prop where
  longest : q.longest = m
  reported : ∀ now slot, (q.expire now).1.contains slot = true ↔
    ∃ delay armed, Waiting slot evs delay armed ∧ delay.toNat ≤ (now - armed).toNat ∧
      (now - armed).toNat ≤ delay.toNat + 2 ^ 32 - 1 - m.toNat
  ascending : ∀ now, ((q.expire now).1.fired.map Prod.fst).Pairwise (· < ·)
  current : ∀ now, ∀ entry ∈ (q.expire now).1.fired, entry.2 = (q.timer entry.1).generation
  complete : ∀ now push,
    (∀ fired entry, fired.length < s → push fired entry = fired ++ [entry]) →
      q.sweep push now = (q.expire now).1.fired
  rest : ∀ now slot, (q.expire now).2.longest = q.longest ∧ (q.expire now).2.timer slot =
    if (q.expire now).1.contains slot then { q.timer slot with armed := false } else q.timer slot
  tooLong : ∀ slot delay now, m < delay →
    q.apply (.arm slot delay now) = (.refused .delayTooLong, q)
  others : ∀ slot slot' : Fin s, slot' ≠ slot → ∀ delay now,
    (q.apply (.arm slot delay now)).2.timer slot' = q.timer slot' ∧
      (q.apply (.cancel slot now)).2.timer slot' = q.timer slot'

theorem Follows.reported {q : TimerQueue s} {slot : Fin s} {evs : List (Event s)}
    (h : Follows q slot evs) (now : UInt32) :
    (q.expire now).1.contains slot = true ↔
      ∃ delay armed, Waiting slot evs delay armed ∧ delay.toNat ≤ (now - armed).toNat ∧
        (now - armed).toNat ≤ delay.toNat + 2 ^ 32 - 1 - q.longest.toNat := by
  have hlong := q.longest.toNat_lt
  rw [contains_expire]
  constructor
  · intro hd
    have harmed : (q.timer slot).armed = true := by
      rw [Timer.isDue, Bool.and_eq_true] at hd
      exact hd.1
    obtain ⟨delay, armed, hw⟩ := h.waiting harmed
    obtain ⟨-, hdeadline, hle⟩ := h.running delay armed hw
    obtain ⟨hlate, hseen⟩ := (Timer.isDue_iff harmed hdeadline hle).mp hd
    exact ⟨delay, armed, hw, UInt32.le_iff_toNat_le.mp hlate, by omega⟩
  · rintro ⟨delay, armed, hw, hlate, hseen⟩
    obtain ⟨harmed, hdeadline, hle⟩ := h.running delay armed hw
    exact (Timer.isDue_iff harmed hdeadline hle).mpr ⟨UInt32.le_iff_toNat_le.mpr hlate, by omega⟩

theorem timer_expire_eq (q : TimerQueue s) (now : UInt32) (slot : Fin s) :
    (q.expire now).2.timer slot =
      if (q.expire now).1.contains slot then { q.timer slot with armed := false }
      else q.timer slot := by
  rw [timer_expire, Timer.expire, contains_expire]

theorem exact_of_follows {q : TimerQueue s} {evs : List (Event s)}
    (h : ∀ slot, Follows q slot evs) : Exact q.longest evs q where
  longest := rfl
  reported now slot := (h slot).reported now
  ascending now := by
    rw [slots_fired]
    exact (List.pairwise_lt_finRange s).filter _
  current now entry he := by
    rw [fired_eq] at he
    obtain ⟨slot, -, rfl⟩ := List.mem_map.mp he
    rfl
  complete now push hpush := q.sweep_eq hpush now
  rest now slot := ⟨rfl, q.timer_expire_eq now slot⟩
  tooLong slot delay now hlt := by rw [apply, arm, if_pos hlt]
  others slot slot' hne delay now := by
    refine ⟨?_, timer_update_ne q hne _⟩
    rw [apply, arm]
    by_cases hlong : q.longest < delay
    · rw [if_pos hlong]
    · rw [if_neg hlong]
      exact timer_update_ne q hne _

theorem toNat_longest_new (s : Nat) (longest : UInt32) :
    (new s longest).longest.toNat = min longest.toNat (2 ^ 31 - 1) := by
  rw [new]
  dsimp only
  have hmax : (0x7FFFFFFF : UInt32).toNat = 2 ^ 31 - 1 := rfl
  split
  · next hlt =>
    rw [UInt32.lt_iff_toNat_lt] at hlt
    omega
  · next hle =>
    rw [UInt32.lt_iff_toNat_lt] at hle
    omega

/-- A slot fires when its latest arm has run out, once for every arm, and no call
of another slot can change that. -/
theorem fires_exactly (s : Nat) (longest : UInt32) (ops : List (Op s)) :
    let m := (new s longest).longest
    let evs := ((new s longest).run ops).1
    let q := ((new s longest).run ops).2
    m.toNat = min longest.toNat (2 ^ 31 - 1) ∧ Exact m evs q ∧
      ∀ now slot, (q.expire now).1.contains slot = true → ∀ between now',
        (((q.expire now).2.run between).2.expire now').1.contains slot = true →
          ∃ delay armed, .armed slot delay armed ∈ ((q.expire now).2.run between).1 := by
  intro m evs q
  have hfollows : ∀ slot, Follows q slot evs := fun slot =>
    follows_run (follows_nil (congrArg Timer.armed (timer_new s longest slot))) ops
  have hexact : Exact q.longest evs q := exact_of_follows hfollows
  rw [show q.longest = m from longest_run _ ops] at hexact
  refine ⟨toNat_longest_new s longest, hexact, ?_⟩
  intro now slot hfirst between now' hsecond
  -- A slot that has just fired does not run, so that only an arm behind can wait.
  have hidle : ((q.expire now).2.timer slot).armed = false := by
    rw [timer_expire_eq, if_pos hfirst]
  have hthen := follows_run (follows_nil hidle) between
  obtain ⟨delay, armed, ⟨before, after, hevs, -⟩, -⟩ := (hthen.reported now').mp hsecond
  refine ⟨delay, armed, ?_⟩
  rw [List.nil_append] at hevs
  rw [hevs]
  exact List.mem_append_right _ List.mem_cons_self

/-- A timer armed shortly before the clock wraps fires behind it, and again once
it has been armed again. -/
theorem fires_exactly_wrap :
    let ops : List (Op 2) := [.allocate, .arm 0 2000 4294967000, .arm 1 5001 0, .expire 1703]
    let between : List (Op 2) := [.expire 1800, .cancel 1 1850, .arm 0 0 1900]
    let evs := ((new 2 5000).run ops).1
    let q := ((new 2 5000).run ops).2
    let later := (q.expire 1704).2.run between
    (q.expire 1704).1.fired = [(0, 1)] ∧ (q.expire 1704).1.contains 0 = true ∧
      (later.2.expire 1900).1.contains 0 = true ∧
      (new 2 5000).longest.toNat = min (5000 : UInt32).toNat (2 ^ 31 - 1) ∧
      Exact (new 2 5000).longest evs q ∧ ∃ delay armed, .armed 0 delay armed ∈ later.1 := by
  intro ops between evs q later
  have hfirst : (q.expire 1704).1.contains 0 = true := by decide +kernel
  have hsecond : (later.2.expire 1900).1.contains 0 = true := by decide +kernel
  obtain ⟨hlongest, hexact, htwice⟩ := fires_exactly 2 5000 ops
  exact ⟨by decide +kernel, hfirst, hsecond, hlongest, hexact,
    htwice 1704 0 hfirst between 1900 hsecond⟩

end CommandLink.TimerQueue
