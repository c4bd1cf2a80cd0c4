import CommandLink.Proofs.Timer.History

namespace CommandLink.TimerQueue

variable {s : Nat}

/-- How often a slot was armed or cancelled. -/
def moveCount (slot : Fin s) (evs : List (Event s)) : Nat := evs.countP (Event.moves slot)

theorem moveCount_eq_zero_iff {slot : Fin s} {evs : List (Event s)} :
    moveCount slot evs = 0 ↔ ∀ ev ∈ evs, ev.moves slot = false := by
  simp only [moveCount, List.countP_eq_zero, Bool.not_eq_true]

theorem moveCount_cons (slot : Fin s) (ev : Event s) (evs : List (Event s)) :
    moveCount slot (ev :: evs) = moveCount slot [ev] + moveCount slot evs := by
  rw [← List.singleton_append]
  exact List.countP_append

/-- The generation counts the moves of a slot that is given out. -/
structure Counted (t t' : Timer) (k : Nat) : Prop where
  allocated : t'.allocated = true
  generation : t'.generation = t.generation + UInt16.ofNat k

theorem counted_step {q : TimerQueue s} {slot : Fin s} (h : (q.timer slot).allocated = true)
    (op : Op s) :
    Counted (q.timer slot) ((q.apply op).2.timer slot) (moveCount slot [(q.apply op).1]) := by
  have ht := q.turn op slot
  generalize (q.apply op).1 = ev at ht
  generalize (q.apply op).2.timer slot = t at ht
  cases ht with
  | untouched _ _ hm =>
    refine ⟨h, ?_⟩
    rw [moveCount, List.countP_singleton, hm]
    exact (add_zero _).symm
  | allocated hfree =>
    rw [h] at hfree
    cases hfree
  | armed | cancelled =>
    refine ⟨h, ?_⟩
    simp [moveCount, Event.moves, Timer.arm, Timer.cancel]
  | fired => exact ⟨h, (add_zero _).symm⟩

theorem counted_run {q : TimerQueue s} {slot : Fin s} (h : (q.timer slot).allocated = true)
    (ops : List (Op s)) :
    Counted (q.timer slot) ((q.run ops).2.timer slot) (moveCount slot (q.run ops).1) := by
  induction ops generalizing q with
  | nil => exact ⟨h, (add_zero _).symm⟩
  | cons op ops ih =>
    have hfirst := counted_step h op
    have hlast := ih hfirst.allocated
    refine ⟨hlast.allocated, ?_⟩
    rw [run_cons]
    rw [moveCount_cons, UInt16.ofNat_add, ← add_assoc, ← hfirst.generation]
    exact hlast.generation

/-- Slots are given out once and for all. -/
theorem allocated_of_mem {q : TimerQueue s} {slot : Fin s} {ops : List (Op s)}
    (h : .allocated slot ∈ (q.run ops).1) : ((q.run ops).2.timer slot).allocated = true := by
  induction ops generalizing q with
  | nil => cases h
  | cons op ops ih =>
    rw [run_cons] at h ⊢
    obtain he | hm := List.mem_cons.mp h
    · have ht := q.turn op slot
      rw [← he] at ht
      generalize hu : (q.apply op).2.timer slot = t at ht
      cases ht with
      | untouched _ ht _ => simp [Event.touches] at ht
      | allocated => exact (counted_run (congrArg Timer.allocated hu) ops).allocated
    · exact ih hm

theorem ofNat_eq_zero_iff (k : Nat) : UInt16.ofNat k = 0 ↔ 65536 ∣ k := by
  rw [← UInt16.toNat_inj, UInt16.toNat_ofNat', UInt16.toNat_zero]
  exact (Nat.dvd_iff_mod_eq_zero).symm

/-- Whether a timer that has fired still looks so: its generation has come round
to the one it fired with, and it does not run. -/
theorem isCurrent_run {q : TimerQueue s} {slot : Fin s} {generation : UInt16} {now : UInt32}
    (halloc : (q.timer slot).allocated = true)
    (hfired : (q.expire now).1.generationOf? slot = some generation) (later : List (Op s)) :
    let evs := ((q.expire now).2.run later).1
    ((q.expire now).2.run later).2.isCurrent slot generation = true ↔
      65536 ∣ moveCount slot evs ∧ ∀ delay armed, ¬Waiting slot evs delay armed := by
  intro evs
  have hstart : (q.expire now).2.timer slot = { q.timer slot with armed := false } ∧
      generation = (q.timer slot).generation := by
    rw [generationOf?_expire] at hfired
    split at hfired
    · next hd =>
      cases hfired
      rw [timer_expire, Timer.expire, if_pos hd]
      exact ⟨rfl, rfl⟩
    · cases hfired
  obtain ⟨htimer, rfl⟩ := hstart
  have hidle : ((q.expire now).2.timer slot).armed = false := by rw [htimer]
  have halloc' : ((q.expire now).2.timer slot).allocated = true := by rw [htimer]; exact halloc
  have hcount := (counted_run halloc' later).generation
  have hfollows := follows_run (follows_nil hidle) later
  rw [htimer] at hcount
  rw [List.nil_append] at hfollows
  have hrests : (((q.expire now).2.run later).2.timer slot).armed = false ↔
      ∀ delay armed, ¬Waiting slot evs delay armed := by
    constructor
    · intro hoff delay armed hw
      rw [(hfollows.running delay armed hw).1] at hoff
      cases hoff
    · intro hnone
      refine Bool.eq_false_iff.mpr fun hon => ?_
      obtain ⟨delay, armed, hw⟩ := hfollows.waiting hon
      exact hnone delay armed hw
  rw [isCurrent, Timer.isCurrent, Bool.and_eq_true, Bool.not_eq_true', hrests, decide_eq_true_eq,
    hcount, add_eq_left, ofNat_eq_zero_iff, and_comm]

theorem moves_of_waiting {slot : Fin s} {evs : List (Event s)} {delay armed : UInt32}
    (h : Waiting slot evs delay armed) : moveCount slot evs ≠ 0 := by
  obtain ⟨before, after, rfl, -⟩ := h
  intro h0
  have hm := moveCount_eq_zero_iff.mp h0 (.armed slot delay armed) (by simp)
  simp [Event.moves] at hm

/-- An expiry of a slot that is given out stays current until the slot is armed or
cancelled, and becomes current again when the moves since have gone round the
generations and the last of them was no arm that still runs. -/
theorem isCurrent_iff_round (s : Nat) (longest : UInt32) (before later : List (Op s))
    (slot : Fin s) (generation : UInt16) (now : UInt32) :
    let q := ((new s longest).run before).2
    let evs := ((q.expire now).2.run later).1
    let q' := ((q.expire now).2.run later).2
    .allocated slot ∈ ((new s longest).run before).1 →
      (q.expire now).1.generationOf? slot = some generation →
        (q'.isCurrent slot generation = true ↔
          65536 ∣ moveCount slot evs ∧ ∀ delay armed, ¬Waiting slot evs delay armed) ∧
        (moveCount slot evs < 65536 → (q'.isCurrent slot generation = true ↔
          ∀ ev ∈ evs, ev.moves slot = false)) := by
  intro q evs q' hgiven hfired
  have hround : q'.isCurrent slot generation = true ↔
      65536 ∣ moveCount slot evs ∧ ∀ delay armed, ¬Waiting slot evs delay armed :=
    isCurrent_run (allocated_of_mem hgiven) hfired later
  refine ⟨hround, fun hfew => ?_⟩
  rw [hround, ← moveCount_eq_zero_iff]
  constructor
  · rintro ⟨hdvd, -⟩
    exact Nat.eq_zero_of_dvd_of_lt hdvd hfew
  · intro h0
    exact ⟨h0 ▸ dvd_zero _, fun delay armed hw => moves_of_waiting hw h0⟩

/-- One move short of a whole round the answer is still right. -/
theorem isCurrent_iff_round_rearmed :
    let before : List (Op 1) := [.allocate, .arm 0 10 0]
    let later : List (Op 1) := [.arm 0 10 11, .expire 21]
    let q := ((new 1 1000).run before).2
    let r := (q.expire 10).2.run later
    .allocated 0 ∈ ((new 1 1000).run before).1 ∧ (q.expire 10).1.generationOf? 0 = some 1 ∧
      moveCount 0 r.1 < 65536 ∧
      (r.2.isCurrent 0 1 = true ↔
        65536 ∣ moveCount 0 r.1 ∧ ∀ delay armed, ¬Waiting 0 r.1 delay armed) ∧
      (r.2.isCurrent 0 1 = true ↔ ∀ ev ∈ r.1, ev.moves 0 = false) := by
  intro before later q r
  have hgiven : .allocated 0 ∈ ((new 1 1000).run before).1 := by decide +kernel
  have hfired : (q.expire 10).1.generationOf? 0 = some 1 := by decide +kernel
  have hfew : moveCount 0 r.1 < 65536 := by decide +kernel
  have h := isCurrent_iff_round 1 1000 before later 0 1 10 hgiven hfired
  exact ⟨hgiven, hfired, hfew, h.1, h.2 hfew⟩

theorem run_arms {q : TimerQueue s} {delay : UInt32} (h : delay ≤ q.longest) (slot : Fin s)
    (now : UInt32) (k : Nat) :
    (q.run (List.replicate k (.arm slot delay now))).1 =
      List.replicate k (.armed slot delay now) := by
  induction k generalizing q with
  | zero => rfl
  | succ k ih =>
    have harm : q.apply (.arm slot delay now) =
        (.armed slot delay now, q.update slot fun t => t.arm delay now) := by
      rw [apply, arm_of_le h]
    rw [List.replicate_succ, run_cons, harm, List.replicate_succ]
    exact congrArg (List.cons _) (ih h)

theorem moveCount_arms (slot : Fin s) (delay now : UInt32) (k : Nat) :
    moveCount slot (List.replicate k (.armed slot delay now) ++ [.cancelled slot]) = k + 1 := by
  rw [moveCount, List.countP_append, List.countP_replicate, List.countP_singleton]
  simp [Event.moves]

/-- Any whole number of rounds, the last move of which is a cancel, goes unnoticed. -/
theorem isCurrent_arms {q : TimerQueue s} {slot : Fin s} {generation : UInt16} {now : UInt32}
    (halloc : (q.timer slot).allocated = true)
    (hfired : (q.expire now).1.generationOf? slot = some generation) {delay : UInt32}
    (hle : delay ≤ q.longest) (armed cancelled : UInt32) {k : Nat} (hk : 65536 ∣ k + 1) :
    let r := (q.expire now).2.run
      (List.replicate k (.arm slot delay armed) ++ [.cancel slot cancelled])
    r.2.isCurrent slot generation = true ∧ .cancelled slot ∈ r.1 := by
  intro r
  have hevs : r.1 = List.replicate k (.armed slot delay armed) ++ [.cancelled slot] := by
    show ((q.expire now).2.run _).1 = _
    rw [run_snoc, run_arms (show delay ≤ (q.expire now).2.longest from hle)]
    rfl
  constructor
  · refine (isCurrent_run halloc hfired _).mpr ?_
    show 65536 ∣ moveCount slot r.1 ∧ ∀ delay armed, ¬Waiting slot r.1 delay armed
    rw [hevs, moveCount_arms]
    refine ⟨hk, fun delay' armed' hw => ?_⟩
    rw [waiting_snoc] at hw
    simp [Event.touches] at hw
  · rw [hevs]
    exact List.mem_append_right _ List.mem_cons_self

/-- Then what the slot says of itself and what was done to it differ. -/
theorem not_isCurrent_iff_arms {q : TimerQueue s} {slot : Fin s} {generation : UInt16}
    {now : UInt32} (halloc : (q.timer slot).allocated = true)
    (hfired : (q.expire now).1.generationOf? slot = some generation) {delay : UInt32}
    (hle : delay ≤ q.longest) (armed cancelled : UInt32) {k : Nat} (hk : 65536 ∣ k + 1) :
    let r := (q.expire now).2.run
      (List.replicate k (.arm slot delay armed) ++ [.cancel slot cancelled])
    ¬(r.2.isCurrent slot generation = true ↔ ∀ ev ∈ r.1, ev.moves slot = false) := by
  intro r hiff
  obtain ⟨hcurrent, hcancelled⟩ := isCurrent_arms halloc hfired hle armed cancelled hk
  have hunmoved := hiff.mp hcurrent (.cancelled slot) hcancelled
  simp [Event.moves] at hunmoved

/-- Armed 65535 times and cancelled once, a timer that fired before all this looks
as if nothing had happened since. -/
theorem isCurrent_after_round :
    let before : List (Op 1) := [.allocate, .arm 0 10 0]
    let later : List (Op 1) := List.replicate 65535 (.arm 0 10 11) ++ [.cancel 0 12]
    let q := ((new 1 1000).run before).2
    let r := (q.expire 10).2.run later
    .allocated 0 ∈ ((new 1 1000).run before).1 ∧ (q.expire 10).1.generationOf? 0 = some 1 ∧
      ¬(r.2.isCurrent 0 1 = true ↔ ∀ ev ∈ r.1, ev.moves 0 = false) :=
  have hgiven : .allocated 0 ∈ ((new 1 1000).run [.allocate, .arm 0 10 0]).1 := by
    decide +kernel
  have hfired :
      (((new 1 1000).run [.allocate, .arm 0 10 0]).2.expire 10).1.generationOf? 0 = some 1 := by
    decide +kernel
  have hlong : 10 ≤ ((new 1 1000).run [.allocate, .arm 0 10 0]).2.longest := by decide +kernel
  -- one term: the kernel must not come to evaluate the run itself
  ⟨hgiven, hfired,
    not_isCurrent_iff_arms (allocated_of_mem hgiven) hfired hlong 11 12 ⟨1, rfl⟩⟩

end CommandLink.TimerQueue
