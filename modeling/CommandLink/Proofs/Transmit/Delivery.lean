import CommandLink.Proofs.Ring.Contents
import CommandLink.Transmit.Drain

namespace CommandLink

/-- A loop that counts its rounds, until one says to stop or fails. -/
inductive Loops {σ ε : Type} (round : σ → Except ε Bool × σ) :
    Nat → σ → Except ε Nat → σ → Prop
  | stop {k : Nat} {st st' : σ} (h : round st = (.ok false, st')) : Loops round k st (.ok k) st'
  | fail {k : Nat} {st st' : σ} {e : ε} (h : round st = (.error e, st')) :
    Loops round k st (.error e) st'
  | again {k : Nat} {st st' last : σ} {result : Except ε Nat} (h : round st = (.ok true, st'))
    (rest : Loops round (k + 1) st' result last) : Loops round k st result last

theorem Loops.unique {σ ε : Type} {round : σ → Except ε Bool × σ} {k : Nat} {st last last' : σ}
    {result result' : Except ε Nat} (h : Loops round k st result last)
    (h' : Loops round k st result' last') : result' = result ∧ last' = last := by
  induction h with
  | stop hs =>
    cases h' with
    | stop hs' => cases hs.symm.trans hs'; exact ⟨rfl, rfl⟩
    | fail hs' => cases hs.symm.trans hs'
    | again hs' _ => cases hs.symm.trans hs'
  | fail hs =>
    cases h' with
    | stop hs' => cases hs.symm.trans hs'
    | fail hs' => cases hs.symm.trans hs'; exact ⟨rfl, rfl⟩
    | again hs' _ => cases hs.symm.trans hs'
  | again hs _ ih =>
    cases h' with
    | stop hs' => cases hs.symm.trans hs'
    | fail hs' => cases hs.symm.trans hs'
    | again hs' rest' => cases hs.symm.trans hs'; exact ih rest'

theorem Loops.iff {σ ε : Type} {round : σ → Except ε Bool × σ} {k : Nat} {st last : σ}
    {result : Except ε Nat} (h : Loops round k st result last) (result' : Except ε Nat)
    (last' : σ) : Loops round k st result' last' ↔ result' = result ∧ last' = last := by
  refine ⟨h.unique, ?_⟩
  rintro ⟨rfl, rfl⟩
  exact h

/-- A loop whose rounds follow those of another one ends as that one does. -/
theorem Loops.map {σ σ' ε : Type} {round : σ → Except ε Bool × σ}
    {round' : σ' → Except ε Bool × σ'} {f : σ → σ'} {P : σ → Prop}
    (hround : ∀ st, P st → round' (f st) = (round st).map id f ∧ P (round st).2)
    {k : Nat} {st last : σ} {result : Except ε Nat} (h : Loops round k st result last)
    (hst : P st) : Loops round' k (f st) result (f last) := by
  induction h with
  | @stop k st st' hs =>
    have hmap := (hround st hst).1
    rw [hs] at hmap
    exact .stop hmap
  | @fail k st st' e hs =>
    have hmap := (hround st hst).1
    rw [hs] at hmap
    exact .fail hmap
  | @again k st st' last result hs rest ih =>
    obtain ⟨hmap, hst'⟩ := hround st hst
    rw [hs] at hmap hst'
    exact .again hmap (ih hst')

namespace Sink

variable {ω ε : Type}

/-- A call of a sink, with its answer. -/
inductive Call (ε : Type) where
  | poll (room : Bool)
  | write (b : UInt8) (answer : Except ε Unit)

namespace Call

def accepted? : Call ε → Option UInt8
  | .write b (.ok ()) => some b
  | _ => none

/-- The octets that a sink took. -/
def accepted (calls : List (Call ε)) : List UInt8 := calls.filterMap accepted?

/-- Each write comes directly behind a poll that found room. -/
def Asked (calls : List (Call ε)) : Prop :=
  ∀ before b answer after, calls = before ++ .write b answer :: after →
    ∃ earlier, before = earlier ++ [.poll true]

theorem asked_poll (room : Bool) : Asked [(.poll room : Call ε)] := by
  intro before b answer after h
  cases before with
  | nil => cases h
  | cons call before =>
    rw [List.cons_append, List.cons.injEq] at h
    exact absurd h.2.symm (List.append_ne_nil_of_right_ne_nil before (List.cons_ne_nil _ _))

theorem asked_write {b : UInt8} {answer : Except ε Unit} {calls : List (Call ε)}
    (h : Asked calls) : Asked (.poll true :: .write b answer :: calls) := by
  intro before b' answer' after hcalls
  cases before with
  | nil => cases hcalls
  | cons first before =>
    cases before with
    | nil =>
      cases hcalls
      exact ⟨[], rfl⟩
    | cons second before =>
      simp only [List.cons_append, List.cons.injEq] at hcalls
      obtain ⟨rfl, rfl, hrest⟩ := hcalls
      obtain ⟨earlier, rfl⟩ := h before b' answer' after hrest
      exact ⟨.poll true :: .write b answer :: earlier, rfl⟩

end Call

/-- The same sink, with a list of the calls made so far. -/
def logged (sink : Sink ω ε) : Sink (ω × List (Call ε)) ε where
  canWrite w :=
    let (room, w') := sink.canWrite w.1
    (room, w', w.2 ++ [.poll room])
  write b w :=
    let (answer, w') := sink.write b w.1
    (answer, w', w.2 ++ [.write b answer])

theorem logged_canWrite {sink : Sink ω ε} {w w' : ω} {room : Bool}
    (h : sink.canWrite w = (room, w')) (log : List (Call ε)) :
    sink.logged.canWrite (w, log) = (room, w', log ++ [.poll room]) := by
  simp only [logged, h]

theorem logged_write {sink : Sink ω ε} {w w' : ω} {b : UInt8}
    {answer : Except ε Unit} (h : sink.write b w = (answer, w')) (log : List (Call ε)) :
    sink.logged.write b (w, log) = (answer, w', log ++ [.write b answer]) := by
  simp only [logged, h]

end Sink

namespace Transmit

variable {ω ω' ε : Type} {m n : Nat}

/-- Sinks that differ in their worlds only by `f` take the same octets. -/
theorem drain_map (f : ω → ω') {sink : Sink ω ε} {sink' : Sink ω' ε}
    (hroom : ∀ w, sink'.canWrite (f w) = (sink.canWrite w).map id f)
    (hwrite : ∀ b w, sink'.write b (f w) = (sink.write b w).map id f) (tx : Ring n) (w : ω) :
    drain sink' tx (f w) = (drain sink tx w).map id (Prod.map id f) := by
  induction hl : tx.len using Nat.strongRecOn generalizing tx w with
  | ind l ih =>
    subst hl
    rw [drain, drain.eq_def sink, hroom]
    obtain ⟨room, w₁⟩ := sink.canWrite w
    cases room with
    | false => rfl
    | true =>
      simp only [Prod.map_apply, id_eq]
      split
      · rfl
      · next b hb =>
        rw [hwrite]
        obtain ⟨taken, w₂⟩ := sink.write b w₁
        cases taken with
        | error e => rfl
        | ok u =>
          have hi := ih _ (discard_one_lt hb) (tx.discard 1).2 w₂ rfl
          simp only [Prod.map_apply, id_eq, hi]
          rfl

/-- Move the oldest octet if the sink has room, and say whether it moved. -/
def handOver (sink : Sink ω ε) : Ring n × ω → Except ε Bool × Ring n × ω
  | (tx, w) =>
    match sink.canWrite w with
    | (false, w) => (.ok false, tx, w)
    | (true, w) =>
      match tx.peek? with
      | none => (.ok false, tx, w)
      | some b =>
        match sink.write b w with
        | (.error e, w) => (.error e, tx, w)
        | (.ok (), w) => (.ok true, (tx.discard 1).2, w)

theorem handOver_lt {sink : Sink ω ε} {tx tx' : Ring n} {w w' : ω}
    (h : handOver sink (tx, w) = (.ok true, tx', w')) : tx'.len < tx.len := by
  rw [handOver] at h
  split at h
  · cases h
  · split at h
    · cases h
    · next hb =>
      split at h
      · cases h
      · cases h
        exact discard_one_lt hb

theorem drain_eq (sink : Sink ω ε) (tx : Ring n) (w : ω) :
    drain sink tx w =
      match handOver sink (tx, w) with
      | (.ok false, st) => (.ok 0, st)
      | (.error e, st) => (.error e, st)
      | (.ok true, tx', w') => ((drain sink tx' w').1.map (· + 1), (drain sink tx' w').2) := by
  rw [drain, handOver]
  obtain ⟨room, w₁⟩ := sink.canWrite w
  cases room with
  | false => rfl
  | true =>
    simp only
    split
    · next hb => simp only [hb]
    · next b hb =>
      simp only [hb]
      obtain ⟨answer, w₂⟩ := sink.write b w₁
      cases answer with
      | error e => rfl
      | ok u => rfl

/-- The loop over single octets, once it has moved `k` of them, ends for every sink and
every queue. -/
theorem loops_drain_from (sink : Sink ω ε) (k : Nat) (tx : Ring n) (w : ω) :
    Loops (handOver sink) k (tx, w) ((drain sink tx w).1.map (k + ·)) (drain sink tx w).2 := by
  induction hl : tx.len using Nat.strongRecOn generalizing k tx w with
  | ind l ih =>
    subst hl
    rw [drain_eq]
    split
    · next h => exact .stop h
    · next h => exact .fail h
    · next tx' w' h =>
      have hrest := ih _ (handOver_lt h) (k + 1) tx' w' rfl
      have hcount (moved : Except ε Nat) :
          (moved.map (· + 1)).map (k + ·) = moved.map (k + 1 + ·) := by
        cases moved with
        | error e => rfl
        | ok j =>
          simp only [Except.map, Nat.add_comm j 1, Nat.add_assoc]
      rw [hcount]
      exact .again h hrest

theorem loops_drain (sink : Sink ω ε) (tx : Ring n) (w : ω) :
    Loops (handOver sink) 0 (tx, w) (drain sink tx w).1 (drain sink tx w).2 := by
  have hloops := loops_drain_from sink 0 tx w
  have hzero (moved : Except ε Nat) : moved.map (0 + ·) = moved := by
    cases moved with
    | error e => rfl
    | ok k => exact congrArg Except.ok (Nat.zero_add k)
  rwa [hzero] at hloops

/-- Move octets from a list, as long as the sink has room. -/
def deal (sink : Sink ω ε) : List UInt8 → ω → Except ε Nat × List UInt8 × ω
  | [], w => (.ok 0, [], (sink.canWrite w).2)
  | b :: q, w =>
    match sink.canWrite w with
    | (false, w) => (.ok 0, b :: q, w)
    | (true, w) =>
      match sink.write b w with
      | (.error e, w) => (.error e, b :: q, w)
      | (.ok (), w) =>
        let (moved, rest) := deal sink q w
        (moved.map (· + 1), rest)

/-- Of a queue a pump sees no more than its octets. -/
theorem drain_deal (sink : Sink ω ε) {tx : Ring n} (h : tx.Inv) (w : ω) :
    (drain sink tx w).map id (Prod.map Ring.toList id) = deal sink tx.toList w ∧
      (drain sink tx w).2.1.Inv := by
  induction hq : tx.toList generalizing tx w with
  | nil =>
    have hb : tx.peek? = none := by rw [Ring.peek?_eq h, hq, List.head?_nil]
    rw [drain_eq, handOver, deal, hb]
    obtain ⟨room, w₁⟩ := sink.canWrite w
    cases room <;> exact ⟨by simp [hq], h⟩
  | cons b q ih =>
    have hb : tx.peek? = some b := by rw [Ring.peek?_eq h, hq, List.head?_cons]
    have htail : (tx.discard 1).2.toList = q := by
      rw [Ring.toList_discard h, hq, List.drop_one, List.tail_cons]
    rw [drain_eq, handOver, deal, hb]
    obtain ⟨room, w₁⟩ := sink.canWrite w
    cases room with
    | false => exact ⟨by simp [hq], h⟩
    | true =>
      simp only
      obtain ⟨answer, w₂⟩ := sink.write b w₁
      cases answer with
      | error e => exact ⟨by simp [hq], h⟩
      | ok u =>
        obtain ⟨hrest, hinv⟩ := ih (Ring.inv_discard h 1) w₂ htail
        refine ⟨?_, hinv⟩
        simp only
        rw [← hrest]
        rfl

/-- What a pump leaves of a queue `q`: it made the calls `calls`, and said `moved`. -/
structure Delivers (q : List UInt8) (calls : List (Sink.Call ε)) (moved : Except ε Nat)
    (rest : List UInt8) : Prop where
  order : q = Sink.Call.accepted calls ++ rest
  asked : Sink.Call.Asked calls
  count : ∀ k, moved = .ok k → (Sink.Call.accepted calls).length = k ∧
    (rest = [] ∨ calls.getLast? = some (.poll false))
  failed : ∀ e, moved = .error e →
    ∃ b, rest.head? = some b ∧ calls.getLast? = some (.write b (.error e))

theorem Delivers.again {q rest : List UInt8} {calls : List (Sink.Call ε)} {moved : Except ε Nat}
    (h : Delivers q calls moved rest) (b : UInt8) :
    Delivers (b :: q) (.poll true :: .write b (.ok ()) :: calls) (moved.map (· + 1)) rest where
  order := congrArg (b :: ·) h.order
  asked := Sink.Call.asked_write h.asked
  count k hk := by
    cases moved with
    | error e => cases hk
    | ok j =>
      cases hk
      obtain ⟨hlen, hend⟩ := h.count j rfl
      refine ⟨congrArg (· + 1) hlen, hend.imp_right fun hlast => ?_⟩
      simp [List.getLast?_cons, hlast]
  failed e he := by
    cases moved with
    | ok j => cases he
    | error e' =>
      cases he
      obtain ⟨b', hhead, hlast⟩ := h.failed e rfl
      exact ⟨b', hhead, by simp [List.getLast?_cons, hlast]⟩

/-- A pump that is only asked for room leaves what it found. -/
theorem Delivers.polled {q : List UInt8} {room : Bool} (hend : q = [] ∨ room = false) :
    Delivers q [.poll room] (.ok 0 : Except ε Nat) q where
  order := rfl
  asked := Sink.Call.asked_poll room
  count k hk := by
    cases hk
    exact ⟨rfl, hend.imp_right fun hroom => by rw [hroom]; rfl⟩
  failed e he := by cases he

/-- A log of the calls changes nothing for the sink, and tells what the pump did. -/
theorem deal_logged (sink : Sink ω ε) (q : List UInt8) (w : ω) (log : List (Sink.Call ε)) :
    ∃ calls, deal sink.logged q (w, log) =
        (deal sink q w).map id (Prod.map id (·, log ++ calls)) ∧
      Delivers q calls (deal sink q w).1 (deal sink q w).2.1 := by
  induction q generalizing w log with
  | nil =>
    simp only [deal, Sink.logged]
    exact ⟨[.poll (sink.canWrite w).1], rfl, .polled (.inl rfl)⟩
  | cons b q ih =>
    rcases hroom : sink.canWrite w with ⟨room, w₁⟩
    rw [deal, deal, hroom, Sink.logged_canWrite hroom]
    cases room with
    | false => exact ⟨[.poll false], rfl, .polled (.inr rfl)⟩
    | true =>
      simp only
      rcases hanswer : sink.write b w₁ with ⟨answer, w₂⟩
      rw [Sink.logged_write hanswer]
      cases answer with
      | error e =>
        refine ⟨[.poll true, .write b (.error e)], ?_, rfl, ?_, ?_, ?_⟩
        · rw [List.append_assoc]
          rfl
        · exact Sink.Call.asked_write fun before b answer after h => by simp at h
        · intro k hk
          cases hk
        · intro e' he
          cases he
          exact ⟨b, rfl, rfl⟩
      | ok u =>
        obtain ⟨calls, hdeal, hd⟩ := ih w₂ (log ++ [.poll true] ++ [.write b (.ok ())])
        refine ⟨.poll true :: .write b (.ok ()) :: calls, ?_, hd.again b⟩
        simp only [hdeal]
        rw [List.append_assoc, List.append_assoc]
        rfl

/-- A pump into any sink moves octets in order and loses none. -/
theorem drain_delivers (sink : Sink ω ε) {tx : Ring n} (h : tx.Inv) (w : ω) :
    ∃ calls, drain sink.logged tx (w, []) =
        (drain sink tx w).map id (Prod.map id (·, calls)) ∧
      Delivers tx.toList calls (drain sink tx w).1 (drain sink tx w).2.1.toList := by
  obtain ⟨calls, hlogged, hd⟩ := deal_logged sink tx.toList w []
  have hplain : drain sink tx w =
      (drain sink.logged tx (w, [])).map id (Prod.map id Prod.fst) :=
    drain_map Prod.fst (fun _ => rfl) (fun _ _ => rfl) tx (w, [])
  rw [← (drain_deal sink.logged h (w, [])).1] at hlogged
  rw [← (drain_deal sink h w).1] at hd
  refine ⟨calls, ?_, hd⟩
  have hlog : (drain sink.logged tx (w, [])).2.2.2 = calls := congrArg (·.2.2.2) hlogged
  rw [hplain]
  exact Prod.ext rfl (Prod.ext rfl (Prod.ext rfl hlog))

/-- Queues with the same octets are pumped alike, whatever their storage. -/
theorem drain_congr (sink : Sink ω ε) {tx : Ring m} {tx' : Ring n} (h : tx.Inv) (h' : tx'.Inv)
    (hq : tx'.toList = tx.toList) (w : ω) :
    (drain sink tx' w).map id (Prod.map Ring.toList id) =
      (drain sink tx w).map id (Prod.map Ring.toList id) := by
  rw [(drain_deal sink h' w).1, (drain_deal sink h w).1, hq]

/-- A pump into some sink. Pumps of one queue may go into different ones. -/
structure Attempt : Type 1 where
  World : Type
  Error : Type
  sink : Sink World Error
  world : World

/-- Pump a queue time and again. The octets are those that the sinks took. -/
def deliver : Ring n → List Attempt → List UInt8 × Ring n
  | tx, [] => ([], tx)
  | tx, a :: attempts =>
    let (_, tx', _, calls) := drain a.sink.logged tx (a.world, [])
    let (octets, rest) := deliver tx' attempts
    (Sink.Call.accepted calls ++ octets, rest)

theorem deliver_in_order {tx : Ring n} (h : tx.Inv) (attempts : List Attempt) :
    tx.toList = (deliver tx attempts).1 ++ (deliver tx attempts).2.toList := by
  induction attempts generalizing tx with
  | nil => rfl
  | cons a attempts ih =>
    obtain ⟨calls, hlogged, hd⟩ := drain_delivers a.sink h a.world
    have hinv := (drain_deal a.sink h a.world).2
    rw [deliver, hlogged]
    calc tx.toList = Sink.Call.accepted calls ++ (drain a.sink tx a.world).2.1.toList := hd.order
      _ = _ := by rw [ih hinv, ← List.append_assoc]; rfl

end Transmit

end CommandLink
