import CommandLink.Proofs.Ring.Contents

namespace CommandLink

namespace Ring

/-- The calls that a queue takes. Those that fill a buffer get what stands in it. -/
inductive Op where
  | new
  | init
  | reset
  | setOverwrite (allow : Bool)
  | push (b : UInt8)
  | pushAll (bs : List UInt8)
  | pop
  | peek
  | peekInto (out : List UInt8)
  | popInto (out : List UInt8)
  | discard (k : Nat)
  deriving DecidableEq

inductive Answer where
  | done
  | accepted (stored : Bool)
  | octet (b? : Option UInt8)
  | filled (whole : Bool) (out : List UInt8)
  | dropped (k : Nat)
  deriving DecidableEq

def Answer.failed : Answer → Bool
  | .accepted stored => !stored
  | .octet b? => b?.isNone
  | .filled whole _ => !whole
  | .done | .dropped _ => false

def Op.isPeek : Op → Bool
  | .peek | .peekInto _ => true
  | _ => false

end Ring

open CommandLink.Ring (Op Answer)

/-- A queue of at most `n` octets, as the list of them. -/
structure Fifo (n : Nat) where
  queue : List UInt8 := []
  overwrite : Bool := false
  deriving DecidableEq

namespace Fifo

variable {n : Nat}

/-- Octets go in behind and come out in front. Those that find no room are
refused together, or the oldest ones go for them. -/
def apply (q : Fifo n) : Op → Answer × Fifo n
  | .new | .init | .reset => (.done, {})
  | .setOverwrite allow => (.done, { q with overwrite := allow })
  | .push b =>
    if q.queue.length < n then (.accepted true, { q with queue := q.queue ++ [b] })
    else if q.overwrite then (.accepted true, { q with queue := q.queue.tail ++ [b] })
    else (.accepted false, q)
  | .pushAll bs =>
    let all := q.queue ++ bs
    if q.overwrite then (.accepted true, { q with queue := all.drop (all.length - n) })
    else if all.length ≤ n then (.accepted true, { q with queue := all })
    else (.accepted false, q)
  | .pop => (.octet q.queue.head?, { q with queue := q.queue.tail })
  | .peek => (.octet q.queue.head?, q)
  | .peekInto out =>
    if q.queue.length < out.length then (.filled false out, q)
    else (.filled true (q.queue.take out.length), q)
  | .popInto out =>
    if q.queue.length < out.length then (.filled false out, q)
    else (.filled true (q.queue.take out.length), { q with queue := q.queue.drop out.length })
  | .discard k => (.dropped (min k q.queue.length), { q with queue := q.queue.drop k })

def run (q : Fifo n) : List Op → List Answer × Fifo n
  | [] => ([], q)
  | op :: ops =>
    let (answer, q') := q.apply op
    let (answers, q'') := q'.run ops
    (answer :: answers, q'')

end Fifo

namespace Ring

variable {n : Nat}

def apply (r : Ring n) : Op → Answer × Ring n
  | .new => (.done, empty)
  | .init => (.done, r.init)
  | .reset => (.done, r.reset)
  | .setOverwrite allow => (.done, r.setOverwrite allow)
  | .push b =>
    match r.push? b with
    | none => (.accepted false, r)
    | some r' => (.accepted true, r')
  | .pushAll bs =>
    match r.pushAll? bs with
    | none => (.accepted false, r)
    | some r' => (.accepted true, r')
  | .pop =>
    match r.pop? with
    | none => (.octet none, r)
    | some (b, r') => (.octet (some b), r')
  | .peek => (.octet r.peek?, r)
  | .peekInto out =>
    let (whole, out') := r.peekInto out
    (.filled whole out', r)
  | .popInto out =>
    let (whole, out', r') := r.popInto out
    (.filled whole out', r')
  | .discard k =>
    let (count, r') := r.discard k
    (.dropped count, r')

def run (r : Ring n) : List Op → List Answer × Ring n
  | [] => ([], r)
  | op :: ops =>
    let (answer, r') := r.apply op
    let (answers, r'') := r'.run ops
    (answer :: answers, r'')

/-- The circular storage holds the listed octets, under the same policy. -/
structure Refines (r : Ring n) (q : Fifo n) : Prop where
  inv : r.Inv
  list : r.toList = q.queue
  policy : r.overwrite = q.overwrite

theorem Refines.length {r : Ring n} {q : Fifo n} (h : Refines r q) : q.queue.length = r.len := by
  rw [← h.list, length_toList h.inv]

/-- Octets leave one by one as they leave together. -/
theorem pop?_eq {r : Ring n} (h : r.Inv) :
    r.pop? = r.toList.head?.map fun b => (b, (r.discard 1).2) := by
  rw [← peek?_eq h, pop?]
  cases hp : r.peek? with
  | none => rfl
  | some b =>
    have hlen : min 1 r.len = 1 := by
      rw [peek?] at hp
      split at hp
      · cases hp
      · omega
    simp only [Option.map_some, discard, hlen, advance_eq h.get_lt]

/-- The same answer, and states that go on alike. -/
structure Matches (x : Answer × Ring n) (y : Answer × Fifo n) : Prop where
  answer : x.1 = y.1
  refines : Refines x.2 y.2

theorem matches_push {r : Ring n} {q : Fifo n} (h : Refines r q) (b : UInt8) :
    Matches (r.apply (.push b)) (q.apply (.push b)) := by
  have hlen := h.length
  have hp := pushed h.inv b
  rw [apply, Fifo.apply, hlen]
  generalize r.push? b = pushed? at hp
  cases hp with
  | refused hfull hpolicy =>
    have hrefuses : ¬q.overwrite = true := by rw [← h.policy, hpolicy]; decide
    rw [if_neg (by omega), if_neg hrefuses]
    exact ⟨rfl, h⟩
  | displaced r' hfull hpolicy hlist hinv hkept =>
    rw [if_neg (by omega), if_pos (h.policy ▸ hpolicy)]
    exact ⟨rfl, hinv, h.list ▸ hlist, hkept.trans h.policy⟩
  | stored r' hroom hlist hinv hkept =>
    rw [if_pos hroom]
    exact ⟨rfl, hinv, h.list ▸ hlist, hkept.trans h.policy⟩

theorem matches_pushAll {r : Ring n} {q : Fifo n} (h : Refines r q) (bs : List UInt8) :
    Matches (r.apply (.pushAll bs)) (q.apply (.pushAll bs)) := by
  have hlen : (q.queue ++ bs).length = r.len + bs.length := by rw [List.length_append, h.length]
  have hle := h.inv.len_le
  rw [apply, Fifo.apply, hlen]
  cases ho : r.overwrite with
  | true =>
    obtain ⟨hinv, hkept⟩ := inv_offer h.inv bs
    -- Offered one by one, the octets displace each other where there are more than fit.
    have hall : r.pushAll? bs = some (r.offer bs).2 := by
      rw [pushAll?, if_neg (by simp [ho])]
    rw [hall, if_pos (h.policy ▸ ho)]
    exact ⟨rfl, hinv, h.list ▸ (offer_displacing h.inv ho bs).1, hkept.trans h.policy⟩
  | false =>
    have hrefuses : ¬q.overwrite = true := by rw [← h.policy, ho]; decide
    rw [if_neg hrefuses]
    obtain ⟨hfull, hp⟩ | ⟨r', hp, hlist, hinv, hkept⟩ := pushAll?_eq h.inv ho bs
    · rw [hp, if_neg (by omega)]
      exact ⟨rfl, h⟩
    · have hroom := hinv.len_le
      rw [← length_toList hinv, hlist, h.list, hlen] at hroom
      rw [hp, if_pos hroom]
      exact ⟨rfl, hinv, h.list ▸ hlist, (hkept.trans ho.symm).trans h.policy⟩

theorem refines_discard {r : Ring n} {q : Fifo n} (h : Refines r q) (k : Nat) :
    Refines (r.discard k).2 { q with queue := q.queue.drop k } :=
  ⟨inv_discard h.inv k, h.list ▸ toList_discard h.inv k, h.policy⟩

theorem matches_pop {r : Ring n} {q : Fifo n} (h : Refines r q) :
    Matches (r.apply .pop) (q.apply .pop) := by
  rw [apply, Fifo.apply, pop?_eq h.inv, h.list]
  cases hq : q.queue with
  | nil => exact ⟨rfl, h.inv, h.list.trans hq, h.policy⟩
  | cons b bs =>
    have hd := refines_discard h 1
    rw [hq] at hd
    exact ⟨rfl, hd⟩

theorem matches_peekInto {r : Ring n} {q : Fifo n} (h : Refines r q) (out : List UInt8) :
    Matches (r.apply (.peekInto out)) (q.apply (.peekInto out)) := by
  rw [apply, Fifo.apply, peekInto, oldest?_eq h.inv, h.list]
  by_cases hshort : q.queue.length < out.length
  · rw [if_pos hshort, if_pos hshort]
    exact ⟨rfl, h⟩
  · rw [if_neg hshort, if_neg hshort]
    exact ⟨rfl, h⟩

theorem matches_popInto {r : Ring n} {q : Fifo n} (h : Refines r q) (out : List UInt8) :
    Matches (r.apply (.popInto out)) (q.apply (.popInto out)) := by
  rw [apply, Fifo.apply, popInto, take?_eq h.inv, h.list]
  by_cases hshort : q.queue.length < out.length
  · rw [if_pos hshort, if_pos hshort]
    exact ⟨rfl, h⟩
  · rw [if_neg hshort, if_neg hshort]
    exact ⟨rfl, refines_discard h _⟩

/-- Every call is answered as the list answers it. -/
theorem matches_apply (hn : 0 < n) {r : Ring n} {q : Fifo n} (h : Refines r q) (op : Op) :
    Matches (r.apply op) (q.apply op) := by
  cases op with
  | new | init => exact ⟨rfl, inv_empty hn, toList_empty, rfl⟩
  | reset => exact ⟨rfl, inv_reset hn, toList_reset r, rfl⟩
  | setOverwrite allow => exact ⟨rfl, inv_setOverwrite h.inv allow, h.list, rfl⟩
  | push b => exact matches_push h b
  | pushAll bs => exact matches_pushAll h bs
  | pop => exact matches_pop h
  | peek =>
    rw [apply, Fifo.apply, peek?_eq h.inv, h.list]
    exact ⟨rfl, h⟩
  | peekInto out => exact matches_peekInto h out
  | popInto out => exact matches_popInto h out
  | discard k =>
    rw [apply, Fifo.apply, h.length]
    exact ⟨rfl, refines_discard h k⟩

theorem refines_run (hn : 0 < n) {r : Ring n} {q : Fifo n} (h : Refines r q) (ops : List Op) :
    (r.run ops).1 = (q.run ops).1 ∧ Refines (r.run ops).2 (q.run ops).2 := by
  induction ops generalizing r q with
  | nil => exact ⟨rfl, h⟩
  | cons op ops ih =>
    have hfirst := matches_apply hn h op
    obtain ⟨hanswers, hlast⟩ := ih hfirst.refines
    exact ⟨congrArg₂ List.cons hfirst.answer hanswers, hlast⟩

/-! The same calls over storage that has no answer outside of its bounds. -/

def write? (data : Vector UInt8 n) (i : Nat) (b : UInt8) : Option (Vector UInt8 n) :=
  if h : i < n then some (data.set i b) else none

def store? (r : Ring n) (b : UInt8) : Option (Ring n) :=
  (write? r.data r.put b).map fun data => { r with data, put := advance n r.put }

/-- The outer option says whether the storage was left, the inner one whether
the octet was refused. -/
def pushInside? (r : Ring n) (b : UInt8) : Option (Option (Ring n)) :=
  if r.len = n then
    if r.overwrite then (({ r with get := advance n r.get } : Ring n).store? b).map some
    else some none
  else (({ r with len := r.len + 1 } : Ring n).store? b).map some

def offerInside? (r : Ring n) : List UInt8 → Option (Ring n)
  | [] => some r
  | b :: bs => (r.pushInside? b).bind fun r' => (r'.getD r).offerInside? bs

def walkInside? (data : Vector UInt8 n) : Nat → Nat → Option (List UInt8)
  | 0, _ => some []
  | k + 1, i => data[i]?.bind fun b => (walkInside? data k (advance n i)).map (b :: ·)

def applyInside? (r : Ring n) : Op → Option (Answer × Ring n)
  | .push b =>
    (r.pushInside? b).map fun
      | none => (.accepted false, r)
      | some r' => (.accepted true, r')
  | .pushAll bs =>
    if r.overwrite = false ∧ r.free < bs.length then some (.accepted false, r)
    else (r.offerInside? bs).map fun r' => (.accepted true, r')
  | .pop =>
    if r.len = 0 then some (.octet none, r)
    else r.data[r.get]?.map fun b =>
      (.octet (some b), { r with get := advance n r.get, len := r.len - 1 })
  | .peek =>
    if r.len = 0 then some (.octet none, r)
    else r.data[r.get]?.map fun b => (.octet (some b), r)
  | .peekInto out =>
    if r.len < out.length then some (.filled false out, r)
    else (walkInside? r.data out.length r.get).map fun bs => (.filled true bs, r)
  | .popInto out =>
    if r.len < out.length then some (.filled false out, r)
    else (walkInside? r.data out.length r.get).map fun bs =>
      (.filled true bs, (r.discard out.length).2)
  | op@.new | op@.init | op@.reset | op@(.setOverwrite _) | op@(.discard _) => some (r.apply op)

theorem store?_eq {r : Ring n} (h : r.put < n) (b : UInt8) : r.store? b = some (r.store b) := by
  have hset : write? r.data r.put b = some (r.data.setIfInBounds r.put b) := by
    rw [write?, dif_pos h]
    apply congrArg some
    apply Vector.ext
    intro i hi
    rw [Vector.getElem_set, Vector.getElem_setIfInBounds]
  rw [store?, hset]
  rfl

theorem pushInside?_eq {r : Ring n} (h : r.put < n) (b : UInt8) :
    r.pushInside? b = some (r.push? b) := by
  rw [pushInside?, push?]
  split
  · split
    · exact congrArg (Option.map some) (store?_eq (r := { r with get := advance n r.get }) h b)
    · rfl
  · exact congrArg (Option.map some) (store?_eq (r := { r with len := r.len + 1 }) h b)

theorem offerInside?_eq {r : Ring n} (h : r.Inv) (bs : List UInt8) :
    r.offerInside? bs = some (r.offer bs).2 := by
  induction bs generalizing r with
  | nil => rfl
  | cons b bs ih =>
    have hp := pushed h b
    rw [offerInside?, pushInside?_eq h.put_lt, Option.bind_some]
    generalize ho : r.push? b = pushed? at hp
    cases hp with
    | refused =>
      rw [offer_none ho]
      exact ih h
    | displaced r' _ _ _ hinv _ | stored r' _ _ hinv _ =>
      rw [offer_some ho]
      exact ih hinv

theorem walkInside?_eq (data : Vector UInt8 n) (k : Nat) {i : Nat} (hi : i < n) :
    walkInside? data k i = some (walk data k i) := by
  induction k generalizing i with
  | zero => rfl
  | succ k ih =>
    rw [walkInside?, walk, ih (advance_lt hi), Vector.getElem?_eq_getElem hi]
    rfl

/-- No call leaves the storage. -/
theorem applyInside?_eq {r : Ring n} (h : r.Inv) (op : Op) :
    r.applyInside? op = some (r.apply op) := by
  have hlt := h.get_lt
  have hget : r.data[r.get]? = some r.data[r.get] := Vector.getElem?_eq_getElem hlt
  cases op with
  | new | init | reset | setOverwrite | discard => rfl
  | push b =>
    rw [applyInside?, pushInside?_eq h.put_lt, apply]
    cases r.push? b <;> rfl
  | pushAll bs =>
    rw [applyInside?, apply, pushAll?]
    split
    · rfl
    · rw [offerInside?_eq h]
      rfl
  | pop =>
    rw [applyInside?, apply, pop?, peek?]
    split
    · rfl
    · rw [hget]
      rfl
  | peek =>
    rw [applyInside?, apply, peek?]
    split
    · rfl
    · rw [hget]
      rfl
  | peekInto out =>
    rw [applyInside?, apply, peekInto, oldest?]
    split
    · rfl
    · rw [walkInside?_eq _ _ h.get_lt]
      rfl
  | popInto out =>
    rw [applyInside?, apply, popInto, take?, oldest?]
    split
    · rfl
    · rw [walkInside?_eq _ _ h.get_lt]
      rfl

theorem apply_of_failed (r : Ring n) {op : Op}
    (h : (r.apply op).1.failed = true ∨ op.isPeek = true) : (r.apply op).2 = r := by
  cases op with
  | peek | peekInto out => rfl
  | push b | pushAll bs | pop =>
    obtain h | h := h
    · rw [apply] at h ⊢
      split at h
      · rfl
      · cases h
    · cases h
  | popInto out =>
    obtain h | h := h
    · simp only [apply, popInto] at h ⊢
      split
      · rfl
      · next ht => simp [ht, Answer.failed] at h
    · cases h
  | new | init | reset | setOverwrite | discard => obtain h | h := h <;> cases h

/-- All that a user can ask of a queue is what the list says. A call that fails
leaves the queue as it is, its storage included. -/
structure Agrees (r : Ring n) (q : Fifo n) : Prop extends Refines r q where
  bounded : q.queue.length ≤ n
  len : r.len = q.queue.length
  free : r.free = n - q.queue.length
  full : r.isFull = decide (q.queue.length = n)
  empty : r.isEmpty = q.queue.isEmpty
  inside : ∀ op, r.applyInside? op = some (r.apply op)
  unchanged : ∀ op, (r.apply op).1.failed = true ∨ op.isPeek = true → (r.apply op).2 = r

theorem Refines.agrees {r : Ring n} {q : Fifo n} (h : Refines r q) : Agrees r q where
  toRefines := h
  bounded := h.length ▸ h.inv.len_le
  len := h.length.symm
  free := by rw [Ring.free, h.length]
  full := by rw [isFull, h.length]
  empty := by
    rw [isEmpty, ← h.length, Bool.eq_iff_iff, decide_eq_true_eq, List.isEmpty_iff,
      List.length_eq_zero_iff]
  inside := applyInside?_eq h.inv
  unchanged _ := r.apply_of_failed

/-- Circular storage is a bounded list: over any calls the answers are the same,
and so is all that can be asked of the state that they lead to. -/
theorem run_eq_fifo (hn : 0 < n) (ops : List Op) :
    ((empty : Ring n).run ops).1 = (({} : Fifo n).run ops).1 ∧
      Agrees ((empty : Ring n).run ops).2 (({} : Fifo n).run ops).2 := by
  have hstart : Refines (empty : Ring n) {} := ⟨inv_empty hn, toList_empty, rfl⟩
  obtain ⟨hanswers, hlast⟩ := refines_run hn hstart ops
  exact ⟨hanswers, hlast.agrees⟩

/-- Five octets pass through room for three, across the end of the storage. -/
theorem run_eq_fifo_wrap :
    let ops : List Op := [.pushAll [1, 2, 3], .push 4, .discard 2, .setOverwrite true,
      .pushAll [5, 6, 7], .popInto [0, 0], .peekInto [9, 9]]
    let r := ((empty : Ring 3).run ops).2
    let q := (({} : Fifo 3).run ops).2
    0 < 3 ∧ r.get = 2 ∧ r.put = 0 ∧ q = ⟨[7], true⟩ ∧
      ((empty : Ring 3).run ops).1 =
        [.accepted true, .accepted false, .dropped 2, .done, .accepted true, .filled true [5, 6],
          .filled false [9, 9]] ∧
      ((empty : Ring 3).run ops).1 = (({} : Fifo 3).run ops).1 ∧ Agrees r q := by
  intro ops r q
  exact ⟨by decide, by decide, by decide, by decide, by decide, run_eq_fifo (by decide) ops⟩

end Ring

end CommandLink
