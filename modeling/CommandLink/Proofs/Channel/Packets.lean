import CommandLink.Proofs.Channel.Pump
import CommandLink.Transmit.Packet
import Mathlib.Algebra.Order.Floor.Div

namespace CommandLink

namespace Packet

/-- Octets in packets of `p`, of which only the last one may be shorter. -/
structure Packed (p : Nat) (q : List UInt8) (packets : List (List UInt8)) : Prop where
  content : packets.flatten = q
  sized : ∀ k ∈ packets, 0 < k.length ∧ k.length ≤ p
  full : ∀ k ∈ packets.dropLast, k.length = p
  count : packets.length = q.length ⌈/⌉ p

theorem packed_nil (p : Nat) : Packed p [] [] := by
  refine ⟨rfl, ?_, ?_, (zero_ceilDiv p).symm⟩
  · intro k hk
    cases hk
  · intro k hk
    cases hk

theorem Packed.eq_nil_iff {p : Nat} {q : List UInt8} {packets : List (List UInt8)}
    (h : Packed p q packets) : packets = [] ↔ q = [] := by
  constructor
  · rintro rfl
    exact h.content.symm
  · rintro rfl
    exact List.eq_nil_of_length_eq_zero (h.count.trans (zero_ceilDiv p))

/-- One packet fewer for as many octets as it takes. -/
theorem ceilDiv_sub_succ {a p : Nat} (hp : 0 < p) (ha : 0 < a) :
    (a - p) ⌈/⌉ p + 1 = a ⌈/⌉ p := by
  apply eq_of_forall_ge_iff
  intro c
  rw [ceilDiv_le_iff_le_mul hp]
  cases c with
  | zero => omega
  | succ c =>
    rw [Nat.add_le_add_iff_right, ceilDiv_le_iff_le_mul hp, Nat.sub_le_iff_le_add, Nat.mul_succ]

theorem Packed.cons {p : Nat} (hp : 0 < p) {q : List UInt8} (hq : q ≠ [])
    {packets : List (List UInt8)} (h : Packed p (q.drop p) packets) :
    Packed p q (q.take p :: packets) := by
  have hlen := List.length_pos_of_ne_nil hq
  refine ⟨?_, ?_, ?_, ?_⟩
  · rw [List.flatten_cons, h.content, List.take_append_drop]
  · intro k hk
    obtain rfl | hk := List.mem_cons.mp hk
    · rw [List.length_take]
      omega
    · exact h.sized k hk
  · intro k hk
    cases packets with
    | nil => cases hk
    | cons k' packets =>
      rw [List.dropLast_cons_cons] at hk
      obtain rfl | hk := List.mem_cons.mp hk
      · -- behind a packet that is not the last one there are more octets
        have hrest : q.drop p ≠ [] := fun hnil => by cases h.eq_nil_iff.mpr hnil
        have hmore := List.length_pos_of_ne_nil hrest
        rw [List.length_drop] at hmore
        rw [List.length_take]
        omega
      · exact h.full k hk
  · rw [List.length_cons, h.count, List.length_drop, ceilDiv_sub_succ hp hlen]

theorem Packed.of_cons {p : Nat} {q k : List UInt8} {packets : List (List UInt8)}
    (h : Packed p q (k :: packets)) : k = q.take p ∧ Packed p (q.drop p) packets := by
  obtain ⟨hk, hle⟩ := h.sized k List.mem_cons_self
  have hcontent : q = k ++ packets.flatten := h.content.symm
  have hlen : q.length = k.length + packets.flatten.length := by
    rw [hcontent, List.length_append]
  obtain ⟨hfirst, hrest⟩ : k = q.take p ∧ packets.flatten = q.drop p := by
    cases packets with
    | nil =>
      rw [List.flatten_nil, List.append_nil] at hcontent
      subst hcontent
      exact ⟨(List.take_of_length_le hle).symm, (List.drop_of_length_le hle).symm⟩
    | cons k' packets =>
      have hfull : k.length = p := h.full k List.mem_cons_self
      rw [hcontent, List.take_left' hfull, List.drop_left' hfull]
      exact ⟨rfl, rfl⟩
  refine ⟨hfirst, hrest, fun k' hk' => h.sized k' (List.mem_cons_of_mem k hk'), ?_, ?_⟩
  · intro k' hk'
    cases packets with
    | nil => cases hk'
    | cons => exact h.full k' (List.mem_cons_of_mem k hk')
  · have hcount := h.count
    rw [List.length_cons, ← ceilDiv_sub_succ (by omega) (by omega)] at hcount
    rw [List.length_drop]
    exact Nat.succ_inj.mp hcount

/-- There is one way to pack a queue. -/
theorem Packed.unique {p : Nat} {q : List UInt8} {packets packets' : List (List UInt8)}
    (h : Packed p q packets) (h' : Packed p q packets') : packets' = packets := by
  induction packets generalizing q packets' with
  | nil =>
    apply h'.eq_nil_iff.mpr
    exact h.eq_nil_iff.mp rfl
  | cons k packets ih =>
    cases packets' with
    | nil => cases h.eq_nil_iff.mpr (h'.eq_nil_iff.mp rfl)
    | cons k' packets' =>
      obtain ⟨rfl, hrest⟩ := h.of_cons
      obtain ⟨rfl, hrest'⟩ := h'.of_cons
      rw [ih hrest hrest']

variable {p n : Nat} {σ σ' : Type}

/-- Fill a packet, send and clear it, until one stays empty. The list is of the packets
that were sent. -/
inductive Ships (fill : σ → Packet p → Except Empty Nat × σ × Packet p) :
    σ → Packet p → List (List UInt8) → σ × Packet p → Prop
  | stop {st st' : σ} {k k' : Packet p} {moved : Except Empty Nat}
    (h : fill st k = (moved, st', k')) (hk : k'.isEmpty = true) : Ships fill st k [] (st', k')
  | ship {st st' : σ} {k k' : Packet p} {moved : Except Empty Nat}
    {packets : List (List UInt8)} {last : σ × Packet p} (h : fill st k = (moved, st', k'))
    (hk : k'.isEmpty = false) (rest : Ships fill st' k'.clear packets last) :
    Ships fill st k (k'.octets :: packets) last

theorem Ships.unique {fill : σ → Packet p → Except Empty Nat × σ × Packet p} {st : σ}
    {k : Packet p} {packets packets' : List (List UInt8)} {last last' : σ × Packet p}
    (h : Ships fill st k packets last) (h' : Ships fill st k packets' last') :
    packets' = packets ∧ last' = last := by
  induction h generalizing packets' with
  | stop hf hk =>
    cases h' with
    | stop hf' _ =>
      cases hf.symm.trans hf'
      exact ⟨rfl, rfl⟩
    | ship hf' hk' _ =>
      cases hf.symm.trans hf'
      exact absurd (hk.symm.trans hk') (by decide)
  | ship hf hk _ ih =>
    cases h' with
    | stop hf' hk' =>
      cases hf.symm.trans hf'
      exact absurd (hk'.symm.trans hk) (by decide)
    | ship hf' _ rest' =>
      cases hf.symm.trans hf'
      obtain ⟨rfl, rfl⟩ := ih rest'
      exact ⟨rfl, rfl⟩

theorem Ships.iff {fill : σ → Packet p → Except Empty Nat × σ × Packet p} {st : σ}
    {k : Packet p} {packets : List (List UInt8)} {last : σ × Packet p}
    (h : Ships fill st k packets last) (packets' : List (List UInt8)) (last' : σ × Packet p) :
    Ships fill st k packets' last' ↔ packets' = packets ∧ last' = last := by
  refine ⟨h.unique, ?_⟩
  rintro ⟨rfl, rfl⟩
  exact h

/-- A loop over other states, with the same packets. -/
theorem Ships.map {f : σ → σ'} {fill : σ → Packet p → Except Empty Nat × σ × Packet p}
    {fill' : σ' → Packet p → Except Empty Nat × σ' × Packet p}
    (hfill : ∀ st k, fill' (f st) k = (fill st k).map id (Prod.map f id)) {st : σ}
    {k : Packet p} {packets : List (List UInt8)} {last : σ × Packet p}
    (h : Ships fill st k packets last) : Ships fill' (f st) k packets (last.map f id) := by
  induction h with
  | @stop st st' k k' moved hf hk =>
    have hmap := hfill st k
    rw [hf] at hmap
    exact .stop hmap hk
  | @ship st st' k k' moved packets last hf hk rest ih =>
    have hmap := hfill st k
    rw [hf] at hmap
    exact .ship hmap hk ih

/-- A pump into a packet fills it with the oldest octets, as far as there is room. -/
theorem deal_sink {k : Packet p} (hk : k.len ≤ p) (q : List UInt8) :
    Transmit.deal sink q k =
      (.ok (min q.length (p - k.len)), q.drop (p - k.len), ⟨k.octets ++ q.take (p - k.len)⟩) := by
  induction q generalizing k with
  | nil => simp [Transmit.deal, sink]
  | cons b q ih =>
    cases hroom : k.hasRoom with
    | false =>
      have hfull : p - k.len = 0 := by
        rw [hasRoom, decide_eq_false_iff_not, not_not] at hroom
        exact Nat.sub_eq_zero_of_le hroom.ge
      simp [Transmit.deal, sink, hroom, hfull]
    | true =>
      have hlt : k.len < p := by
        rw [hasRoom, decide_eq_true_eq] at hroom
        exact lt_of_le_of_ne hk hroom
      have hpush : k.push b = ⟨k.octets ++ [b]⟩ := by rw [push, if_pos hroom]
      have hlen : (k.push b).len = k.len + 1 := by simp [hpush, len]
      obtain ⟨room, hleft⟩ : ∃ room, p - k.len = room + 1 := ⟨p - k.len - 1, by omega⟩
      have hleft' : p - (k.push b).len = room := by omega
      have hrest := ih (k := k.push b) (by omega)
      rw [hleft', hpush] at hrest
      have hwrite : (sink (p := p)).write b k = (.ok (), ⟨k.octets ++ [b]⟩) := by rw [← hpush]; rfl
      have hask : (sink (p := p)).canWrite k = (true, k) := by rw [← hroom]; rfl
      rw [Transmit.deal, hask]
      simp only [hwrite, hrest, hleft]
      simp [Except.map]

theorem drain_sink {tx : Ring n} (h : tx.Inv) {k : Packet p} (hk : k.len ≤ p) :
    ∃ rest : Ring n, rest.Inv ∧ rest.toList = tx.toList.drop (p - k.len) ∧
      Transmit.drain sink tx k = (.ok (min tx.toList.length (p - k.len)), rest,
        ⟨k.octets ++ tx.toList.take (p - k.len)⟩) := by
  obtain ⟨hdeal, hinv⟩ := Transmit.drain_deal (sink (p := p)) h k
  rw [deal_sink hk] at hdeal
  rcases hdrain : Transmit.drain sink tx k with ⟨moved, rest, k'⟩
  rw [hdrain] at hdeal hinv
  simp only [Prod.map_apply, id_eq, Prod.mk.injEq] at hdeal
  obtain ⟨rfl, hrest, rfl⟩ := hdeal
  exact ⟨rest, hinv, hrest, rfl⟩

theorem packets_eq {tx tx' : Ring n} {k : Packet p} {moved : Except Empty Nat}
    (h : Transmit.drain sink tx {} = (moved, tx', k)) :
    packets p tx = if k.isEmpty then ([], tx')
      else (k.octets :: (packets p tx').1, (packets p tx').2) := by
  rw [packets]
  split
  next heq =>
  cases h.symm.trans heq
  rfl

theorem eq_of_isEmpty {k : Packet p} (hk : k.isEmpty = true) : k = {} := by
  obtain ⟨octets⟩ := k
  obtain rfl := List.isEmpty_iff.mp hk
  rfl

/-- The loop ends for every queue, in what `packets` says. -/
theorem ships_packets (p : Nat) (tx : Ring n) :
    Ships (Transmit.drain sink) tx ({} : Packet p) (packets p tx).1 ((packets p tx).2, {}) := by
  induction hl : tx.len using Nat.strongRecOn generalizing tx with
  | ind l ih =>
    subst hl
    have hlen := len_drain tx ({} : Packet p)
    rcases hdrain : Transmit.drain sink tx ({} : Packet p) with ⟨moved, tx', k⟩
    rw [hdrain] at hlen
    rw [packets_eq hdrain]
    cases hk : k.isEmpty with
    | true =>
      obtain rfl := eq_of_isEmpty hk
      exact .stop hdrain hk
    | false =>
      have hpos : 0 < k.len := List.length_pos_iff.mpr (List.isEmpty_eq_false_iff.mp hk)
      have hless : tx'.len < tx.len := by
        change k.len + tx'.len = 0 + tx.len at hlen
        omega
      exact .ship hdrain hk (ih _ hless tx' rfl)

theorem packed_packets (hp : 0 < p) {tx : Ring n} (h : tx.Inv) :
    Packed p tx.toList (packets p tx).1 ∧ (packets p tx).2.toList = [] := by
  induction hl : tx.toList.length using Nat.strongRecOn generalizing tx with
  | ind l ih =>
    subst hl
    obtain ⟨rest, hinv, hrest, hdrain⟩ := drain_sink h (k := ({} : Packet p)) (Nat.zero_le p)
    change rest.toList = tx.toList.drop p at hrest
    change Transmit.drain sink tx {} = (_, rest, ⟨tx.toList.take p⟩) at hdrain
    rw [packets_eq hdrain]
    by_cases hq : tx.toList = []
    · rw [hq, List.drop_nil] at hrest
      rw [hq, List.take_nil]
      exact ⟨packed_nil p, hrest⟩
    · have hsome : (⟨tx.toList.take p⟩ : Packet p).isEmpty = false := by
        simp [isEmpty, hq, hp.ne']
      have hpos := List.length_pos_of_ne_nil hq
      have hless : rest.toList.length < tx.toList.length := by
        rw [hrest, List.length_drop]
        omega
      obtain ⟨hpacked, hempty⟩ := ih _ hless hinv rfl
      rw [hrest] at hpacked
      rw [hsome]
      exact ⟨hpacked.cons hp hq, hempty⟩

variable {C : Type} {s : Nat}

/-- Fill a packet from the output of a channel. -/
def fill (ch : Channel C n s) (k : Packet p) : Except Empty Nat × Channel C n s × Packet p :=
  ch.pump sink.beside k

theorem fill_withOutput {ch : Channel C n s} (hd : ch.draining = false) (tx : Ring n)
    (k : Packet p) :
    fill (ch.withOutput tx) k =
      (Transmit.drain sink tx k).map id (Prod.map (fun rest => ch.withOutput rest) id) := by
  have hd' : (ch.withOutput tx).draining = false := hd
  exact Channel.pump_beside sink hd' k

theorem ships_fill {ch : Channel C n s} (hd : ch.draining = false) :
    Ships fill ch ({} : Packet p) (packets p ch.tx).1 (ch.withOutput (packets p ch.tx).2, {}) :=
  (ships_packets p ch.tx).map (f := fun rest => ch.withOutput rest) (fill_withOutput hd)

/-- Packets that are filled and sent until one stays empty take a queue along, each with
as many octets as there is room for. No octet that a pump counts is lost to a packet
that is full. -/
theorem ships_in_packets (hp : 0 < p) {tx : Ring n} (h : tx.Inv) :
    (∃ packets rest, Packed p tx.toList packets ∧ rest.toList = [] ∧
      Packet.packets p tx = (packets, rest) ∧
      (∀ packets' last, Ships (Transmit.drain sink) tx ({} : Packet p) packets' last ↔
        packets' = packets ∧ last = (rest, {})) ∧
      ∀ {C : Type} {s : Nat} (ch : Channel C n s), ch.draining = false → ch.tx = tx →
        ∀ packets' last, Ships fill ch ({} : Packet p) packets' last ↔
          packets' = packets ∧ last = (ch.withOutput rest, {})) ∧
    ∀ k : Packet p, k.len ≤ p → ∃ moved rest filled,
      moved = min tx.toList.length (p - k.len) ∧
      filled.octets = k.octets ++ tx.toList.take moved ∧ rest.toList = tx.toList.drop moved ∧
      Transmit.drain sink tx k = (.ok moved, rest, filled) ∧
      ∀ {C : Type} {s : Nat} (ch : Channel C n s), ch.draining = false → ch.tx = tx →
        fill ch k = (.ok moved, ch.withOutput rest, filled) := by
  constructor
  · obtain ⟨hpacked, hempty⟩ := packed_packets hp h
    refine ⟨(packets p tx).1, (packets p tx).2, hpacked, hempty, rfl, (ships_packets p tx).iff, ?_⟩
    rintro C s ch hd rfl
    exact (ships_fill hd).iff
  · intro k hk
    obtain ⟨rest, -, hrest, hdrain⟩ := drain_sink h hk
    refine ⟨_, rest, _, rfl, ?_, ?_, hdrain, ?_⟩
    · rw [Nat.min_comm, List.take_eq_take_min]
    · rw [hrest, Nat.min_comm, List.drop_eq_drop_min]
    · rintro C s ch hd rfl
      have hfill := fill_withOutput hd ch.tx k
      rw [hdrain] at hfill
      exact hfill

/-- Seven octets across the end of the storage, in packets of three, and one octet for a
packet that holds two. -/
theorem ships_in_packets_wrap :
    let tx : Ring 8 := ⟨#v[4, 5, 6, 7, 0, 1, 2, 3], 7, 4, 5, false⟩
    let ch : Channel Unit 8 1 := { settings := {}, table := ⟨[], rfl⟩, slot := 0, rx := .empty, tx }
    let k : Packet 3 := ⟨[8, 9]⟩
    0 < 3 ∧ tx.Inv ∧ ch.draining = false ∧ k.len ≤ 3 ∧
      (∃ rest, rest.toList = [] ∧
        Ships (Transmit.drain sink) tx ({} : Packet 3) [[1, 2, 3], [4, 5, 6], [7]] (rest, {}) ∧
        Ships fill ch ({} : Packet 3) [[1, 2, 3], [4, 5, 6], [7]] (ch.withOutput rest, {})) ∧
      ∃ rest, rest.toList = [2, 3, 4, 5, 6, 7] ∧
        Transmit.drain sink tx k = (.ok 1, rest, ⟨[8, 9, 1]⟩) ∧
        fill ch k = (.ok 1, ch.withOutput rest, ⟨[8, 9, 1]⟩) := by
  intro tx ch k
  have htx : tx.Inv := ⟨by decide, by decide, by decide, by decide⟩
  have hlist : tx.toList = [1, 2, 3, 4, 5, 6, 7] := by decide
  have hpieces : Packed 3 tx.toList [[1, 2, 3], [4, 5, 6], [7]] :=
    ⟨by decide, by decide, by decide, by decide⟩
  obtain ⟨⟨packets, rest, hpacked, hempty, -, hships, hfill⟩, hpartly⟩ :=
    ships_in_packets (p := 3) (by decide) htx
  obtain rfl := hpieces.unique hpacked
  refine ⟨by decide, htx, rfl, by decide, ⟨rest, hempty, ?_, ?_⟩, ?_⟩
  · exact (hships _ _).mpr ⟨rfl, rfl⟩
  · exact (hfill ch rfl rfl _ _).mpr ⟨rfl, rfl⟩
  · obtain ⟨moved, rest, ⟨octets⟩, hmoved, hoctets, hleft, hdrain, hchannel⟩ :=
      hpartly k (by decide)
    obtain rfl : moved = 1 := by rw [hmoved, hlist]; rfl
    obtain rfl : octets = [8, 9, 1] := by
      rw [hlist] at hoctets
      exact hoctets
    exact ⟨rest, by rw [hleft, hlist]; rfl, hdrain, hchannel ch rfl rfl⟩

end Packet

end CommandLink
