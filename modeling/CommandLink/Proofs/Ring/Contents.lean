import CommandLink.Ring.Basic
import Mathlib.Data.List.Basic
import Mathlib.Data.List.Range

namespace CommandLink.Ring

variable {n : Nat}

theorem Inv.pos {r : Ring n} (h : r.Inv) : 0 < n := Nat.lt_of_le_of_lt (Nat.zero_le _) h.put_lt

/-- Positions go round once at most, so that no division is needed. -/
theorem wrap_eq {g i : Nat} (hg : g < n) (hi : i ≤ n) :
    (g + i) % n = if g + i < n then g + i else g + i - n := by
  split
  · next h => exact Nat.mod_eq_of_lt h
  · next h =>
    rw [Nat.mod_eq_sub_mod (by omega)]
    exact Nat.mod_eq_of_lt (by omega)

theorem advance_eq {i : Nat} (hi : i < n) : advance n i = (i + 1) % n := by
  rw [wrap_eq hi (by omega), advance]
  split <;> split <;> omega

theorem advance_lt {i : Nat} (hi : i < n) : advance n i < n := by
  rw [advance_eq hi]
  exact Nat.mod_lt _ (by omega)

theorem wrap_advance {g : Nat} (hg : g < n) (i : Nat) :
    (advance n g + i) % n = (g + (i + 1)) % n := by
  rw [advance_eq hg, Nat.mod_add_mod]
  congr 1
  omega

/-- The octet at the `i`-th place behind the oldest one. -/
def cell (data : Vector UInt8 n) (hn : 0 < n) (g i : Nat) : UInt8 :=
  data.get ⟨(g + i) % n, Nat.mod_lt _ hn⟩

theorem cell_eq (data : Vector UInt8 n) (hn : 0 < n) {g i : Nat} (hi : (g + i) % n < n) :
    cell data hn g i = data[(g + i) % n] := rfl

theorem cell_add (data : Vector UInt8 n) (hn : 0 < n) (g k i : Nat) :
    cell data hn ((g + k) % n) i = cell data hn g (k + i) := by
  simp only [cell, Nat.mod_add_mod, Nat.add_assoc]

theorem cell_advance (data : Vector UInt8 n) (hn : 0 < n) {g : Nat} (hg : g < n) (i : Nat) :
    cell data hn (advance n g) i = cell data hn g (i + 1) := by
  simp only [cell, wrap_advance hg i]

theorem toList_eq (r : Ring n) (hn : 0 < n) :
    r.toList = (List.range r.len).map (cell r.data hn r.get) := by
  rw [toList, ← List.flatMap_pure_eq_map]
  congr 1
  funext i
  have hi : (r.get + i) % n < n := Nat.mod_lt _ hn
  simp [cell_eq, hi]

theorem length_toList {r : Ring n} (h : r.Inv) : r.toList.length = r.len := by
  simp [toList_eq r h.pos]

theorem walk_eq (data : Vector UInt8 n) (hn : 0 < n) (k g : Nat) (hg : g < n) (hk : k ≤ n) :
    walk data k g = (List.range k).map (cell data hn g) := by
  induction k generalizing g with
  | zero => rfl
  | succ k ih =>
    have hw := ih (advance n g) (advance_lt hg) (by omega)
    have hd : data[g]?.toList = [cell data hn g 0] := by
      simp [cell_eq, hg, Nat.mod_eq_of_lt hg]
    have ht : (List.range k).map (cell data hn (advance n g)) =
        (List.range k).map (fun i => cell data hn g (i + 1)) := by
      apply List.map_congr_left
      intro i _
      exact cell_advance data hn hg i
    rw [walk, hd, hw, ht, List.range_succ_eq_map, List.map_cons, List.map_map]
    rfl

theorem oldest?_eq {r : Ring n} (h : r.Inv) (k : Nat) :
    r.oldest? k = if r.toList.length < k then none else some (r.toList.take k) := by
  rw [length_toList h, oldest?]
  split
  · rfl
  · next hk =>
    have hlen := h.len_le
    rw [walk_eq r.data h.pos k r.get h.get_lt (by omega), toList_eq r h.pos, ← List.map_take,
      List.take_range, Nat.min_eq_left (by omega)]

theorem peek?_eq {r : Ring n} (h : r.Inv) : r.peek? = r.toList.head? := by
  rw [toList_eq r h.pos, peek?]
  split
  · next h0 => simp [h0]
  · next h0 =>
    obtain ⟨l, hl⟩ := Nat.exists_eq_succ_of_ne_zero h0
    simp [hl, List.range_succ_eq_map, cell_eq, Nat.mod_eq_of_lt h.get_lt, h.get_lt]

theorem toList_discard {r : Ring n} (h : r.Inv) (k : Nat) :
    (r.discard k).2.toList = r.toList.drop k := by
  rw [toList_eq r h.pos, toList_eq _ h.pos, ← List.map_drop]
  apply List.ext_getElem
  · simp only [discard, List.length_map, List.length_range, List.length_drop]
    omega
  · intro i hi _
    simp only [discard, List.length_map, List.length_range] at hi
    have hk : min k r.len = k := by omega
    simp [discard, hk, cell_add]

theorem tail_toList {r : Ring n} (h : r.Inv) :
    r.toList.tail = (List.range (r.len - 1)).map (cell r.data h.pos (advance n r.get)) := by
  rw [toList_eq r h.pos]
  cases r.len with
  | zero => rfl
  | succ l =>
    rw [List.range_succ_eq_map, List.map_cons, List.tail_cons, List.map_map]
    apply List.map_congr_left
    intro i _
    exact (cell_advance r.data h.pos h.get_lt i).symm

theorem inv_discard {r : Ring n} (h : r.Inv) (k : Nat) : (r.discard k).2.Inv := by
  have hlen := h.len_le
  refine ⟨?_, h.put_lt, Nat.mod_lt _ h.pos, ?_⟩
  · simp only [discard]
    omega
  · simp only [discard, Nat.mod_add_mod]
    rw [h.put_eq]
    congr 1
    omega

theorem take?_eq {r : Ring n} (h : r.Inv) (k : Nat) :
    r.take? k = if r.toList.length < k then none
      else some (r.toList.take k, (r.discard k).2) := by
  rw [take?, oldest?_eq h]
  split <;> rfl

theorem inv_empty (hn : 0 < n) : (empty : Ring n).Inv :=
  ⟨Nat.zero_le _, hn, hn, by simp [empty]⟩

theorem inv_reset {r : Ring n} (hn : 0 < n) : r.reset.Inv :=
  ⟨Nat.zero_le _, hn, hn, by simp [reset]⟩

theorem inv_setOverwrite {r : Ring n} (h : r.Inv) (allow : Bool) : (r.setOverwrite allow).Inv :=
  ⟨h.len_le, h.put_lt, h.get_lt, h.put_eq⟩

theorem toList_setOverwrite (r : Ring n) (allow : Bool) :
    (r.setOverwrite allow).toList = r.toList := rfl

theorem toList_reset (r : Ring n) : r.reset.toList = [] := rfl

theorem toList_empty : (empty : Ring n).toList = [] := rfl

theorem toList_eq_nil_iff {r : Ring n} (h : r.Inv) : r.toList = [] ↔ r.len = 0 := by
  rw [← length_toList h, List.length_eq_zero_iff]

theorem cell_set (data : Vector UInt8 n) (hn : 0 < n) {g l i : Nat} (hg : g < n) (hl : l < n)
    (hi : i < n) (b : UInt8) :
    cell (data.setIfInBounds ((g + l) % n) b) hn g i = if i = l then b else cell data hn g i := by
  have hp : (g + l) % n = (g + i) % n ↔ i = l := by
    rw [wrap_eq hg (by omega), wrap_eq hg (by omega)]
    split <;> split <;> omega
  rw [cell_eq _ hn (Nat.mod_lt _ hn), cell_eq _ hn (Nat.mod_lt _ hn),
    Vector.getElem_setIfInBounds]
  simp only [hp]

/-- The octets up to a place just written are those before it and the new one. -/
theorem range_cell_set (data : Vector UInt8 n) (hn : 0 < n) {g l : Nat} (hg : g < n) (hl : l < n)
    (b : UInt8) :
    (List.range (l + 1)).map (cell (data.setIfInBounds ((g + l) % n) b) hn g) =
      (List.range l).map (cell data hn g) ++ [b] := by
  have hold : (List.range l).map (cell (data.setIfInBounds ((g + l) % n) b) hn g) =
      (List.range l).map (cell data hn g) := by
    apply List.map_congr_left
    intro i hi
    have hlt := List.mem_range.mp hi
    rw [cell_set data hn hg hl (by omega), if_neg (by omega)]
  rw [List.range_succ, List.map_append, hold, List.map_singleton, cell_set data hn hg hl hl,
    if_pos rfl]

/-- What becomes of a queue that one octet is offered to. -/
inductive Pushed (r : Ring n) (b : UInt8) : Option (Ring n) → Prop
  | refused (hfull : r.len = n) (hpolicy : r.overwrite = false) : Pushed r b none
  | displaced (r' : Ring n) (hfull : r.len = n) (hpolicy : r.overwrite = true)
      (hlist : r'.toList = r.toList.tail ++ [b]) (hinv : r'.Inv)
      (hkept : r'.overwrite = r.overwrite) : Pushed r b (some r')
  | stored (r' : Ring n) (hroom : r.len < n) (hlist : r'.toList = r.toList ++ [b])
      (hinv : r'.Inv) (hkept : r'.overwrite = r.overwrite) : Pushed r b (some r')

theorem pushed {r : Ring n} (h : r.Inv) (b : UInt8) : Pushed r b (r.push? b) := by
  have hn := h.pos
  have hlen := h.len_le
  rw [push?]
  by_cases hfull : r.len = n
  · rw [if_pos hfull]
    by_cases hpolicy : r.overwrite = true
    · rw [if_pos hpolicy]
      have hg := advance_lt h.get_lt
      have hput : r.put = (advance n r.get + (n - 1)) % n := by
        rw [wrap_advance h.get_lt, h.put_eq, hfull]
        congr 1
        omega
      refine .displaced _ hfull hpolicy ?_ ⟨hlen, advance_lt h.put_lt, hg, ?_⟩ rfl
      · have hl := range_cell_set r.data hn hg (show n - 1 < n by omega) b
        rw [Nat.sub_add_cancel hn, ← hput] at hl
        rw [tail_toList h, hfull]
        rw [toList_eq _ hn]
        simpa only [store, hfull] using hl
      · show advance n r.put = (advance n r.get + r.len) % n
        rw [wrap_advance h.get_lt, advance_eq h.put_lt, h.put_eq, Nat.mod_add_mod, Nat.add_assoc]
    · rw [if_neg hpolicy]
      exact .refused hfull (by simpa using hpolicy)
  · rw [if_neg hfull]
    have hroom : r.len < n := by omega
    refine .stored _ hroom ?_ ⟨hroom, advance_lt h.put_lt, h.get_lt, ?_⟩ rfl
    · rw [toList_eq _ hn, toList_eq _ hn]
      have hl := range_cell_set r.data hn h.get_lt hroom b
      rw [← h.put_eq] at hl
      exact hl
    · show advance n r.put = (r.get + (r.len + 1)) % n
      rw [advance_eq h.put_lt, h.put_eq, Nat.mod_add_mod, Nat.add_assoc]

theorem offer_none {r : Ring n} {b : UInt8} (hp : r.push? b = none) (bs : List UInt8) :
    r.offer (b :: bs) = r.offer bs := by rw [offer, hp]

theorem offer_some {r r' : Ring n} {b : UInt8} (hp : r.push? b = some r') (bs : List UInt8) :
    r.offer (b :: bs) = ((r'.offer bs).1 + 1, (r'.offer bs).2) := by rw [offer, hp]

/-- Two bursts in a row are one burst. -/
theorem offer_append (r : Ring n) (bs bs' : List UInt8) :
    r.offer (bs ++ bs') =
      ((r.offer bs).1 + ((r.offer bs).2.offer bs').1, ((r.offer bs).2.offer bs').2) := by
  induction bs generalizing r with
  | nil => rw [List.nil_append, offer, Nat.zero_add]
  | cons b bs ih =>
    rw [List.cons_append]
    cases hp : r.push? b with
    | none => rw [offer_none hp, offer_none hp, ih]
    | some r' => rw [offer_some hp, offer_some hp, ih, Nat.add_right_comm]

theorem inv_offer {r : Ring n} (h : r.Inv) (bs : List UInt8) :
    (r.offer bs).2.Inv ∧ (r.offer bs).2.overwrite = r.overwrite := by
  induction bs generalizing r with
  | nil => exact ⟨h, rfl⟩
  | cons b bs ih =>
    have hp := pushed h b
    generalize ho : r.push? b = o at hp
    cases hp with
    | refused =>
      rw [offer_none ho]
      exact ih h
    | displaced r' _ _ _ hinv hkept | stored r' _ _ hinv hkept =>
      rw [offer_some ho]
      exact ⟨(ih hinv).1, (ih hinv).2.trans hkept⟩

/-- A queue that refuses keeps what fits and loses the newest. -/
theorem offer_refusing {r : Ring n} (h : r.Inv) (hr : r.overwrite = false) (bs : List UInt8) :
    (r.offer bs).2.toList = (r.toList ++ bs).take n ∧
      (r.offer bs).1 = min bs.length (n - r.len) := by
  induction bs generalizing r with
  | nil =>
    have hlen := h.len_le
    rw [← length_toList h] at hlen
    exact ⟨by rw [List.append_nil, List.take_of_length_le hlen]; rfl, by simp [offer]⟩
  | cons b bs ih =>
    have hlen := length_toList h
    have hp := pushed h b
    generalize ho : r.push? b = o at hp
    cases hp with
    | refused hfull _ =>
      obtain ⟨hl, hs⟩ := ih h hr
      rw [offer_none ho]
      refine ⟨?_, by omega⟩
      rw [hl, List.take_append_of_le_length (by omega), List.take_append_of_le_length (by omega)]
    | displaced r' _ hp _ _ _ => simp [hr] at hp
    | stored r' hroom hlist hinv hkept =>
      obtain ⟨hl, hs⟩ := ih hinv (hkept.trans hr)
      have hlen' := length_toList hinv
      rw [hlist, List.length_append, hlen, List.length_singleton] at hlen'
      rw [offer_some ho]
      refine ⟨by rw [hl, hlist, List.append_assoc]; rfl, ?_⟩
      simp only [hs, List.length_cons]
      omega

/-- A queue that displaces stores everything and loses the oldest. -/
theorem offer_displacing {r : Ring n} (h : r.Inv) (hr : r.overwrite = true) (bs : List UInt8) :
    (r.offer bs).2.toList = (r.toList ++ bs).drop (r.len + bs.length - n) ∧
      (r.offer bs).1 = bs.length := by
  induction bs generalizing r with
  | nil =>
    have hlen := h.len_le
    exact ⟨by simp [offer, Nat.sub_eq_zero_of_le hlen], rfl⟩
  | cons b bs ih =>
    have hlen := length_toList h
    have hp := pushed h b
    generalize ho : r.push? b = o at hp
    cases hp with
    | refused _ hp => simp [hr] at hp
    | displaced r' hfull _ hlist hinv hkept =>
      obtain ⟨hl, hs⟩ := ih hinv (hkept.trans hr)
      have hpos := h.pos
      have hlen' := length_toList hinv
      rw [hlist, List.length_append, List.length_tail, List.length_singleton] at hlen'
      rw [offer_some ho]
      refine ⟨?_, by rw [hs, List.length_cons]⟩
      have hd : r.len + (b :: bs).length - n = bs.length + 1 := by
        rw [List.length_cons]
        omega
      have hd' : r'.len + bs.length - n = bs.length := by omega
      rw [hl, hlist, hd, hd', List.append_assoc, List.singleton_append]
      cases hq : r.toList with
      | nil => rw [hq] at hlen; simp at hlen; omega
      | cons a as => rw [List.cons_append, List.drop_succ_cons, List.tail_cons]
    | stored r' hroom hlist hinv hkept =>
      obtain ⟨hl, hs⟩ := ih hinv (hkept.trans hr)
      have hlen' := length_toList hinv
      rw [hlist, List.length_append, hlen, List.length_singleton] at hlen'
      rw [offer_some ho]
      refine ⟨?_, by rw [hs, List.length_cons]⟩
      rw [hl, hlist, List.append_assoc, ← hlen', List.length_cons, List.singleton_append,
        Nat.add_assoc, Nat.add_comm 1]

/-- Nothing was lost where the queue grew by all that was offered. -/
theorem offer_lossless {r : Ring n} (h : r.Inv) (bs : List UInt8)
    (hl : (r.offer bs).2.len = r.len + bs.length) : (r.offer bs).2.toList = r.toList ++ bs := by
  have hn := (inv_offer h bs).1.len_le
  have hlen := length_toList h
  cases hr : r.overwrite with
  | false =>
    rw [(offer_refusing h hr bs).1, List.take_of_length_le]
    rw [List.length_append]
    omega
  | true =>
    rw [(offer_displacing h hr bs).1, Nat.sub_eq_zero_of_le (by omega), List.drop_zero]

theorem len_offer_of_fits {r : Ring n} (h : r.Inv) {bs : List UInt8} (hl : r.len + bs.length ≤ n) :
    (r.offer bs).2.len = r.len + bs.length := by
  have hlen := length_toList h
  rw [← length_toList (inv_offer h bs).1]
  cases hr : r.overwrite with
  | false =>
    rw [(offer_refusing h hr bs).1, List.length_take, List.length_append]
    omega
  | true =>
    rw [(offer_displacing h hr bs).1, List.length_drop, List.length_append]
    omega

/-- Where the oldest octets may not be displaced, all octets are queued behind
the present ones or none is. -/
theorem pushAll?_eq {r : Ring n} (h : r.Inv) (hr : r.overwrite = false) (bs : List UInt8) :
    (n - r.len < bs.length ∧ r.pushAll? bs = none) ∨
      ∃ r', r.pushAll? bs = some r' ∧ r'.toList = r.toList ++ bs ∧ r'.Inv ∧
        r'.overwrite = false := by
  rw [pushAll?]
  by_cases hfit : n - r.len < bs.length
  · exact .inl ⟨hfit, if_pos ⟨hr, hfit⟩⟩
  · right
    have hlen := length_toList h
    have hle := h.len_le
    obtain ⟨hinv, hkept⟩ := inv_offer h bs
    refine ⟨_, if_neg fun hc => hfit hc.2, ?_, hinv, hkept.trans hr⟩
    rw [(offer_refusing h hr bs).1, List.take_of_length_le]
    rw [List.length_append]
    omega

end CommandLink.Ring
