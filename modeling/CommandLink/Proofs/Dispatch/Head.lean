import CommandLink.Dispatch.Step
import CommandLink.Proofs.Command.Sound
import CommandLink.Proofs.Ring.Contents

namespace CommandLink

def Taken.isComplete {C : Type} : Taken C → Bool
  | .incomplete _ => false
  | _ => true

namespace Dispatch

variable {C : Type} {n : Nat} {settings : Settings} {table : Table C}

/-- What stands at the head of an input and what follows it, as far as the
octets alone decide it. -/
def next (settings : Settings) (table : Table C) (q : List UInt8) : Taken C × List UInt8 :=
  if settings.zeroSync ∧ q.head? = some 0 then (.zeroSync, q.drop 1)
  else match Tag.ofOctets? q with
    | none => (.incomplete .tag, q)
    | some t =>
      match table.lookup? t with
      | none => (.unknownTag, q.drop 1)
      | some k =>
        if q.length < Tag.width + k.requestLen then (.incomplete .payload, q)
        else if q.length < k.requestFrameLen settings.coverage then (.incomplete .checksum, q)
        else (.frame k (q.take (k.requestFrameLen settings.coverage)),
          q.drop (k.requestFrameLen settings.coverage))

theorem width_le_requestFrameLen (c : Coverage) (k : Command C) :
    Tag.width + k.requestLen ≤ k.requestFrameLen c := by
  simp only [Command.requestFrameLen, Frame.length]
  omega

theorem oldest?_bind_tag {rx : Ring n} (h : rx.Inv) :
    (rx.oldest? Tag.width).bind Tag.ofOctets? = Tag.ofOctets? rx.toList := by
  rw [Ring.oldest?_eq h]
  split
  · next hl => exact (Tag.ofOctets?_eq_none_iff.mpr hl).symm
  · exact Tag.ofOctets?_take (Nat.le_refl _) _

/-- A queue is read by its contents alone, wherever they lie in the storage. -/
theorem takeFrame_eq {rx : Ring n} (h : rx.Inv) :
    (takeFrame settings table rx).1 = (next settings table rx.toList).1 ∧
      (takeFrame settings table rx).2.toList = (next settings table rx.toList).2 := by
  rw [takeFrame, next, Ring.peek?_eq h, oldest?_bind_tag h]
  by_cases hz : settings.zeroSync ∧ rx.toList.head? = some 0
  · rw [if_pos hz, if_pos hz]
    exact ⟨rfl, Ring.toList_discard h 1⟩
  · rw [if_neg hz, if_neg hz]
    cases Tag.ofOctets? rx.toList with
    | none => exact ⟨rfl, rfl⟩
    | some t =>
      simp only
      cases table.lookup? t with
      | none => exact ⟨rfl, Ring.toList_discard h 1⟩
      | some k =>
        simp only [← Ring.length_toList h]
        by_cases hp : rx.toList.length < Tag.width + k.requestLen
        · rw [if_pos hp, if_pos hp]
          exact ⟨rfl, rfl⟩
        · rw [if_neg hp, if_neg hp, Ring.take?_eq h]
          by_cases hc : rx.toList.length < k.requestFrameLen settings.coverage
          · rw [if_pos hc, if_pos hc]
            exact ⟨rfl, rfl⟩
          · rw [if_neg hc, if_neg hc]
            exact ⟨rfl, Ring.toList_discard h _⟩

/-- Taking an item is dropping octets from the head of the queue. -/
theorem takeFrame_discards (settings : Settings) (table : Table C) (rx : Ring n) :
    ((takeFrame settings table rx).1.isComplete = false ∧ (takeFrame settings table rx).2 = rx) ∨
      ((takeFrame settings table rx).1.isComplete = true ∧
        ∃ k, (takeFrame settings table rx).2 = (rx.discard k).2) := by
  rw [takeFrame]
  split
  · exact .inr ⟨rfl, 1, rfl⟩
  · split
    · exact .inl ⟨rfl, rfl⟩
    · split
      · exact .inr ⟨rfl, 1, rfl⟩
      · split
        · exact .inl ⟨rfl, rfl⟩
        · split
          · exact .inl ⟨rfl, rfl⟩
          · next octets rx' hk =>
            obtain ⟨bs, -, heq⟩ := Option.map_eq_some_iff.mp hk
            simp only [Prod.mk.injEq] at heq
            exact .inr ⟨rfl, _, heq.2.symm⟩

theorem inv_takeFrame {rx : Ring n} (h : rx.Inv) : (takeFrame settings table rx).2.Inv := by
  rcases takeFrame_discards settings table rx with ⟨-, he⟩ | ⟨-, k, he⟩
  · rwa [he]
  · rw [he]
    exact Ring.inv_discard h k

theorem takeFrame_overwrite (settings : Settings) (table : Table C) (rx : Ring n) :
    (takeFrame settings table rx).2.overwrite = rx.overwrite := by
  rcases takeFrame_discards settings table rx with ⟨-, he⟩ | ⟨-, k, he⟩ <;>
    rw [he]
  rfl

/-- The six ways in which an input can begin. A tag of the table never starts
with a zero, so that the synchronisation octet hides no frame. -/
inductive Begins (settings : Settings) (table : Table C) :
    List UInt8 → Taken C × List UInt8 → Prop
  | zeroSync (rest : List UInt8) (hz : settings.zeroSync = true) :
    Begins settings table (0 :: rest) (.zeroSync, rest)
  | noTag (q : List UInt8) (hz : ¬(settings.zeroSync ∧ q.head? = some 0))
    (ht : q.length < Tag.width) : Begins settings table q (.incomplete .tag, q)
  | unknownTag (b : UInt8) (rest : List UInt8) (t : Tag) (hz : ¬(settings.zeroSync ∧ b = 0))
    (ht : Tag.ofOctets? (b :: rest) = some t) (hl : table.lookup? t = none) :
    Begins settings table (b :: rest) (.unknownTag, rest)
  | noPayload (q : List UInt8) (t : Tag) (k : Command C) (ht : Tag.ofOctets? q = some t)
    (hl : table.lookup? t = some k) (hp : q.length < Tag.width + k.requestLen) :
    Begins settings table q (.incomplete .payload, q)
  | noChecksum (q : List UInt8) (t : Tag) (k : Command C) (ht : Tag.ofOctets? q = some t)
    (hl : table.lookup? t = some k) (hp : Tag.width + k.requestLen ≤ q.length)
    (hc : q.length < k.requestFrameLen settings.coverage) :
    Begins settings table q (.incomplete .checksum, q)
  | frame (octets rest : List UInt8) (t : Tag) (k : Command C) (ht : Tag.ofOctets? octets = some t)
    (hl : table.lookup? t = some k) (hc : octets.length = k.requestFrameLen settings.coverage) :
    Begins settings table (octets ++ rest) (.frame k octets, rest)

theorem begins (settings : Settings) (table : Table C) (q : List UInt8) :
    Begins settings table q (next settings table q) := by
  rw [next]
  by_cases hz : settings.zeroSync ∧ q.head? = some 0
  · rw [if_pos hz]
    cases q with
    | nil => simp at hz
    | cons b q =>
      simp only [List.head?_cons, Option.some.injEq] at hz
      obtain ⟨hz, rfl⟩ := hz
      exact .zeroSync q hz
  · rw [if_neg hz]
    cases ht : Tag.ofOctets? q with
    | none => exact .noTag q hz (Tag.ofOctets?_eq_none_iff.mp ht)
    | some t =>
      simp only
      cases hl : table.lookup? t with
      | none =>
        cases q with
        | nil => simp [Tag.ofOctets?] at ht
        | cons b q => exact .unknownTag b q t (by simpa using hz) ht hl
      | some k =>
        simp only
        by_cases hp : q.length < Tag.width + k.requestLen
        · rw [if_pos hp]
          exact .noPayload q t k ht hl hp
        · rw [if_neg hp]
          by_cases hc : q.length < k.requestFrameLen settings.coverage
          · rw [if_pos hc]
            exact .noChecksum q t k ht hl (Nat.le_of_not_lt hp) hc
          · rw [if_neg hc]
            have hw := width_le_requestFrameLen settings.coverage k
            have ht' : Tag.ofOctets? (q.take (k.requestFrameLen settings.coverage)) = some t := by
              rw [Tag.ofOctets?_take (by omega), ht]
            have hb := Begins.frame _ (q.drop (k.requestFrameLen settings.coverage)) t k ht' hl
              (List.length_take_of_le (Nat.le_of_not_lt hc))
            rwa [List.take_append_drop] at hb

theorem next_eq {q : List UInt8} {r : Taken C × List UInt8} (h : Begins settings table q r) :
    next settings table q = r := by
  have hnz {t : Tag} {k : Command C} {q : List UInt8} (ht : Tag.ofOctets? q = some t)
      (hl : table.lookup? t = some k) : ¬(settings.zeroSync ∧ q.head? = some 0) := by
    rintro ⟨-, h0⟩
    rw [Tag.head?_of_ofOctets? ht, Option.some.injEq] at h0
    exact Table.first_ne_of_lookup? hl h0
  cases h with
  | zeroSync rest hz => simp [next, hz]
  | noTag q hz ht => simp [next, if_neg hz, Tag.ofOctets?_eq_none_iff.mpr ht]
  | unknownTag b rest t hz ht hl =>
    rw [next, if_neg (by simpa using hz)]
    simp [ht, hl]
  | noPayload q t k ht hl hp =>
    rw [next, if_neg (hnz ht hl)]
    simp [ht, hl, hp]
  | noChecksum q t k ht hl hp hc =>
    rw [next, if_neg (hnz ht hl)]
    simp [ht, hl, Nat.not_lt.mpr hp, hc]
  | frame octets rest t k ht hl hc =>
    have hw := width_le_requestFrameLen settings.coverage k
    have ht' := Tag.ofOctets?_append ht rest
    rw [next, if_neg (hnz ht' hl)]
    simp only [ht', hl, List.length_append]
    rw [if_neg (by omega), if_neg (by omega), ← hc, List.take_left, List.drop_left]

/-- Once an item is complete, nothing that arrives later changes it. -/
theorem next_append {q : List UInt8} (h : (next settings table q).1.isComplete = true)
    (r : List UInt8) :
    next settings table (q ++ r) =
      ((next settings table q).1, (next settings table q).2 ++ r) := by
  have hb := begins settings table q
  generalize next settings table q = taken at h hb
  apply next_eq
  cases hb with
  | zeroSync rest hz => exact .zeroSync (rest ++ r) hz
  | unknownTag b rest t hz ht hl =>
    exact .unknownTag b (rest ++ r) t hz (Tag.ofOctets?_append ht r) hl
  | frame octets rest t k ht hl hc =>
    rw [List.append_assoc]
    exact .frame octets (rest ++ r) t k ht hl hc
  | noTag | noPayload | noChecksum => simp [Taken.isComplete] at h

/-- A complete item is taken off the head of the input. -/
theorem next_drops {q : List UInt8} (h : (next settings table q).1.isComplete = true) :
    ∃ k, 0 < k ∧ k ≤ q.length ∧ (next settings table q).2 = q.drop k := by
  have hb := begins settings table q
  generalize next settings table q = taken at h hb
  cases hb with
  | zeroSync rest _ | unknownTag _ rest =>
    exact ⟨1, Nat.one_pos, Nat.succ_le_succ (Nat.zero_le _), rfl⟩
  | frame octets rest t k _ _ hc =>
    have hw := width_le_requestFrameLen settings.coverage k
    have hpos : 0 < Tag.width := by decide
    refine ⟨octets.length, by omega, ?_, List.drop_left.symm⟩
    rw [List.length_append]
    exact Nat.le_add_right _ _
  | noTag | noPayload | noChecksum => simp [Taken.isComplete] at h

theorem next_shorter {q : List UInt8} (h : (next settings table q).1.isComplete = true) :
    (next settings table q).2.length < q.length := by
  obtain ⟨k, hpos, hle, hnext⟩ := next_drops h
  rw [hnext, List.length_drop]
  omega

/-- An item that is taken for a frame is one: its tag is in the table, and its length
is that of the request. -/
theorem frame_of_takeFrame {rx : Ring n} (h : rx.Inv) {k : Command C} {frame : List UInt8}
    (ht : (takeFrame settings table rx).1 = .frame k frame) :
    k ∈ table.commands ∧ Tag.ofOctets? frame = some k.tag ∧
      frame.length = k.requestFrameLen settings.coverage := by
  rw [(takeFrame_eq h).1] at ht
  have hb := begins settings table rx.toList
  generalize rx.toList = q at ht hb
  generalize next settings table q = taken at ht hb
  cases hb with
  | frame frame rest t k htag hl hlen =>
    cases ht
    obtain ⟨hk, rfl⟩ := Table.lookup?_eq_some hl
    exact ⟨hk, htag, hlen⟩
  | zeroSync | noTag | unknownTag | noPayload | noChecksum => cases ht

end Dispatch

end CommandLink
