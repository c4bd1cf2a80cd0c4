import CommandLink.Command.Table
import Mathlib.Data.List.Nodup

namespace CommandLink

theorem Tag.ofOctets?_toOctets (t : Tag) (q : List UInt8) :
    Tag.ofOctets? (t.toOctets ++ q) = some t := rfl

theorem Tag.ofOctets?_eq_some {q : List UInt8} {t : Tag} (h : Tag.ofOctets? q = some t) :
    ∃ rest, q = t.toOctets ++ rest := by
  match q, h with
  | a :: b :: c :: d :: rest, h =>
    simp only [Tag.ofOctets?, Option.some.injEq] at h
    subst h
    exact ⟨rest, rfl⟩

theorem Tag.ofOctets?_eq_none_iff {q : List UInt8} :
    Tag.ofOctets? q = none ↔ q.length < Tag.width := by
  match q with
  | [] | [_] | [_, _] | [_, _, _] => simp [Tag.ofOctets?, Tag.width]
  | _ :: _ :: _ :: _ :: _ => simp [Tag.ofOctets?, Tag.width]

theorem Tag.ofOctets?_append {q : List UInt8} {t : Tag} (h : Tag.ofOctets? q = some t)
    (r : List UInt8) : Tag.ofOctets? (q ++ r) = some t := by
  obtain ⟨rest, rfl⟩ := Tag.ofOctets?_eq_some h
  rw [List.append_assoc]
  exact Tag.ofOctets?_toOctets t (rest ++ r)

/-- A tag shows already in its own four octets. -/
theorem Tag.ofOctets?_take {k : Nat} (hk : Tag.width ≤ k) (q : List UInt8) :
    Tag.ofOctets? (q.take k) = Tag.ofOctets? q := by
  obtain ⟨m, rfl⟩ := Nat.exists_eq_add_of_le' hk
  match q with
  | [] | [_] | [_, _] | [_, _, _] => rfl
  | _ :: _ :: _ :: _ :: _ => rfl

theorem Tag.head?_of_ofOctets? {q : List UInt8} {t : Tag} (h : Tag.ofOctets? q = some t) :
    q.head? = some t.first := by
  obtain ⟨rest, rfl⟩ := Tag.ofOctets?_eq_some h
  rfl

theorem TableError.ofTag?_eq_none_iff {earlier : List Tag} {t : Tag} :
    TableError.ofTag? earlier t = none ↔
      t.first ≠ 0 ∧ t.isReserved = false ∧ t ∉ earlier := by
  rw [TableError.ofTag?]
  by_cases h0 : t.first = 0
  · simp [h0]
  · by_cases hr : t.isReserved = true
    · simp [h0, hr]
    · by_cases he : t ∈ earlier <;> simp [h0, hr, he]

theorem TableError.ofTags?_eq_none {earlier ts : List Tag}
    (h : TableError.ofTags? earlier ts = none) :
    ts.Nodup ∧ ∀ t ∈ ts, t.first ≠ 0 ∧ t.isReserved = false ∧ t ∉ earlier := by
  induction ts generalizing earlier with
  | nil => exact ⟨List.nodup_nil, by simp⟩
  | cons t ts ih =>
    rw [TableError.ofTags?] at h
    cases ht : TableError.ofTag? earlier t with
    | some e => simp [ht] at h
    | none =>
      simp only [ht] at h
      obtain ⟨hnodup, hgood⟩ := ih h
      refine ⟨List.nodup_cons.mpr ⟨fun hm => (hgood t hm).2.2 (by simp), hnodup⟩, ?_⟩
      intro u hu
      cases List.mem_cons.mp hu with
      | inl he => exact he ▸ TableError.ofTag?_eq_none_iff.mp ht
      | inr hm =>
        obtain ⟨hz, hr, hn⟩ := hgood u hm
        exact ⟨hz, hr, fun he => hn (by simp [he])⟩

namespace Table

variable {C : Type}

theorem nodup_tags (table : Table C) : (table.commands.map Command.tag).Nodup :=
  (TableError.ofTags?_eq_none table.sound).1

theorem tag_first_ne (table : Table C) {k : Command C} (hk : k ∈ table.commands) :
    k.tag.first ≠ 0 :=
  ((TableError.ofTags?_eq_none table.sound).2 k.tag (List.mem_map_of_mem hk)).1

theorem tag_isReserved (table : Table C) {k : Command C} (hk : k ∈ table.commands) :
    k.tag.isReserved = false :=
  ((TableError.ofTags?_eq_none table.sound).2 k.tag (List.mem_map_of_mem hk)).2.1

theorem lookup?_eq_some {table : Table C} {t : Tag} {k : Command C}
    (h : table.lookup? t = some k) : k ∈ table.commands ∧ k.tag = t := by
  refine ⟨List.mem_of_find?_eq_some h, ?_⟩
  have ht := List.find?_some h
  simpa using ht

/-- Tags are distinct, so that the first match is the only one. -/
theorem lookup?_tag (table : Table C) {k : Command C} (hk : k ∈ table.commands) :
    table.lookup? k.tag = some k := by
  cases hl : table.lookup? k.tag with
  | none =>
    have hn := List.find?_eq_none.mp hl k hk
    simp at hn
  | some k' =>
    obtain ⟨hm, ht⟩ := lookup?_eq_some hl
    rw [List.inj_on_of_nodup_map table.nodup_tags hm hk ht]

theorem first_ne_of_lookup? {table : Table C} {t : Tag} {k : Command C}
    (h : table.lookup? t = some k) : t.first ≠ 0 := by
  obtain ⟨hm, rfl⟩ := lookup?_eq_some h
  exact table.tag_first_ne hm

theorem lookup?_eq_none {table : Table C} {t : Tag} (h : ∀ k ∈ table.commands, k.tag ≠ t) :
    table.lookup? t = none := by
  cases hl : table.lookup? t with
  | none => rfl
  | some k =>
    obtain ⟨hm, ht⟩ := lookup?_eq_some hl
    exact absurd ht (h k hm)

/-- Room for the longest frame is room for every frame that a channel handles. -/
theorem maxFrameLen_le_iff {c : Coverage} {table : Table C} {n : Nat} :
    table.maxFrameLen c ≤ n ↔ Frame.length c 0 ≤ n ∧
      ∀ k ∈ table.commands, k.requestFrameLen c ≤ n ∧ k.responseFrameLen c ≤ n := by
  rw [maxFrameLen]
  generalize Frame.length c 0 = m
  induction table.commands generalizing m with
  | nil => simp
  | cons k ks ih =>
    rw [List.foldl_cons, ih, Nat.max_le, Nat.max_le, List.forall_mem_cons, and_assoc]

end Table

end CommandLink
