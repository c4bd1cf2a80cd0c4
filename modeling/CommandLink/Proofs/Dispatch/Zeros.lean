import CommandLink.Proofs.Dispatch.Items

namespace CommandLink.Dispatch

variable {C : Type} {settings : Settings} {table : Table C} {n : Nat}

/-- An input at which no step can be made is shorter than the longest frame. -/
theorem length_lt_of_incomplete {q : List UInt8}
    (h : (next settings table q).1.isComplete = false) :
    q.length < table.maxFrameLen settings.coverage := by
  obtain ⟨herror, hframes⟩ := Table.maxFrameLen_le_iff.mp (Nat.le_refl (table.maxFrameLen
    settings.coverage))
  have hframe {t : Tag} {k : Command C} (hl : table.lookup? t = some k) :
      k.requestFrameLen settings.coverage ≤ table.maxFrameLen settings.coverage :=
    (hframes k (Table.lookup?_eq_some hl).1).1
  have hb := begins settings table q
  generalize next settings table q = taken at h hb
  cases hb with
  | noTag q _ ht =>
    have hw : Tag.width ≤ Frame.length settings.coverage 0 := by
      simp only [Frame.length]
      omega
    omega
  | noPayload q t k _ hl hp =>
    have hw := width_le_requestFrameLen settings.coverage k
    have hk := hframe hl
    omega
  | noChecksum q t k _ hl _ hc =>
    have hk := hframe hl
    omega
  | zeroSync | unknownTag | frame => simp [Taken.isComplete] at h

theorem rest_settle_replicate (hz : settings.zeroSync = true) (k : Nat) {o : Outlook C}
    (ho : o.rest = List.replicate k 0) : (settle settings table n o).rest = [] := by
  induction k generalizing o with
  | zero =>
    obtain ⟨told, rest, ctx⟩ := o
    simp only [List.replicate_zero] at ho
    rw [ho, settle_nil]
  | succ k ih =>
    obtain ⟨told, rest, ctx⟩ := o
    simp only [List.replicate_succ] at ho
    rw [ho, settle_begins (.zeroSync _ hz) rfl]
    exact ih rfl

/-- Zeros behind an input are used up by what starts before them or answered one
by one: they are all left only if something before them is left. -/
theorem rest_settle_zeros (hz : settings.zeroSync = true) (k : Nat) {o : Outlook C}
    {q : List UInt8} (ho : o.rest = q ++ List.replicate k 0) :
    (settle settings table n o).rest = [] ∨
      ∃ q', q' ≠ [] ∧ (settle settings table n o).rest = q' ++ List.replicate k 0 := by
  induction hl : q.length using Nat.strongRecOn generalizing q o with
  | ind l ih =>
    subst hl
    by_cases hq : q = []
    · rw [hq, List.nil_append] at ho
      exact .inl (rest_settle_replicate hz k ho)
    · cases h : (next settings table o.rest).1.isComplete with
      | false =>
        rw [settle_incomplete h]
        exact .inr ⟨q, hq, ho⟩
      | true =>
        have hpos := List.length_pos_iff.mpr hq
        obtain ⟨j, hj, -, hnext⟩ := next_drops h
        have hdrop : (absorb settings table n o).rest =
            q.drop j ++ (List.replicate k 0).drop (j - q.length) := by
          rw [← List.drop_append, ← ho]
          exact hnext
        rw [settle_complete h]
        by_cases hle : j ≤ q.length
        · rw [Nat.sub_eq_zero_of_le hle, List.drop_zero] at hdrop
          exact ih _ (by rw [List.length_drop]; omega) hdrop rfl
        · rw [List.drop_of_length_le (by omega), List.drop_replicate, List.nil_append] at hdrop
          exact .inl (rest_settle_replicate hz _ hdrop)

/-- A zero that arrives at an empty input is answered at once. -/
theorem settle_zero (hz : settings.zeroSync = true) (told : List (Step C)) (ctx : C) :
    settle settings table n ⟨told, [0], ctx⟩ =
      ⟨told ++ [⟨.synced .silent, none⟩], [], ctx⟩ := by
  rw [settle_begins (.zeroSync [] hz) rfl, settle_nil]
  rfl

end CommandLink.Dispatch
