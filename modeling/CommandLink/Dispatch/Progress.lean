import CommandLink.Dispatch.Step

namespace CommandLink.Dispatch

variable {C : Type} {n : Nat}

theorem discard_lt {r : Ring n} {k : Nat} (hk : 0 < k) (hr : 0 < r.len) :
    (r.discard k).2.len < r.len := by
  simp only [Ring.discard]
  omega

theorem takeFrame_lt (settings : Settings) (table : Table C) (rx : Ring n) :
    (∃ a, (takeFrame settings table rx).1 = .incomplete a) ∨
      (takeFrame settings table rx).2.len < rx.len := by
  unfold takeFrame
  split
  · next h =>
    refine .inr (discard_lt (by decide) ?_)
    have h0 := h.2
    unfold Ring.peek? at h0
    split at h0
    · simp at h0
    · omega
  · split
    · exact .inl ⟨_, rfl⟩
    · next t ht =>
      have hlen : Tag.width ≤ rx.len := by
        unfold Ring.oldest? at ht
        split at ht
        · simp at ht
        · omega
      have hw : Tag.width = 4 := rfl
      split
      · exact .inr (discard_lt (by decide) (by omega))
      · next k _ =>
        split
        · exact .inl ⟨_, rfl⟩
        · split
          · exact .inl ⟨_, rfl⟩
          · next octets rx' hk =>
            refine .inr ?_
            unfold Ring.take? at hk
            obtain ⟨bs, _, heq⟩ := Option.map_eq_some_iff.mp hk
            have hrx : rx' = (rx.discard (k.requestFrameLen settings.coverage)).2 := by
              simp only [Prod.mk.injEq] at heq
              exact heq.2.symm
            show rx'.len < rx.len
            rw [hrx]
            refine discard_lt ?_ (by omega)
            simp only [Command.requestFrameLen, Frame.length]
            omega

theorem step_rx_lt {settings : Settings} {table : Table C} {rx tx : Ring n} {ctx : C}
    (h : (step settings table rx tx ctx).1.progressed = true) :
    (step settings table rx tx ctx).2.1.len < rx.len := by
  rcases takeFrame_lt settings table rx with ⟨a, ha⟩ | hlt
  · simp [step, ha, answer, Outcome.progressed] at h
  · exact hlt

end CommandLink.Dispatch
