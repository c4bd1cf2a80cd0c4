import CommandLink.Proofs.Dispatch.Account

namespace CommandLink

variable {C : Type} {n : Nat}

/-- Whatever a channel takes in or sends out has a place in `n` octets. -/
structure Table.Fits (table : Table C) (c : Coverage) (n : Nat) : Prop where
  bare : ∀ e : ErrorReply, (Frame.encode c e.tag []).length ≤ n
  request : ∀ k ∈ table.commands, k.requestFrameLen c ≤ n
  response : ∀ k ∈ table.commands, k.responseFrameLen c ≤ n

theorem Table.fits_iff {table : Table C} {c : Coverage} :
    table.Fits c n ↔ table.maxFrameLen c ≤ n := by
  rw [maxFrameLen_le_iff]
  constructor
  · intro h
    have hbare := h.bare .command
    rw [Frame.length_encode] at hbare
    exact ⟨hbare, fun k hk => ⟨h.request k hk, h.response k hk⟩⟩
  · rintro ⟨hbare, hframes⟩
    refine ⟨fun e => ?_, fun k hk => (hframes k hk).1, fun k hk => (hframes k hk).2⟩
    rwa [Frame.length_encode]

namespace Dispatch

variable {settings : Settings} {table : Table C}

/-- The memory of a channel that was built has a place for every response. -/
theorem room_of_fits (hfit : table.Fits settings.coverage n) {k : Command C}
    (hk : k ∈ table.commands) : ¬n < Tag.width + k.responseLen := by
  have hresponse := hfit.response k hk
  simp only [Command.responseFrameLen, Frame.length] at hresponse
  omega

end Dispatch

end CommandLink
