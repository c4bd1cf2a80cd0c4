import CommandLink.Proofs.Channel.Service
import CommandLink.Proofs.Dispatch.Zeros

namespace CommandLink.Session

variable {C : Type} {n s : Nat}

open Dispatch

/-- A session that waits for more octets: no step can be made. -/
structure Resting (ses : Session C n s) : Prop where
  inv : ses.channel.Inv
  stuck : (next ses.channel.settings ses.channel.table ses.channel.rx.toList).1.isComplete = false

theorem resting_processAll {ses : Session C n s} (h : ses.channel.Inv) :
    ses.processAll.Resting := by
  have hinv := (processAll_kept h).inv
  refine ⟨hinv, ?_⟩
  rw [← processAll_rests ses]
  exact (progressed_process hinv).symm

/-- A partial frame leaves room for the rest of it. -/
theorem Resting.len_lt {ses : Session C n s} (h : ses.Resting) :
    ses.channel.rx.len < ses.channel.table.maxFrameLen ses.channel.settings.coverage := by
  rw [← Ring.length_toList h.inv.rx]
  exact length_lt_of_incomplete h.stuck

/-- Zeros arrive one by one, each with all the steps that it makes possible. -/
def zeros (arrivals : List (TimerQueue s × UInt32)) : List (TimerQueue s × Op s) :=
  bytewise (arrivals.map fun a => (a.1, 0, a.2))

variable {ses : Session C n s}

theorem Resting.lossless (h : ses.Resting) (timers : TimerQueue s) (b : UInt8) (now : UInt32) :
    ses.Lossless timers (.receiveByte b now) := by
  have hlt := h.len_lt
  have hfits := h.inv.fits
  have hroom : ses.channel.rx.len + [b].length ≤ n := by
    rw [List.length_singleton]
    omega
  exact lossless_of_fits h.inv timers now hroom

theorem Resting.zero (h : ses.Resting) (a : TimerQueue s × UInt32) :
    (ses.run (zeros [a])).Resting :=
  resting_processAll (apply_kept h.inv a.1 (.receiveByte 0 a.2)).inv

theorem Resting.outlook_zero (h : ses.Resting) (a : TimerQueue s × UInt32) :
    (ses.run (zeros [a])).outlook = settle ses.channel.settings ses.channel.table n
      { ses.outlook with rest := ses.channel.rx.toList ++ [0] } := by
  have hinv := (apply_kept h.inv a.1 (.receiveByte 0 a.2)).inv
  have hl := h.lossless a.1 0 a.2
  show (ses.apply a.1 (.receiveByte 0 a.2)).1.processAll.outlook = _
  rw [outlook_processAll hinv, settled_apply h.inv hl, settled, feed_settle]
  rfl

/-- After `k` zeros the input is empty, or all of them wait behind what was there
before them. -/
structure Flushing (ses : Session C n s) (k : Nat) : Prop extends ses.Resting where
  zeroSync : ses.channel.settings.zeroSync = true
  left : ses.channel.rx.toList = [] ∨
    ∃ q, q ≠ [] ∧ ses.channel.rx.toList = q ++ List.replicate k 0

theorem Flushing.zero {k : Nat} (h : ses.Flushing k) (a : TimerQueue s × UInt32) :
    (ses.run (zeros [a])).Flushing (k + 1) := by
  have hrest : (ses.run (zeros [a])).channel.rx.toList = _ :=
    congrArg Outlook.rest (h.toResting.outlook_zero a)
  have hk := run_kept h.inv (Session.zeros [a])
  refine ⟨h.toResting.zero a, hk.settings ▸ h.zeroSync, ?_⟩
  rw [hrest]
  obtain hnil | ⟨q, -, hq⟩ := h.left
  · rw [hnil, List.nil_append, outlook, settle_zero h.zeroSync]
    exact .inl rfl
  · rw [hq, List.append_assoc, ← List.replicate_succ']
    exact rest_settle_zeros h.zeroSync (k + 1) rfl

theorem Flushing.zeros {k : Nat} (h : ses.Flushing k) (as : List (TimerQueue s × UInt32)) :
    ses.LosslessRun (zeros as) ∧ (ses.run (Session.zeros as)).Flushing (k + as.length) := by
  induction as generalizing ses k with
  | nil => exact ⟨trivial, h⟩
  | cons a as ih =>
    obtain ⟨hl, hf⟩ := ih (h.zero a)
    refine ⟨⟨h.lossless a.1 0 a.2, trivial, hl⟩, ?_⟩
    rw [List.length_cons, Nat.add_comm as.length, ← Nat.add_assoc]
    exact hf

/-- What comes before the zeros and all of them together would be longer than any
frame. -/
theorem Flushing.empty {k : Nat} (h : ses.Flushing k)
    (hk : ses.channel.table.maxFrameLen ses.channel.settings.coverage ≤ k + 1) :
    ses.channel.rx.toList = [] := by
  obtain hnil | ⟨q, hne, hq⟩ := h.left
  · exact hnil
  · have hlt := h.len_lt
    have hpos := List.length_pos_iff.mpr hne
    rw [← Ring.length_toList h.inv.rx, hq, List.length_append, List.length_replicate] at hlt
    omega

/-- At an empty input a zero is answered and leaves nothing. -/
theorem Resting.synced (h : ses.Resting) (hz : ses.channel.settings.zeroSync = true)
    (hempty : ses.channel.rx.toList = []) (a : TimerQueue s × UInt32) :
    (ses.run (zeros [a])).channel.rx.toList = [] ∧
      ∃ st, (ses.run (zeros [a])).steps.getLast? = some st ∧
        st.outcome.bare = .synced .silent := by
  have hout := h.outlook_zero a
  rw [hempty, List.nil_append, outlook, settle_zero hz] at hout
  have htold : (ses.run (Session.zeros [a])).steps.map Step.bare = _ := congrArg Outlook.told hout
  have hlast := congrArg List.getLast? htold
  rw [List.getLast?_map, List.getLast?_concat] at hlast
  obtain ⟨st, hst, hbare⟩ := Option.map_eq_some_iff.mp hlast
  exact ⟨congrArg Outlook.rest hout, st, hst, congrArg Step.outcome hbare⟩

end CommandLink.Session
