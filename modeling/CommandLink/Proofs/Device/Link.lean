import CommandLink.Device.Handlers
import CommandLink.Proofs.Channel.System

namespace CommandLink.Device

theorem maxFrameLen_table (c : Coverage) : table.maxFrameLen c = 14 := by
  cases c <;> decide

/-- The device's commands behind queues of `n` octets and a timer of their own. -/
def link (n : Nat) (settings : Settings) : Channel Device n 1 where
  settings := settings
  table := table
  slot := 0
  rx := Ring.empty.setOverwrite settings.rxOverwrite
  tx := Ring.empty

def linkTimers (longest : UInt32) : TimerQueue 1 :=
  (TimerQueue.new 1 longest).update 0 fun _ => { allocated := true }

theorem new_link {n : Nat} (hn : 14 ≤ n) {settings : Settings} {longest : UInt32}
    (hv : settings.validate (TimerQueue.new 1 longest).longest = .ok ()) :
    Channel.new n settings table (.new 1 longest) =
      .ok (link n settings, linkTimers longest) := by
  have ha : (TimerQueue.new 1 longest).allocate = .ok (0, linkTimers longest) := by
    have hf : (TimerQueue.new 1 longest).timers.findFinIdx? (fun t => !t.allocated) = some 0 := by
      simp [TimerQueue.new]
    simp only [TimerQueue.allocate, hf]
    rfl
  simp only [Channel.new, hv, ha]
  rw [if_neg (by rw [maxFrameLen_table]; omega)]
  rfl

/-- A system that begins with the building of the link. -/
theorem run_build_link {n : Nat} (hn : 14 ≤ n) {settings : Settings} {longest : UInt32}
    (hv : settings.validate (TimerQueue.new 1 longest).longest = .ok ()) (evs : List (Event 1)) :
    System.run ⟨.new 1 longest, []⟩ (.build n settings table {} :: evs) =
      System.run ⟨linkTimers longest, [⟨⟨link n settings, {}, [], []⟩⟩]⟩ evs := by
  have hbuild : System.step ⟨.new 1 longest, []⟩ (.build n settings table {}) =
      ⟨linkTimers longest, [⟨⟨link n settings, {}, [], []⟩⟩]⟩ := by
    simp only [System.step, new_link hn hv]
    rfl
  rw [System.run, List.foldl_cons, hbuild]
  rfl

end CommandLink.Device
