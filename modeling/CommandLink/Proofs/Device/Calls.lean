import CommandLink.Device.Handlers
import CommandLink.Proofs.Dispatch.Account
import CommandLink.Proofs.Frame.Buffer

namespace CommandLink

/-- Commands of a table are told apart by their tags. -/
theorem Table.eq_of_tag_eq {C : Type} (table : Table C) {k k' : Command C}
    (hk : k ∈ table.commands) (hk' : k' ∈ table.commands) (h : k.tag = k'.tag) : k = k' := by
  have hlookup := table.lookup?_tag hk
  rw [h, table.lookup?_tag hk'] at hlookup
  exact (Option.some.inj hlookup).symm

namespace Device

open CommandLink.Frame (slice? copySlice?)

def fillInside? (d : Device) (response bs : List UInt8) : Option (Reply × Device × List UInt8) :=
  (copySlice? response 0 response.length bs).map fun filled => (.respond, d, filled)

def readInside? (bs : List UInt8) : Option UInt32 := (slice? bs 0 4).bind word?

/-- The handlers over slices, with no answer where they would leave one or copy to one of
another length. -/
def handleInside? (d : Device) (t : Tag) (request response : List UInt8) :
    Option (Reply × Device × List UInt8) :=
  let d := d.countRequest
  if t = getFirmwareVersion.tag then fillInside? d response firmwareVersion
  else if t = ping.tag then fillInside? d response request
  else if t = getUptime.tag then fillInside? d response (octets32 d.seconds)
  else if t = setValue.tag then
    (readInside? request).map fun v =>
      if maxValue < v then (.reject .value, d, response)
      else (.respond, { d with value := v }, response)
  else if t = getValue.tag then
    (copySlice? response 0 4 (octets32 d.value)).bind fun half =>
      (copySlice? half 4 half.length (octets32 d.requests)).map fun filled => (.respond, d, filled)
  else none

theorem mem_commands {k : Command Device} (hk : k ∈ commands) :
    k = getFirmwareVersion ∨ k = ping ∨ k = getUptime ∨ k = setValue ∨ k = getValue := by
  simpa only [commands, List.mem_cons, List.not_mem_nil, or_false] using hk

theorem call_setValue (a b c d : UInt8) (device : Device) :
    setValue.call [a, b, c, d] device =
      if maxValue < word32 a b c d then
        ⟨setValue.tag, [a, b, c, d], .reject .value, [], device.countRequest⟩
      else
        ⟨setValue.tag, [a, b, c, d], .respond, [],
          { device.countRequest with value := word32 a b c d }⟩ := by
  have hhandler : setValue.handler device [a, b, c, d] (Vector.replicate setValue.responseLen 0) =
      if maxValue < word32 a b c d then ⟨.reject .value, device.countRequest, Vector.replicate 0 0⟩
      else ⟨.respond, { device.countRequest with value := word32 a b c d },
        Vector.replicate 0 0⟩ := rfl
  rw [Command.call, hhandler]
  split <;> rfl

/-- With a request of the length in the table, and a response buffer of the length there, no
handler leaves its slices. -/
theorem handleInside?_eq {k : Command Device} (hk : k ∈ commands) {request : List UInt8}
    (hlen : request.length = k.requestLen) (device : Device) :
    let call := k.call request device
    handleInside? device k.tag request (List.replicate k.responseLen 0) =
      some (call.reply, call.context, call.response) := by
  obtain rfl | rfl | rfl | rfl | rfl := mem_commands hk
  · rfl
  · obtain ⟨a, b, c, d, rfl⟩ := List.length_eq_four.mp hlen
    rfl
  · rfl
  · obtain ⟨a, b, c, d, rfl⟩ := List.length_eq_four.mp hlen
    have hread : handleInside? device setValue.tag [a, b, c, d] [] =
        some (if maxValue < word32 a b c d then (.reject .value, device.countRequest, [])
          else (.respond, { device.countRequest with value := word32 a b c d }, [])) := rfl
    intro call
    subst call
    rw [call_setValue]
    refine hread.trans ?_
    split <;> rfl
  · rfl

/-- The value that a call stores. -/
def stored? (call : Call Device) : Option UInt32 :=
  if call.tag = setValue.tag then (word? call.request).filter (· ≤ maxValue) else none

def lastStored (calls : List (Call Device)) : UInt32 :=
  ((calls.filterMap stored?).getLast?).getD 0

theorem stored?_le {call : Call Device} {v : UInt32} (h : stored? call = some v) :
    v ≤ maxValue := by
  rw [stored?] at h
  split at h
  · exact of_decide_eq_true (Option.filter_eq_some_iff.mp h).2
  · cases h

theorem lastStored_le (calls : List (Call Device)) : lastStored calls ≤ maxValue := by
  rw [lastStored]
  cases hlast : (calls.filterMap stored?).getLast? with
  | none => decide
  | some v =>
    obtain ⟨call, -, hcall⟩ := List.mem_filterMap.mp (List.mem_of_getLast? hlast)
    exact stored?_le hcall

theorem lastStored_concat (calls : List (Call Device)) (call : Call Device) :
    lastStored (calls ++ [call]) = (stored? call).getD (lastStored calls) := by
  rw [lastStored, List.filterMap_append]
  cases hcall : stored? call with
  | none =>
    rw [List.filterMap_cons_none hcall, List.filterMap_nil, List.append_nil]
    rfl
  | some v =>
    rw [List.filterMap_cons_some hcall, List.filterMap_nil, List.getLast?_append]
    rfl

/-- A call counts as a request, and nothing but the value that it stores is changed
otherwise. -/
theorem context_call {k : Command Device} (hk : k ∈ commands) {request : List UInt8}
    (hlen : request.length = k.requestLen) (device : Device) :
    (k.call request device).context =
      { device.countRequest with
        value := (stored? (k.call request device)).getD device.value } := by
  obtain rfl | rfl | rfl | rfl | rfl := mem_commands hk
  · rfl
  · obtain ⟨a, b, c, d, rfl⟩ := List.length_eq_four.mp hlen
    rfl
  · rfl
  · obtain ⟨a, b, c, d, rfl⟩ := List.length_eq_four.mp hlen
    have hstored : stored? (setValue.call [a, b, c, d] device) =
        if word32 a b c d ≤ maxValue then some (word32 a b c d) else none := by
      simp [stored?, Command.call, word?, Option.filter]
    rw [hstored, call_setValue]
    by_cases hlarge : maxValue < word32 a b c d
    · rw [if_pos hlarge, if_neg (UInt32.not_le.mpr hlarge)]
      rfl
    · rw [if_neg hlarge, if_pos (UInt32.not_lt.mp hlarge)]
      rfl
  · rfl

/-- What a call does when the calls `before` were made. -/
structure Served (before : List (Call Device)) (call : Call Device) : Prop where
  inside : ∃ k ∈ commands, ∃ uptime, call.tag = k.tag ∧
    handleInside? ⟨lastStored before, .ofNat before.length, uptime⟩ k.tag call.request
      (List.replicate k.responseLen 0) = some (call.reply, call.context, call.response)
  value : call.tag = getValue.tag → call.reply = .respond ∧
    call.response = octets32 (lastStored before) ++ octets32 (.ofNat (before.length + 1))
  large : ∀ v, call.tag = setValue.tag → word? call.request = some v → maxValue < v →
    call.reply = .reject .value ∧ call.context.value = lastStored before

theorem served_call {k : Command Device} (hk : k ∈ commands) {request : List UInt8}
    (hlen : request.length = k.requestLen) {before : List (Call Device)} {device : Device}
    (hvalue : device.value = lastStored before)
    (hrequests : device.requests = .ofNat before.length) :
    Served before (k.call request device) := by
  have hdevice : device = ⟨lastStored before, .ofNat before.length, device.uptime⟩ := by
    rw [← hvalue, ← hrequests]
  constructor
  · refine ⟨k, hk, device.uptime, rfl, ?_⟩
    rw [← hdevice]
    exact handleInside?_eq hk hlen device
  · intro htag
    obtain rfl := table.eq_of_tag_eq hk (by simp [table, commands]) htag
    rw [UInt32.ofNat_add, ← hvalue, ← hrequests]
    exact ⟨rfl, rfl⟩
  · intro v htag hv hlarge
    obtain rfl := table.eq_of_tag_eq hk (by simp [table, commands]) htag
    obtain ⟨a, b, c, d, rfl⟩ := List.length_eq_four.mp hlen
    obtain rfl : word32 a b c d = v := Option.some.inj hv
    rw [call_setValue, if_pos hlarge]
    exact ⟨rfl, hvalue⟩

end Device

end CommandLink
