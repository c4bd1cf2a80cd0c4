import CommandLink.Proofs.Dispatch.Outlook

namespace CommandLink

theorem Frame.ofOctets?_of_verify {c : Coverage} {octets payload : List UInt8} {t : Tag}
    (h : Frame.verify c octets = .ok (t, payload)) : Tag.ofOctets? octets = some t := by
  rw [Frame.verify] at h
  cases ht : Tag.ofOctets? octets with
  | none => simp [ht] at h
  | some t' =>
    simp only [ht] at h
    split at h
    · simp_all
    · split at h
      · cases h
      · split at h
        · simp_all
        · cases h

/-- A piece of input: octets that begin like a request of a command and have
its length, the synchronisation octet, or octets that belong to no frame. -/
inductive Item (C : Type) where
  | frame (command : Command C) (octets : List UInt8)
  | sync
  | noise (octets : List UInt8)

namespace Item

variable {C : Type}

def octets : Item C → List UInt8
  | .frame _ bs => bs
  | .sync => [0]
  | .noise bs => bs

def outcomes (c : Coverage) : Item C → List Outcome
  | .frame k bs =>
    match Frame.verify c bs with
    | .ok _ => [.processed k.tag .silent]
    | .error _ => [.discarded .checksumMismatch .silent]
  | .sync => [.synced .silent]
  | .noise bs => bs.map fun _ => .discarded .unknownTag .silent

/-- The call that an item leads to if it is dispatched in the state `ctx`. -/
def call? (c : Coverage) (ctx : C) : Item C → Option (Call C)
  | .frame k bs =>
    match Frame.verify c bs with
    | .ok (_, payload) => some (k.call payload ctx)
    | .error _ => none
  | .sync | .noise _ => none

/-- The calls that items lead to, each in the state that the one before it left, and
the state behind them. -/
def serve (c : Coverage) (ctx : C) : List (Item C) → List (Call C) × C
  | [] => ([], ctx)
  | item :: items =>
    let served := serve c (Dispatch.after ctx (item.call? c ctx)) items
    ((item.call? c ctx).toList ++ served.1, served.2)

theorem serve_append (c : Coverage) (ctx : C) (items items' : List (Item C)) :
    serve c ctx (items ++ items') =
      let first := serve c ctx items
      let second := serve c first.2 items'
      (first.1 ++ second.1, second.2) := by
  induction items generalizing ctx with
  | nil => rfl
  | cons item items ih =>
    rw [List.cons_append, serve, ih]
    simp only [serve, List.append_assoc]

end Item

def line {C : Type} (items : List (Item C)) : List UInt8 := items.flatMap Item.octets

/-- Inputs whose frames can be told from what lies between them. Noise ends
where a frame begins, and no tag of the table begins within it. -/
inductive Stream {C : Type} (settings : Settings) (table : Table C) : List (Item C) → Prop
  | nil : Stream settings table []
  | frame (k : Command C) (octets : List UInt8) (items : List (Item C)) (hk : k ∈ table.commands)
    (ht : k.tag.toOctets <+: octets) (hl : octets.length = k.requestFrameLen settings.coverage)
    (hs : Stream settings table items) : Stream settings table (.frame k octets :: items)
  | sync (items : List (Item C)) (hz : settings.zeroSync = true)
    (hs : Stream settings table items) : Stream settings table (.sync :: items)
  | noise (octets : List UInt8) (k : Command C) (frame : List UInt8) (items : List (Item C))
    (hclean : ∀ i < octets.length, ∀ k' ∈ table.commands,
      ¬k'.tag.toOctets <+: (line (.noise octets :: .frame k frame :: items)).drop i)
    (hz : settings.zeroSync = true → 0 ∉ octets)
    (hs : Stream settings table (.frame k frame :: items)) :
    Stream settings table (.noise octets :: .frame k frame :: items)

/-- The steps are the ones that the items call for, and the application's state goes
from `ctx` to `ctx'` by their calls. -/
structure Tells {C : Type} (c : Coverage) (ctx : C) (items : List (Item C))
    (made : List (Step C)) (ctx' : C) : Prop where
  outcomes : made.map (fun st => st.outcome.bare) = items.flatMap (Item.outcomes c)
  calls : made.filterMap Step.call? = (Item.serve c ctx items).1
  context : ctx' = (Item.serve c ctx items).2

theorem Tells.append {C : Type} {c : Coverage} {ctx mid ctx' : C} {items items' : List (Item C)}
    {made made' : List (Step C)} (h : Tells c ctx items made mid)
    (h' : Tells c mid items' made' ctx') :
    Tells c ctx (items ++ items') (made ++ made') ctx' := by
  obtain rfl := h.context
  constructor
  · rw [List.map_append, h.outcomes, h'.outcomes, List.flatMap_append]
  · rw [List.filterMap_append, h.calls, h'.calls, Item.serve_append]
  · rw [h'.context, Item.serve_append]

namespace Dispatch

variable {C : Type} {settings : Settings} {table : Table C} {n : Nat}

theorem settle_begins {q rest : List UInt8} {taken : Taken C}
    (h : Begins settings table q (taken, rest)) (hc : taken.isComplete = true)
    (told : List (Step C)) (ctx : C) :
    settle settings table n ⟨told, q, ctx⟩ =
      settle settings table n ⟨told ++ [foretold settings n taken ctx], rest,
        after ctx (call? settings n ctx taken)⟩ := by
  have hn := next_eq h
  rw [settle_complete (by simpa only [hn] using hc), absorb]
  simp only [hn]

/-- A frame is taken whole, whatever follows it, and its handler is called if
the checksum is right. -/
theorem settle_frame (hfit : table.maxFrameLen settings.coverage ≤ n) {k : Command C}
    (hk : k ∈ table.commands) {octets : List UInt8} (ht : k.tag.toOctets <+: octets)
    (hl : octets.length = k.requestFrameLen settings.coverage) (told : List (Step C))
    (rest : List UInt8) (ctx : C) : ∃ st ctx',
      settle settings table n ⟨told, octets ++ rest, ctx⟩ =
        settle settings table n ⟨told ++ [st], rest, ctx'⟩ ∧
      Tells settings.coverage ctx [.frame k octets] [st] ctx' := by
  obtain ⟨body, rfl⟩ := ht
  have htag := Tag.ofOctets?_toOctets k.tag body
  have hb := Begins.frame _ rest k.tag k htag (table.lookup?_tag hk) hl
  refine ⟨_, _, settle_begins hb rfl told ctx, ?_⟩
  cases hv : Frame.verify settings.coverage (k.tag.toOctets ++ body) with
  | error e =>
    constructor <;>
      simp [foretold, verdict, call?, Item.outcomes, Item.serve, Item.call?, hv, Outcome.bare]
  | ok r =>
    obtain ⟨t, payload⟩ := r
    obtain rfl : k.tag = t := Option.some.inj (htag.symm.trans (Frame.ofOctets?_of_verify hv))
    have hroom : ¬n < Tag.width + k.responseLen := by
      have hr := ((Table.maxFrameLen_le_iff.mp hfit).2 k hk).2
      simp only [Command.responseFrameLen, Frame.length] at hr
      omega
    constructor <;>
      simp [foretold, verdict, call?, Item.outcomes, Item.serve, Item.call?, hv, Outcome.bare,
        hroom]

/-- Noise is dropped octet by octet up to the tag behind it. -/
theorem settle_noise {noise rest : List UInt8} (hrest : Tag.width ≤ rest.length)
    (hclean : ∀ i < noise.length, ∀ k ∈ table.commands,
      ¬k.tag.toOctets <+: (noise ++ rest).drop i)
    (hz : settings.zeroSync = true → 0 ∉ noise) (told : List (Step C)) (ctx : C) :
    settle settings table n ⟨told, noise ++ rest, ctx⟩ =
      settle settings table n
        ⟨told ++ noise.map fun _ => foretold settings n .unknownTag ctx, rest, ctx⟩ := by
  induction noise generalizing told with
  | nil => rw [List.map_nil, List.append_nil, List.nil_append]
  | cons b noise ih =>
    obtain ⟨t, ht⟩ : ∃ t, Tag.ofOctets? (b :: (noise ++ rest)) = some t := by
      apply Option.ne_none_iff_exists'.mp
      rw [Ne, Tag.ofOctets?_eq_none_iff, List.length_cons, List.length_append]
      omega
    have hl : table.lookup? t = none := by
      apply Table.lookup?_eq_none
      rintro k hk rfl
      obtain ⟨body, hbody⟩ := Tag.ofOctets?_eq_some ht
      exact hclean 0 (Nat.succ_pos _) k hk ⟨body, hbody.symm⟩
    have hb : ¬(settings.zeroSync ∧ b = 0) := by
      rintro ⟨hs, rfl⟩
      exact hz hs List.mem_cons_self
    have hstep : settle settings table n ⟨told, b :: (noise ++ rest), ctx⟩ = _ :=
      settle_begins (.unknownTag b (noise ++ rest) t hb ht hl) rfl told ctx
    have hi := ih (fun i hi => hclean (i + 1) (Nat.succ_lt_succ hi))
      (fun hs hm => hz hs (List.mem_cons_of_mem b hm))
      (told ++ [foretold settings n .unknownTag ctx])
    rw [List.append_assoc, List.singleton_append] at hi
    exact hstep.trans hi

theorem tells_noise (settings : Settings) (n : Nat) (ctx : C) (noise : List UInt8) :
    Tells settings.coverage ctx [.noise noise]
      (noise.map fun _ => foretold settings n .unknownTag ctx) ctx := by
  refine ⟨?_, ?_, rfl⟩
  · rw [List.map_map, List.flatMap_singleton]
    rfl
  · rw [List.filterMap_map]
    exact List.filterMap_eq_nil_iff.mpr fun _ _ => rfl

theorem settle_nil (told : List (Step C)) (ctx : C) :
    settle settings table n ⟨told, [], ctx⟩ = ⟨told, [], ctx⟩ := by
  have hb : Begins settings table [] (.incomplete .tag, []) := .noTag [] (by simp) (by decide)
  rw [settle_incomplete (by rw [next_eq hb]; rfl)]

/-- A stream is taken item by item and to its end. -/
theorem settle_stream (hfit : table.maxFrameLen settings.coverage ≤ n) {items : List (Item C)}
    (h : Stream settings table items) (told : List (Step C)) (ctx : C) :
    ∃ made ctx', settle settings table n ⟨told, line items, ctx⟩ = ⟨told ++ made, [], ctx'⟩ ∧
      Tells settings.coverage ctx items made ctx' := by
  -- Each item is taken whole, so that the rest of the stream is again at the head.
  induction h generalizing told ctx with
  | nil =>
    refine ⟨[], ctx, ?_, rfl, rfl, rfl⟩
    rw [List.append_nil, line, List.flatMap_nil, settle_nil]
  | frame k octets items hk ht hl hs ih =>
    obtain ⟨st, ctx₁, hstep, htells⟩ := settle_frame hfit hk ht hl told (line items) ctx
    obtain ⟨made, ctx₂, hmade, htells'⟩ := ih (told ++ [st]) ctx₁
    refine ⟨st :: made, ctx₂, ?_, htells.append htells'⟩
    rw [line, List.flatMap_cons]
    exact hstep.trans (by rw [hmade, List.append_assoc, List.singleton_append])
  | sync items hz hs ih =>
    have hstep : settle settings table n ⟨told, 0 :: line items, ctx⟩ = _ :=
      settle_begins (.zeroSync (line items) hz) rfl told ctx
    obtain ⟨made, ctx', hmade, htells⟩ := ih (told ++ [_]) ctx
    have hsync : Tells settings.coverage ctx [.sync] [foretold settings n .zeroSync ctx] ctx :=
      ⟨rfl, rfl, rfl⟩
    refine ⟨_ :: made, ctx', ?_, hsync.append htells⟩
    rw [line, List.flatMap_cons]
    exact hstep.trans (hmade.trans (by rw [List.append_assoc, List.singleton_append]))
  | noise octets k frame items hclean hz hs ih =>
    have hrest : Tag.width ≤ (line (.frame k frame :: items)).length := by
      cases hs with
      | frame _ _ _ _ ht =>
        have hle := ht.length_le
        rw [line, List.flatMap_cons, List.length_append]
        exact Nat.le_trans hle (Nat.le_add_right _ _)
    have hstep : settle settings table n
        ⟨told, octets ++ line (.frame k frame :: items), ctx⟩ = _ :=
      settle_noise hrest hclean hz told ctx
    obtain ⟨made, ctx', hmade, htells⟩ := ih (told ++ octets.map fun _ => _) ctx
    refine ⟨_, ctx', ?_, (tells_noise settings n ctx octets).append htells⟩
    rw [line, List.flatMap_cons]
    exact hstep.trans (hmade.trans (by rw [List.append_assoc]))

end Dispatch

end CommandLink
