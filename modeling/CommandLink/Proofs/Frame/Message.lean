import CommandLink.Proofs.Frame.Encode

namespace CommandLink

def ErrorReply.all : List ErrorReply := [.command, .data, .value]

def ErrorReply.ofTag? (t : Tag) : Option ErrorReply := all.find? fun e => e.tag = t

theorem ErrorReply.ofTag?_tag (e : ErrorReply) : ofTag? e.tag = some e := by
  cases e <;> decide

theorem ErrorReply.first_tag (e : ErrorReply) : e.tag.first ≠ 0 := by
  cases e <;> decide

theorem ErrorReply.isReserved_tag (e : ErrorReply) : e.tag.isReserved = true := by
  cases e <;> decide

theorem ErrorReply.ofTag?_eq_none {t : Tag} (h : t.isReserved = false) : ofTag? t = none := by
  refine List.find?_eq_none.mpr fun e _ he => ?_
  have heq : e.tag = t := of_decide_eq_true he
  rw [← heq, isReserved_tag] at h
  cases h

/-- What a device says to its host: the synchronisation octet, an error, or
the response to a command. -/
inductive Message where
  | sync
  | error (e : ErrorReply)
  | response (t : Tag) (payload : List UInt8)
  deriving DecidableEq

namespace Message

variable {C : Type} {c : Coverage} {table : Table C}

def octets (c : Coverage) : Message → List UInt8
  | .sync => [0]
  | .error e => Frame.encode c e.tag []
  | .response t payload => Frame.encode c t payload

def joined (c : Coverage) (ms : List Message) : List UInt8 := ms.flatMap (octets c)

theorem joined_cons (c : Coverage) (m : Message) (ms : List Message) :
    joined c (m :: ms) = m.octets c ++ joined c ms := List.flatMap_cons

/-- Responses answer commands of the table and have the length that it gives
them. -/
def FromTable (table : Table C) : Message → Prop
  | .sync | .error _ => True
  | .response t payload => ∃ k ∈ table.commands, k.tag = t ∧ payload.length = k.responseLen

instance (table : Table C) : (m : Message) → Decidable (m.FromTable table)
  | .sync | .error _ => inferInstanceAs (Decidable True)
  | .response t payload => inferInstanceAs
    (Decidable (∃ k ∈ table.commands, k.tag = t ∧ payload.length = k.responseLen))

/-- What a tag announces: the length of the payload behind it and the message
that they make together. -/
def announced? (table : Table C) (t : Tag) : Option (Nat × (List UInt8 → Message)) :=
  match ErrorReply.ofTag? t with
  | some e => some (0, fun _ => .error e)
  | none => (table.lookup? t).map fun k => (k.responseLen, .response t)

/-- The message that a tag at the head of a stream announces, and what follows
its checksum. -/
def readFrame? (c : Coverage) (table : Table C) (q : List UInt8) :
    Option (Message × List UInt8) :=
  match (Tag.ofOctets? q).bind (announced? table) with
  | none => none
  | some (len, message) =>
    if q.length < Frame.length c len then none
    else some (message ((q.drop Tag.width).take len), q.drop (Frame.length c len))

/-- The message at the head of a stream, once it is there whole, and what
follows it. -/
def read? (c : Coverage) (table : Table C) (q : List UInt8) : Option (Message × List UInt8) :=
  match q with
  | 0 :: rest => some (.sync, rest)
  | q => readFrame? c table q

theorem read?_zero (rest : List UInt8) : read? c table (0 :: rest) = some (.sync, rest) := rfl

theorem read?_of_first {q : List UInt8} (h : q.head? ≠ some 0) :
    read? c table q = readFrame? c table q := by
  rw [read?]
  rintro rest rfl
  exact h rfl

theorem readFrame?_shorter {q rest : List UInt8} {m : Message}
    (h : readFrame? c table q = some (m, rest)) : rest.length < q.length := by
  rw [readFrame?] at h
  split at h
  · cases h
  · next len message _ =>
    split at h
    · cases h
    · next hlen =>
      cases h
      have hwidth : Tag.width ≤ Frame.length c len := by
        rw [Frame.length, Nat.add_assoc]
        exact Nat.le_add_right _ _
      have hpos : 0 < Tag.width := by decide
      rw [List.length_drop]
      omega

theorem read?_shorter {q rest : List UInt8} {m : Message} (h : read? c table q = some (m, rest)) :
    rest.length < q.length := by
  by_cases h0 : q.head? = some 0
  · obtain ⟨bs, rfl⟩ := List.head?_eq_some_iff.mp h0
    rw [read?_zero] at h
    cases h
    exact Nat.lt_succ_self _
  · rw [read?_of_first h0] at h
    exact readFrame?_shorter h

/-- The messages of a stream, and the octets behind them that make no message
yet. -/
def readAll (c : Coverage) (table : Table C) (q : List UInt8) : List Message × List UInt8 :=
  match _h : read? c table q with
  | none => ([], q)
  | some (m, rest) =>
    let (ms, left) := readAll c table rest
    (m :: ms, left)
termination_by q.length
decreasing_by exact read?_shorter _h

theorem readAll_of_none {q : List UInt8} (h : read? c table q = none) :
    readAll c table q = ([], q) := by
  rw [readAll]
  split
  · rfl
  · next he => rw [h] at he; cases he

theorem readAll_of_some {q rest : List UInt8} {m : Message}
    (h : read? c table q = some (m, rest)) :
    readAll c table q = (m :: (readAll c table rest).1, (readAll c table rest).2) := by
  rw [readAll]
  split
  · next he => rw [h] at he; cases he
  · next he =>
    rw [h] at he
    cases he
    rfl

theorem readAll_nil : readAll c table [] = ([], []) := readAll_of_none rfl

/-- Every message but the synchronisation octet is a frame, whose tag tells it
from that octet, from messages of other kinds and from those of other lengths. -/
theorem FromTable.sync_or_frame {m : Message} (h : m.FromTable table) :
    m = .sync ∨ ∃ t payload message, m.octets c = Frame.encode c t payload ∧ t.first ≠ 0 ∧
      announced? table t = some (payload.length, message) ∧ message payload = m := by
  cases m with
  | sync => exact .inl rfl
  | error e =>
    refine .inr ⟨e.tag, [], fun _ => .error e, rfl, e.first_tag, ?_, rfl⟩
    rw [announced?, ErrorReply.ofTag?_tag]
    rfl
  | response t payload =>
    obtain ⟨k, hk, rfl, hlen⟩ := h
    refine .inr ⟨k.tag, payload, .response k.tag, rfl, table.tag_first_ne hk, ?_, rfl⟩
    rw [announced?, ErrorReply.ofTag?_eq_none (table.tag_isReserved hk), table.lookup?_tag hk, hlen]
    rfl

theorem head?_encode (c : Coverage) (t : Tag) (payload rest : List UInt8) :
    (Frame.encode c t payload ++ rest).head? = some t.first := rfl

theorem payload_encode (c : Coverage) (t : Tag) (payload rest : List UInt8) :
    ((Frame.encode c t payload ++ rest).drop Tag.width).take payload.length = payload := by
  rw [Frame.encode, List.append_assoc, List.append_assoc]
  exact List.take_left

theorem read?_octets {m : Message} (h : m.FromTable table) (rest : List UInt8) :
    read? c table (m.octets c ++ rest) = some (m, rest) := by
  obtain rfl | ⟨t, payload, message, hoctets, hfirst, hannounced, rfl⟩ := h.sync_or_frame (c := c)
  · rfl
  · have hhead : (Frame.encode c t payload ++ rest).head? ≠ some 0 := by
      rw [head?_encode]
      exact fun h0 => hfirst (Option.some.inj h0)
    have htag : Tag.ofOctets? (Frame.encode c t payload ++ rest) = some t := rfl
    have hlen := Frame.length_encode c t payload
    have hdrop :
        (Frame.encode c t payload ++ rest).drop (Frame.length c payload.length) = rest := by
      rw [← hlen]
      exact List.drop_left
    rw [hoctets, read?_of_first hhead, readFrame?, htag, Option.bind_some, hannounced]
    simp only [payload_encode, hdrop]
    rw [if_neg]
    rw [List.length_append]
    omega

/-- Nothing is read of a message that has not arrived whole. -/
theorem read?_partial {m : Message} (h : m.FromTable table) {part : List UInt8}
    (hp : part <+: m.octets c) (hlt : part.length < (m.octets c).length) :
    read? c table part = none := by
  obtain rfl | ⟨t, payload, message, hoctets, hfirst, hannounced, -⟩ := h.sync_or_frame (c := c)
  · have hnil : part = [] := List.eq_nil_of_length_eq_zero (Nat.lt_one_iff.mp hlt)
    rw [hnil]
    rfl
  · rw [hoctets] at hp hlt
    obtain ⟨rest, hrest⟩ := hp
    have hhead : part.head? ≠ some 0 := by
      intro h0
      have hh := congrArg List.head? hrest
      rw [List.head?_append, h0, ← List.append_nil (Frame.encode c t payload), head?_encode] at hh
      exact hfirst (Option.some.inj hh).symm
    rw [read?_of_first hhead, readFrame?]
    cases htag : Tag.ofOctets? part with
    | none => rfl
    | some t' =>
      have htag' : Tag.ofOctets? (Frame.encode c t payload) = some t' := by
        rw [← hrest]
        exact Tag.ofOctets?_append htag rest
      have heq : t = t' := Option.some.inj htag'
      rw [← heq, Option.bind_some, hannounced]
      simp only
      rw [if_pos]
      rwa [Frame.length_encode] at hlt

/-- A stream that begins with whole messages is read as these, whatever follows. -/
theorem readAll_joined {ms : List Message} (h : ∀ m ∈ ms, m.FromTable table) (rest : List UInt8) :
    readAll c table (joined c ms ++ rest) =
      (ms ++ (readAll c table rest).1, (readAll c table rest).2) := by
  induction ms with
  | nil => rfl
  | cons m ms ih =>
    have hm := h m List.mem_cons_self
    have hms := ih fun m' hm' => h m' (List.mem_cons_of_mem m hm')
    rw [joined_cons, List.append_assoc, readAll_of_some (read?_octets hm _), hms]
    rfl

theorem readAll_joined_self {ms : List Message} (h : ∀ m ∈ ms, m.FromTable table) :
    readAll c table (joined c ms) = (ms, []) := by
  have hr := readAll_joined (c := c) h []
  rwa [List.append_nil, readAll_nil, List.append_nil] at hr

/-- No stream of messages goes on as another one. -/
theorem prefix_of_joined {ms ms' : List Message} (h : ∀ m ∈ ms, m.FromTable table)
    (h' : ∀ m ∈ ms', m.FromTable table) (hp : joined c ms <+: joined c ms') : ms <+: ms' := by
  obtain ⟨rest, hrest⟩ := hp
  have hread := readAll_joined (c := c) h rest
  rw [hrest, readAll_joined_self h'] at hread
  exact ⟨(readAll c table rest).1, (congrArg Prod.fst hread).symm⟩

/-- What is read of a stream that is still arriving: the messages that are there
whole, while the octets behind them belong to the next one. -/
structure Arrived (c : Coverage) (table : Table C) (ms : List Message) (q : List UInt8)
    (got late : List Message) (part : List UInt8) : Prop where
  read : readAll c table q = (got, part)
  all : ms = got ++ late
  octets : q = joined c got ++ part
  within : part <+: joined c late
  short : ∀ m ∈ late.head?, part.length < (m.octets c).length

theorem arrived_of_prefix {ms : List Message} (h : ∀ m ∈ ms, m.FromTable table) {q : List UInt8}
    (hp : q <+: joined c ms) : ∃ got late part, Arrived c table ms q got late part := by
  induction ms generalizing q with
  | nil =>
    have hq : q = [] := List.prefix_nil.mp hp
    subst hq
    exact ⟨[], [], [], readAll_nil, rfl, rfl, List.prefix_rfl, fun m hm => by cases hm⟩
  | cons m ms ih =>
    have hm := h m List.mem_cons_self
    rw [joined_cons] at hp
    by_cases hlt : q.length < (m.octets c).length
    · have hq : q <+: m.octets c :=
        List.prefix_of_prefix_length_le hp (List.prefix_append _ _) (Nat.le_of_lt hlt)
      refine ⟨[], m :: ms, q, readAll_of_none (read?_partial hm hq hlt), rfl, rfl, hp, ?_⟩
      intro m' hm'
      cases hm'
      exact hlt
    · obtain ⟨q', rfl⟩ : m.octets c <+: q :=
        List.prefix_of_prefix_length_le (List.prefix_append _ _) hp (Nat.le_of_not_lt hlt)
      have hms : ∀ m' ∈ ms, m'.FromTable table := fun m' hm' => h m' (List.mem_cons_of_mem m hm')
      obtain ⟨got, late, part, ha⟩ := ih hms ((List.prefix_append_right_inj _).mp hp)
      refine ⟨m :: got, late, part, ?_, congrArg (m :: ·) ha.all, ?_, ha.within, ha.short⟩
      · rw [readAll_of_some (read?_octets hm q'), ha.read]
      · rw [ha.octets, joined_cons, List.append_assoc]

end Message

end CommandLink
