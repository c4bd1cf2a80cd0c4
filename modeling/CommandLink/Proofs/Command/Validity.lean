import CommandLink.Device.Handlers
import CommandLink.Proofs.Channel.Steps
import CommandLink.Proofs.Command.Sound

namespace CommandLink

theorem Tag.isReserved_iff {t : Tag} : t.isReserved = true ↔ ∃ e : ErrorReply, e.tag = t := by
  simp only [isReserved, Bool.or_eq_true, decide_eq_true_eq]
  constructor
  · rintro ((h | h) | h)
    · exact ⟨.command, h.symm⟩
    · exact ⟨.data, h.symm⟩
    · exact ⟨.value, h.symm⟩
  · rintro ⟨e, rfl⟩
    cases e with
    | command => exact .inl (.inl rfl)
    | data => exact .inl (.inr rfl)
    | value => exact .inr rfl

theorem Tag.isReserved_eq_false_iff {t : Tag} :
    t.isReserved = false ↔ ∀ e : ErrorReply, e.tag ≠ t := by
  rw [← Bool.not_eq_true, isReserved_iff, not_exists]

namespace TableError

/-- Tags that name the commands of a table: none starts with zero or is an error reply,
and no two are the same. -/
structure Usable (ts : List Tag) : Prop where
  leading : ∀ t ∈ ts, t.first ≠ 0
  free : ∀ t ∈ ts, ∀ e : ErrorReply, e.tag ≠ t
  distinct : ts.Nodup

/-- What is wrong with a tag behind the tags `earlier`. Of several faults one is told. -/
inductive Fault (earlier : List Tag) (t : Tag) : TableError → Prop
  | zeroLeading (hz : t.first = 0) : Fault earlier t (.zeroLeadingTag t)
  | reserved (hz : t.first ≠ 0) (e : ErrorReply) (he : e.tag = t) :
    Fault earlier t (.reservedTag t)
  | duplicate (hz : t.first ≠ 0) (he : ∀ e : ErrorReply, e.tag ≠ t) (hm : t ∈ earlier) :
    Fault earlier t (.duplicateTag t)

/-- The fault at the lowest index that has one. -/
def FirstFault (ts : List Tag) (err : TableError) : Prop :=
  ∃ i, ∃ h : i < ts.length, Fault (ts.take i) ts[i] err ∧
    ∀ (j : Nat) (hj : j < i) (err' : TableError), ¬ Fault (ts.take j) ts[j] err'

variable {earlier ts : List Tag} {t : Tag} {err : TableError}

theorem ofTag?_eq_some_iff : ofTag? earlier t = some err ↔ Fault earlier t err := by
  constructor
  · intro h
    rw [ofTag?] at h
    split at h
    · next hz => cases h; exact .zeroLeading hz
    · next hz =>
      split at h
      · next hr =>
        obtain ⟨e, he⟩ := Tag.isReserved_iff.mp hr
        cases h
        exact .reserved hz e he
      · next hr =>
        split at h
        · next hm =>
          cases h
          exact .duplicate hz (Tag.isReserved_eq_false_iff.mp (Bool.eq_false_iff.mpr hr)) hm
        · cases h
  · intro h
    rw [ofTag?]
    cases h with
    | zeroLeading hz => rw [if_pos hz]
    | reserved hz e he => rw [if_neg hz, if_pos (Tag.isReserved_iff.mpr ⟨e, he⟩)]
    | duplicate hz he hm =>
      have hr := Bool.eq_false_iff.mp (Tag.isReserved_eq_false_iff.mpr he)
      rw [if_neg hz, if_neg hr, if_pos hm]

theorem ofTag?_eq_none_iff_fault : ofTag? earlier t = none ↔ ∀ err, ¬ Fault earlier t err := by
  simp only [Option.eq_none_iff_forall_ne_some, ne_eq, ofTag?_eq_some_iff]

/-- The order of the earlier tags does not matter. -/
theorem ofTag?_reverse : ofTag? earlier.reverse t = ofTag? earlier t := by
  simp only [ofTag?, List.mem_reverse]

theorem ofTags?_eq_some_iff : ofTags? earlier ts = some err ↔
    ∃ i, ∃ h : i < ts.length, ofTag? ((ts.take i).reverse ++ earlier) ts[i] = some err ∧
      ∀ (j : Nat) (hj : j < i), ofTag? ((ts.take j).reverse ++ earlier) ts[j] = none := by
  induction ts generalizing earlier with
  | nil => simp [ofTags?]
  | cons t ts ih =>
    rw [ofTags?]
    cases ht : ofTag? earlier t with
    | some err' =>
      constructor
      · intro h
        cases h
        exact ⟨0, Nat.succ_pos _, ht, fun j hj => absurd hj (Nat.not_lt_zero j)⟩
      · rintro ⟨i, hi, hfault, hbefore⟩
        cases i with
        | zero => exact ht.symm.trans hfault
        | succ i =>
          have hnone := hbefore 0 (Nat.succ_pos i)
          cases ht.symm.trans hnone
    | none =>
      -- The tags behind the first are judged against one more tag.
      simp only
      rw [ih]
      constructor
      · rintro ⟨i, hi, hfault, hbefore⟩
        refine ⟨i + 1, Nat.succ_lt_succ hi, by simpa using hfault, fun j hj => ?_⟩
        cases j with
        | zero => exact ht
        | succ j => simpa using hbefore j (Nat.lt_of_succ_lt_succ hj)
      · rintro ⟨i, hi, hfault, hbefore⟩
        cases i with
        | zero => cases ht.symm.trans hfault
        | succ i =>
          refine ⟨i, Nat.lt_of_succ_lt_succ hi, by simpa using hfault, fun j hj => ?_⟩
          simpa using hbefore (j + 1) (Nat.succ_lt_succ hj)

theorem ofTags?_eq_some_iff_first : ofTags? [] ts = some err ↔ FirstFault ts err := by
  simp only [ofTags?_eq_some_iff, FirstFault, List.append_nil, ofTag?_reverse,
    ofTag?_eq_some_iff, ofTag?_eq_none_iff_fault]

theorem ofTags?_of_usable (h : Usable ts) (hnew : ∀ t ∈ ts, t ∉ earlier) :
    ofTags? earlier ts = none := by
  induction ts generalizing earlier with
  | nil => rfl
  | cons t ts ih =>
    obtain ⟨hleading, hfree, hdistinct⟩ := h
    rw [List.forall_mem_cons] at hleading hfree hnew
    rw [List.nodup_cons] at hdistinct
    have hr := Tag.isReserved_eq_false_iff.mpr hfree.1
    rw [ofTags?, ofTag?_eq_none_iff.mpr ⟨hleading.1, hr, hnew.1⟩]
    apply ih ⟨hleading.2, hfree.2, hdistinct.2⟩
    intro u hu
    rw [List.mem_cons, not_or]
    exact ⟨fun he => hdistinct.1 (he ▸ hu), hnew.2 u hu⟩

theorem ofTags?_eq_none_iff : ofTags? [] ts = none ↔ Usable ts := by
  constructor
  · intro h
    obtain ⟨hnodup, hgood⟩ := ofTags?_eq_none h
    exact ⟨fun t ht => (hgood t ht).1,
      fun t ht => Tag.isReserved_eq_false_iff.mp (hgood t ht).2.1, hnodup⟩
  · exact fun h => ofTags?_of_usable h fun t _ => List.not_mem_nil

theorem Usable.perm {ts' : List Tag} (h : Usable ts) (hp : ts.Perm ts') : Usable ts' where
  leading t ht := h.leading t (hp.mem_iff.mpr ht)
  free t ht := h.free t (hp.mem_iff.mpr ht)
  distinct := hp.nodup_iff.mp h.distinct

end TableError

namespace Table

variable {C : Type} {ks : List (Command C)} {table table' : Table C}

theorem ofCommands_eq_ok_iff :
    ofCommands ks = .ok table ↔ table.commands = ks := by
  obtain ⟨commands, sound⟩ := table
  rw [ofCommands]
  split
  · next err he =>
    constructor
    · intro h
      cases h
    · intro h
      rw [← h, sound] at he
      cases he
  · simp only [Except.ok.injEq, Table.mk.injEq]
    exact eq_comm

theorem ofCommands_eq_error_iff {err : TableError} :
    ofCommands ks = .error err ↔ TableError.ofTags? [] (ks.map Command.tag) = some err := by
  rw [ofCommands]
  split
  · next err' he => rw [he, Except.error.injEq, Option.some.injEq]
  · next hn => simp [hn]

theorem exists_ofCommands_iff :
    (∃ table, ofCommands ks = .ok table) ↔ TableError.Usable (ks.map Command.tag) := by
  rw [← TableError.ofTags?_eq_none_iff]
  constructor
  · rintro ⟨table, h⟩
    rw [← ofCommands_eq_ok_iff.mp h]
    exact table.sound
  · exact fun h => ⟨⟨ks, h⟩, ofCommands_eq_ok_iff.mpr rfl⟩

theorem lookup?_eq_some_iff {t : Tag} {k : Command C} :
    table.lookup? t = some k ↔ k ∈ table.commands ∧ k.tag = t := by
  refine ⟨lookup?_eq_some, ?_⟩
  rintro ⟨hm, rfl⟩
  exact table.lookup?_tag hm

theorem lookup?_congr (h : ∀ k, k ∈ table.commands ↔ k ∈ table'.commands) (t : Tag) :
    table.lookup? t = table'.lookup? t := by
  apply Option.ext
  intro k
  rw [lookup?_eq_some_iff, lookup?_eq_some_iff, h]

theorem maxFrameLen_congr (h : ∀ k, k ∈ table.commands ↔ k ∈ table'.commands) (c : Coverage) :
    table.maxFrameLen c = table'.maxFrameLen c := by
  have hiff (m : Nat) : table.maxFrameLen c ≤ m ↔ table'.maxFrameLen c ≤ m := by
    simp only [maxFrameLen_le_iff, h]
  exact Nat.le_antisymm ((hiff _).mpr le_rfl) ((hiff _).mp le_rfl)

end Table

theorem Dispatch.takeFrame_congr {C : Type} {n : Nat} {table table' : Table C}
    (h : ∀ t, table.lookup? t = table'.lookup? t) (settings : Settings) (rx : Ring n) :
    takeFrame settings table rx = takeFrame settings table' rx := by
  simp only [takeFrame, h]

theorem Dispatch.step_congr {C : Type} {n : Nat} {table table' : Table C}
    (h : ∀ t, table.lookup? t = table'.lookup? t) (settings : Settings) (rx tx : Ring n) (ctx : C) :
    step settings table rx tx ctx = step settings table' rx tx ctx := by
  rw [step, step, takeFrame_congr h]

namespace Channel

variable {C : Type} {n s : Nat} {table : Table C} {ch : Channel C n s}

/-- The same channel, had it been given another table. -/
def withTable (table : Table C) (ch : Channel C n s) : Channel C n s := { ch with table }

theorem process_withTable (h : ∀ t, ch.table.lookup? t = table.lookup? t) (ctx : C) :
    (ch.withTable table).process ctx = (ch.process ctx).map id (Prod.map (withTable table) id) := by
  simp only [withTable, process, Dispatch.step_congr h]
  rfl

theorem stepAt_withTable (h : ∀ t, ch.table.lookup? t = table.lookup? t) (ctx : C) :
    (ch.withTable table).stepAt ctx = ch.stepAt ctx := by
  rw [stepAt, stepAt, process_withTable h]
  simp only [withTable, Dispatch.takeFrame_congr h]
  rfl

theorem processEach_withTable (h : ∀ t, ch.table.lookup? t = table.lookup? t) (ctx : C) :
    (ch.withTable table).processEach ctx =
      (ch.processEach ctx).map id (Prod.map (withTable table) id) := by
  have hstep {ch ch' : Channel C n s}
      (hr : ch' = ch.withTable table ∧ ∀ t, ch.table.lookup? t = table.lookup? t) (ctx : C) :
      ch'.stepAt ctx = ch.stepAt ctx ∧
        ((ch'.process ctx).2.1 = (ch.process ctx).2.1.withTable table ∧
          ∀ t, (ch.process ctx).2.1.table.lookup? t = table.lookup? t) ∧
        (ch'.process ctx).2.2 = (ch.process ctx).2.2 := by
    obtain ⟨rfl, hlookup⟩ := hr
    rw [stepAt_withTable hlookup, process_withTable hlookup]
    exact ⟨rfl, ⟨rfl, hlookup⟩, rfl⟩
  obtain ⟨hsteps, hch, hctx⟩ := processEach_sim hstep ⟨rfl, h⟩ ctx
  refine Prod.ext ?_ (Prod.ext hch.1 hctx)
  rw [← outcome_stepEach, hsteps, outcome_stepEach]
  rfl

end Channel

namespace Table

variable {C : Type}

/-- Tables between which nothing that reads them can tell. -/
structure Interchangeable (table table' : Table C) : Prop where
  lookup (t : Tag) : table.lookup? t = table'.lookup? t
  longest (c : Coverage) : table.maxFrameLen c = table'.maxFrameLen c
  step {n : Nat} (settings : Settings) (rx tx : Ring n) (ctx : C) :
    Dispatch.step settings table rx tx ctx = Dispatch.step settings table' rx tx ctx
  process {n s : Nat} (ch : Channel C n s) (h : ch.table = table) (ctx : C) :
    (ch.withTable table').process ctx = (ch.process ctx).map id (Prod.map (.withTable table') id)
  processEach {n s : Nat} (ch : Channel C n s) (h : ch.table = table) (ctx : C) :
    (ch.withTable table').processEach ctx =
      (ch.processEach ctx).map id (Prod.map (.withTable table') id)

theorem interchangeable {table table' : Table C}
    (h : ∀ k, k ∈ table.commands ↔ k ∈ table'.commands) : table.Interchangeable table' where
  lookup := lookup?_congr h
  longest := maxFrameLen_congr h
  step := Dispatch.step_congr (lookup?_congr h)
  process := by
    rintro n s ch rfl ctx
    exact Channel.process_withTable (lookup?_congr h) ctx
  processEach := by
    rintro n s ch rfl ctx
    exact Channel.processEach_withTable (lookup?_congr h) ctx

/-- A list of commands makes a table exactly if its tags are usable, and the fault told
is the first otherwise. Lookups find what is in the list, so that its order leaves no
trace in what a table does. -/
theorem ofCommands_order_free (ks : List (Command C)) :
    ((∃ table, ofCommands ks = .ok table) ↔ TableError.Usable (ks.map Command.tag)) ∧
      (∀ err, ofCommands ks = .error err ↔ TableError.FirstFault (ks.map Command.tag) err) ∧
      ∀ table, ofCommands ks = .ok table →
        (∀ t k, table.lookup? t = some k ↔ k ∈ ks ∧ k.tag = t) ∧
        ∀ ks', ks.Perm ks' →
          ∃ table', ofCommands ks' = .ok table' ∧ table.Interchangeable table' := by
  refine ⟨exists_ofCommands_iff, ?_, ?_⟩
  · intro err
    rw [ofCommands_eq_error_iff, TableError.ofTags?_eq_some_iff_first]
  · intro table htable
    have hlist := ofCommands_eq_ok_iff.mp htable
    refine ⟨fun t k => by rw [lookup?_eq_some_iff, hlist], ?_⟩
    intro ks' hp
    have husable := exists_ofCommands_iff.mp ⟨table, htable⟩
    obtain ⟨table', htable'⟩ := exists_ofCommands_iff.mpr (husable.perm (hp.map Command.tag))
    refine ⟨table', htable', interchangeable fun k => ?_⟩
    rw [hlist, ofCommands_eq_ok_iff.mp htable', hp.mem_iff]

/-- The commands of a device, the other way round. -/
theorem ofCommands_order_free_reverse :
    ofCommands Device.commands = .ok Device.table ∧
      Device.commands.Perm Device.commands.reverse ∧
      ∃ table, ofCommands Device.commands.reverse = .ok table ∧
        Device.table.Interchangeable table := by
  have htable : ofCommands Device.commands = .ok Device.table := ofCommands_eq_ok_iff.mpr rfl
  have hperm : Device.commands.Perm Device.commands.reverse := (List.reverse_perm _).symm
  obtain ⟨-, -, haccepted⟩ := ofCommands_order_free Device.commands
  obtain ⟨-, horders⟩ := haccepted Device.table htable
  exact ⟨htable, hperm, horders _ hperm⟩

end Table

end CommandLink
