import CommandLink.Proofs.Text.Lines
import CommandLink.Proofs.Toml.Grammar

namespace CommandLink.Toml

open LinkFile Document Text

theorem skip_spec (cs : List Char) : ∃ s, Spaces s ∧ cs = s ++ skip cs :=
  ⟨cs.takeWhile isSpace, fun _ hc => List.mem_takeWhile_imp hc,
    List.takeWhile_append_dropWhile.symm⟩

theorem span_spec (p : Char → Bool) (cs : List Char) :
    ∃ a b, cs.span p = (a, b) ∧ cs = a ++ b ∧ (∀ c ∈ a, p c = true) ∧
      ∀ c rest, b = c :: rest → p c = false := by
  refine ⟨cs.takeWhile p, cs.dropWhile p, List.span_eq_takeWhile_dropWhile p cs,
    List.takeWhile_append_dropWhile.symm, fun _ hc => List.mem_takeWhile_imp hc, ?_⟩
  intro c rest hrest
  have hhead := List.head?_dropWhile_not p cs
  rw [hrest] at hhead
  exact hhead

theorem word_of_word? {cs : List Char} {v : Value} (h : word? cs = some v) : Word cs v := by
  unfold word? at h
  split at h
  · obtain rfl := Option.some.inj h
    rename_i hcs
    rw [hcs]
    exact .boolean true
  · split at h
    · obtain rfl := Option.some.inj h
      rename_i hcs
      rw [hcs]
      exact .boolean false
    · split at h
      · obtain rfl := Option.some.inj h
        exact .integer ‹_›
      · split at h
        · obtain rfl := Option.some.inj h
          rename_i hfloat
          simp only [isFloat, Bool.or_eq_true, decide_eq_true_eq] at hfloat
          obtain (hinf | hnan) | hdecimal := hfloat
          · exact .special (by simp [hinf])
          · exact .special (by simp [hnan])
          · refine .float ?_
            obtain ⟨d, hd, -⟩ := (Option.any_eq_true _ _).mp hdecimal
            exact Option.isSome_of_eq_some hd
        · cases h

theorem short_of_plain {cs : List Char} (hcontrol : ∀ c ∈ cs, isControl c = false)
    (hquote : ∀ c ∈ cs, c ≠ '"' ∧ c ≠ '\\') : Short '"' cs cs := by
  induction cs with
  | nil => exact .done
  | cons c cs ih =>
    obtain ⟨hc, hcontrol⟩ := List.forall_mem_cons.mp hcontrol
    obtain ⟨hc', hquote⟩ := List.forall_mem_cons.mp hquote
    exact .plain hc hc'.1 (fun _ => hc'.2) (ih hcontrol hquote)

/-- A value and nothing else but a comment. -/
theorem val_of_value? {cs : List Char} {v : Value} (h : value? cs = some v) :
    ∃ x r, cs = x ++ r ∧ Val x v ∧ isVoid r = true := by
  unfold value? at h
  split at h
  · rename_i inner
    obtain ⟨text, rest, hspan, rfl, htext, hrest⟩ := span_spec (· ≠ '"') inner
    simp only [hspan] at h
    split at h
    · rename_i c rest heq
      obtain ⟨rfl, rfl⟩ := Prod.mk.inj heq
      obtain rfl : c = '"' := by simpa using hrest c rest rfl
      split at h
      · cases h
      · rename_i hclean
        obtain rfl := Option.some.inj h
        simp only [Bool.or_eq_true, List.any_eq_true, decide_eq_true_eq, Bool.not_eq_true',
          not_or, not_exists, not_and, Bool.not_eq_true, Bool.not_eq_false] at hclean
        obtain ⟨hinside, hvoid⟩ := hclean
        have hshort : Short '"' text text := short_of_plain (fun c hc => (hinside c hc).1)
          fun c hc => ⟨by simpa using htext c hc, (hinside c hc).2⟩
        refine ⟨'"' :: text ++ ['"'], rest, ?_, .short (by decide) hshort, hvoid⟩
        rw [List.append_assoc, List.cons_append, List.singleton_append]
    · cases h
  · obtain ⟨word, rest, hspan, rfl, -⟩ := span_spec (fun c => !isSpace c && c ≠ '#') cs
    simp only [hspan] at h
    split at h
    · exact ⟨word, rest, rfl, .word (word_of_word? h), ‹_›⟩
    · cases h

/-- The fields of a table of a document. -/
def Fields.ofList (fields : List (List Char × Value)) : Fields :=
  fun n => (fields.lookup n).map .value

/-- The tables that a document stands for. -/
def stateOf (d : Document) : State where
  root n := match d.tables.lookup n with
    | some fields => some (.table .opened (Fields.ofList fields))
    | none => Fields.ofList d.root n
  header := (d.tables.head?.map Prod.fst).toList

theorem lookup_cons_of_ne {α : Type} {n m : List Char} (h : n ≠ m) (x : α)
    (xs : List (List Char × α)) : List.lookup n ((m, x) :: xs) = xs.lookup n := by
  rw [List.lookup_cons, beq_false_of_ne h]

theorem define_of_addField? {fields fields' : List (List Char × Value)} {name : List Char}
    {v : Value} (h : addField? fields name v = some fields') :
    define name v (Fields.ofList fields) = some (Fields.ofList fields') := by
  unfold addField? at h
  split at h
  · cases h
  · rename_i hnone
    obtain rfl := Option.some.inj h
    rw [Bool.not_eq_true, Option.isSome_eq_false_iff, Option.isNone_iff_eq_none] at hnone
    have hfree : Fields.ofList fields name = none := by rw [Fields.ofList, hnone, Option.map_none]
    rw [define, hfree]
    refine congrArg some (funext fun n => ?_)
    rw [Fields.ofList, List.lookup_append]
    by_cases hn : n = name
    · rw [hn, Fields.set_self, hnone, Option.none_or, List.lookup_cons_self]
      rfl
    · rw [Fields.set_of_ne _ _ hn, lookup_cons_of_ne hn, List.lookup_nil, Option.or_none]
      rfl

theorem step_of_addTable? {d d' : Document} {name : List Char} (h : d.addTable? name = some d') :
    (stateOf d).step (.table ⟨[], name⟩) = some (stateOf d') := by
  unfold addTable? at h
  split at h
  · cases h
  · rename_i hnone
    obtain rfl := Option.some.inj h
    rw [Bool.or_eq_true, not_or, Bool.not_eq_true, Bool.not_eq_true, Option.isSome_eq_false_iff,
      Option.isSome_eq_false_iff, Option.isNone_iff_eq_none, Option.isNone_iff_eq_none] at hnone
    have hfree : (stateOf d).root name = none := by
      simp only [stateOf, hnone.2, Fields.ofList, hnone.1, Option.map_none]
    have hopen : openTable name (stateOf d).root =
        some ((stateOf d).root.set name (.table .opened Fields.empty)) := by
      rw [openTable, hfree]
    have hroot : (stateOf d).root.set name (.table .opened Fields.empty) =
        (stateOf { d with tables := (name, []) :: d.tables }).root := by
      funext n
      by_cases hn : n = name
      · rw [hn, Fields.set_self]
        simp only [stateOf, List.lookup_cons_self]
        rfl
      · rw [Fields.set_of_ne _ _ hn]
        simp only [stateOf, lookup_cons_of_ne hn]
    rw [State.step, within, hopen, hroot]
    rfl

theorem step_of_assign? {d d' : Document} {name : List Char} {v : Value}
    (h : d.assign? name v = some d') :
    (stateOf d).step (.assign ⟨[], name⟩ v) = some (stateOf d') := by
  obtain ⟨root, tables⟩ := d
  cases tables with
  | nil =>
    obtain ⟨root', hroot, rfl⟩ := Option.map_eq_some_iff.mp h
    have hdefine := define_of_addField? hroot
    have hassign : assign ⟨[], name⟩ v (Fields.ofList root) = some (Fields.ofList root') := hdefine
    show (assign ⟨[], name⟩ v (Fields.ofList root)).map _ = _
    rw [hassign]
    rfl
  | cons table older =>
    obtain ⟨table, fields⟩ := table
    obtain ⟨fields', hfields, rfl⟩ := Option.map_eq_some_iff.mp h
    have hdefine := define_of_addField? hfields
    have hhere : (stateOf ⟨root, (table, fields) :: older⟩).root table =
        some (.table .opened (Fields.ofList fields)) := by
      simp only [stateOf, List.lookup_cons_self]
    have hassign : within .header [table] (assign ⟨[], name⟩ v)
        (stateOf ⟨root, (table, fields) :: older⟩).root =
        some ((stateOf ⟨root, (table, fields) :: older⟩).root.set table
          (.table .opened (Fields.ofList fields'))) := by
      have hinner : assign ⟨[], name⟩ v (Fields.ofList fields) =
        some (Fields.ofList fields') := hdefine
      simp only [within, hhere, Walk.passes, if_pos]
      rw [hinner]
      rfl
    have hroot : (stateOf ⟨root, (table, fields) :: older⟩).root.set table
        (.table .opened (Fields.ofList fields')) =
        (stateOf ⟨root, (table, fields') :: older⟩).root := by
      funext n
      by_cases hn : n = table
      · rw [hn, Fields.set_self]
        simp only [stateOf, List.lookup_cons_self]
      · rw [Fields.set_of_ne _ _ hn]
        simp only [stateOf, lookup_cons_of_ne hn]
    show (within .header [table] (assign ⟨[], name⟩ v) _).map _ = _
    rw [hassign, hroot]
    rfl

theorem fullKey_of_bare {name : List Char} (hne : name ≠ []) (h : ∀ c ∈ name, isBare c = true) :
    FullKey name ⟨[], name⟩ := .simple (.bare hne h)

/-- What a line that makes sense spells, and what becomes of the document. -/
theorem addLine?_cases {d d' : Document} {line : List Char} (h : d.addLine? line = some d') :
    (Spells line .blank ∧ d' = d) ∨
    (∃ name, Spells line (.table ⟨[], name⟩) ∧ d.addTable? name = some d') ∨
    ∃ name v, Spells line (.assign ⟨[], name⟩ v) ∧ d.assign? name v = some d' := by
  unfold addLine? at h
  split at h
  · exact .inl ⟨.blank ‹_›, (Option.some.inj h).symm⟩
  · obtain ⟨s, hs, hline⟩ := skip_spec line
    split at h
    · rename_i header hheader
      obtain ⟨s', hs', hinner⟩ := skip_spec header
      obtain ⟨name, rest, hspan, hname, hbare, -⟩ := span_spec isBare (skip header)
      obtain ⟨s'', hs'', hrest⟩ := skip_spec rest
      simp only [hspan] at h
      split at h
      · rename_i r hr
        split at h
        · cases h
        · rename_i hvoid
          rw [Bool.or_eq_true, not_or, List.isEmpty_iff, Bool.not_eq_true', Bool.not_eq_false]
            at hvoid
          refine .inr (.inl ⟨name, ?_, h⟩)
          rw [hline, hheader, hinner, hname, hrest, hr]
          have hspells := Spells.table hs hs' (fullKey_of_bare hvoid.1 hbare) hs'' hvoid.2
          simpa only [List.append_assoc, List.cons_append] using hspells
      · cases h
    · obtain ⟨name, rest, hspan, hname, hbare, -⟩ := span_spec isBare (skip line)
      obtain ⟨s', hs', hrest⟩ := skip_spec rest
      simp only [hspan] at h
      split at h
      · rename_i after hafter
        split at h
        · cases h
        · rename_i hempty
          rw [List.isEmpty_iff] at hempty
          obtain ⟨v, hv, hassign⟩ := Option.bind_eq_some_iff.mp h
          obtain ⟨s'', hs'', hvalue⟩ := skip_spec after
          obtain ⟨x, r, hx, hval, hvoid⟩ := val_of_value? hv
          refine .inr (.inr ⟨name, v, ?_, hassign⟩)
          rw [hline, hname, hrest, hafter, hvalue, hx]
          have hspells :=
            Spells.assign hs (.mk (fullKey_of_bare hempty hbare) hs' hs'' hval) hvoid
          simpa only [List.append_assoc, List.cons_append] using hspells
      · cases h

/-- Lines that are expressions make a text of them, with nothing behind the
last line end. -/
theorem exists_lists {text : List Char} {es : List Expression}
    (h : List.Forall₂ Spells (lines text) es) :
    ∃ es', Lists text es' ∧ (es' = es ∨ es' = es ++ [.blank]) := by
  induction hlength : text.length using Nat.strongRecOn generalizing text es with
  | ind k ih =>
    by_cases hline : '\n' ∈ text
    · obtain ⟨line, rest, hfree, rfl⟩ := exists_newline hline
      rw [lines_append hfree] at h
      cases h with
      | @cons _ e _ es hspells hrest =>
        obtain ⟨es', hlists, hes⟩ := ih rest.length (by simp [← hlength]; omega) hrest rfl
        obtain ⟨b, hb, heq⟩ := exists_closeLine line
        refine ⟨e :: es', ?_, hes.imp (congrArg (e :: ·)) (congrArg (e :: ·))⟩
        have hend : LineEnd (b ++ ['\n']) := by
          obtain rfl | rfl := hb
          · exact .lf
          · exact .crlf
        have hmore := Lists.more hspells hend hlists
        rw [← List.append_assoc, ← heq, List.append_assoc, List.singleton_append] at hmore
        exact hmore
    · by_cases hne : text = []
      · subst hne
        cases h
        exact ⟨[.blank], .last (.blank rfl), .inr rfl⟩
      · rw [lines_last hline hne] at h
        cases h with
        | cons hspells hrest =>
          cases hrest
          exact ⟨_, .last hspells, .inl rfl⟩

theorem run_append_blank (s : State) (es : List Expression) :
    s.run (es ++ [.blank]) = s.run es := by
  induction es generalizing s with
  | nil => rfl
  | cons e es ih =>
    rw [List.cons_append, State.run, State.run]
    exact congrArg _ (funext ih)

theorem mem_names_iff {α : Type} {n : List Char} {xs : List (List Char × α)} :
    n ∈ xs.map Prod.fst ↔ (xs.lookup n).isSome = true := by
  rw [List.lookup_isSome_iff, List.mem_map]
  constructor
  · rintro ⟨p, hp, rfl⟩
    exact ⟨p, hp, beq_self_eq_true _⟩
  · rintro ⟨p, hp, heq⟩
    exact ⟨p, hp, (eq_of_beq heq).symm⟩

theorem lookup_of_not_mem {α : Type} {n : List Char} {xs : List (List Char × α)}
    (h : n ∉ xs.map Prod.fst) : xs.lookup n = none := by
  rwa [mem_names_iff, Bool.not_eq_true, Option.isSome_eq_false_iff, Option.isNone_iff_eq_none] at h

/-- Names of tables differ from each other and from the names in the root. -/
structure Proper (d : Document) : Prop where
  distinct : (d.tables.map Prod.fst).Nodup
  apart : ∀ n ∈ d.tables.map Prod.fst, n ∉ d.root.map Prod.fst

theorem Proper.addTable? {d d' : Document} {name : List Char} (h : Proper d)
    (hadd : d.addTable? name = some d') : Proper d' := by
  unfold Document.addTable? at hadd
  split at hadd
  · cases hadd
  · rename_i hnone
    obtain rfl := Option.some.inj hadd
    rw [Bool.or_eq_true, not_or, ← mem_names_iff, ← mem_names_iff] at hnone
    exact ⟨List.nodup_cons.mpr ⟨hnone.2, h.distinct⟩,
      List.forall_mem_cons.mpr ⟨hnone.1, h.apart⟩⟩

theorem Proper.assign? {d d' : Document} {name : List Char} {v : Value} (h : Proper d)
    (hassign : d.assign? name v = some d') : Proper d' := by
  obtain ⟨root, tables⟩ := d
  cases tables with
  | nil =>
    obtain ⟨root', -, rfl⟩ := Option.map_eq_some_iff.mp hassign
    exact ⟨List.nodup_nil, fun n hn => absurd hn List.not_mem_nil⟩
  | cons table older =>
    obtain ⟨fields', -, rfl⟩ := Option.map_eq_some_iff.mp hassign
    exact ⟨h.distinct, h.apart⟩

/-- Lines that make sense are expressions that do the same. -/
theorem run_of_lines {ls : List (List Char)} {d d' : Document} (hproper : Proper d)
    (h : ls.foldlM (fun d line => match d.addLine? line with
      | none => Except.error line
      | some d => .ok d) d = .ok d') :
    Proper d' ∧ ∃ es, List.Forall₂ Spells ls es ∧ (stateOf d).run es = some (stateOf d') := by
  induction ls generalizing d with
  | nil =>
    obtain rfl := Except.ok.inj h
    exact ⟨hproper, [], .nil, rfl⟩
  | cons line ls ih =>
    rw [List.foldlM_cons] at h
    cases hadd : d.addLine? line with
    | none =>
      rw [hadd] at h
      cases h
    | some d₁ =>
      rw [hadd] at h
      obtain ⟨hproper', e, hspells, hstep⟩ :
          Proper d₁ ∧ ∃ e, Spells line e ∧ (stateOf d).step e = some (stateOf d₁) := by
        obtain ⟨hspells, rfl⟩ | ⟨name, hspells, htable⟩ | ⟨name, v, hspells, hassign⟩ :=
          addLine?_cases hadd
        · exact ⟨hproper, _, hspells, rfl⟩
        · exact ⟨hproper.addTable? htable, _, hspells, step_of_addTable? htable⟩
        · exact ⟨hproper.assign? hassign, _, hspells, step_of_assign? hassign⟩
      obtain ⟨hproper', es, hforms, hrun⟩ := ih hproper' h
      refine ⟨hproper', e :: es, .cons hspells hforms, ?_⟩
      rw [State.run, hstep]
      exact hrun

theorem lookup_reverse {α : Type} {xs : List (List Char × α)} (h : (xs.map Prod.fst).Nodup)
    (n : List Char) : xs.reverse.lookup n = xs.lookup n := by
  induction xs with
  | nil => rfl
  | cons p xs ih =>
    obtain ⟨m, x⟩ := p
    obtain ⟨hm, hxs⟩ := List.nodup_cons.mp h
    rw [List.reverse_cons, List.lookup_append, ih hxs]
    by_cases hn : n = m
    · rw [hn, lookup_of_not_mem hm, List.lookup_cons_self, Option.none_or, List.lookup_cons_self]
    · rw [lookup_cons_of_ne hn, lookup_cons_of_ne hn, List.lookup_nil, Option.or_none]

theorem lookup_map_snd {α β : Type} (f : α → β) (xs : List (List Char × α)) (n : List Char) :
    (xs.map fun p => (p.1, f p.2)).lookup n = (xs.lookup n).map f := by
  induction xs with
  | nil => rfl
  | cons p xs ih =>
    obtain ⟨m, x⟩ := p
    rw [List.map_cons]
    by_cases hn : n = m
    · rw [hn, List.lookup_cons_self, List.lookup_cons_self]
      rfl
    · rw [lookup_cons_of_ne hn, lookup_cons_of_ne hn, ih]

theorem shows_ofList (kind : Kind) (fields : List (List Char × Value)) :
    Shows (.table kind (Fields.ofList fields)) (.table fields) := by
  refine .table (fun n => (fields.lookup n).getD .null) ?_ ?_ ?_
  · intro n hn
    exact Option.map_eq_none_iff.mp hn
  · intro n i hi
    obtain ⟨v, hv, rfl⟩ := Option.map_eq_some_iff.mp hi
    rw [hv, Option.getD_some]
  · intro n i hi
    obtain ⟨v, hv, rfl⟩ := Option.map_eq_some_iff.mp hi
    rw [hv, Option.getD_some]
    exact .value v

/-- A document's value has the fields of its tables. -/
theorem Proper.shows {d : Document} (h : Proper d) :
    Shows (.table .opened (stateOf d).root) d.toValue := by
  have hlookup (n : List Char) :
      (d.root ++ d.tables.reverse.map fun p => (p.1, Value.table p.2)).lookup n =
        ((d.tables.lookup n).map Value.table).or (d.root.lookup n) := by
    rw [List.lookup_append, lookup_map_snd, lookup_reverse h.distinct]
    cases ht : d.tables.lookup n with
    | none => rw [Option.map_none, Option.or_none, Option.none_or]
    | some fields =>
      have hn : n ∈ d.tables.map Prod.fst := mem_names_iff.mpr (by rw [ht]; rfl)
      rw [lookup_of_not_mem (h.apart n hn), Option.none_or, Option.map_some, Option.some_or]
  have hroot (n : List Char) (i : Item) (hi : (stateOf d).root n = some i) :
      ∃ v, (((d.tables.lookup n).map Value.table).or (d.root.lookup n)) = some v ∧ Shows i v := by
    simp only [stateOf] at hi
    cases ht : d.tables.lookup n with
    | none =>
      rw [ht] at hi
      obtain ⟨v, hv, rfl⟩ := Option.map_eq_some_iff.mp hi
      exact ⟨v, hv, .value v⟩
    | some fields =>
      rw [ht] at hi
      obtain rfl := Option.some.inj hi
      exact ⟨.table fields, rfl, shows_ofList .opened fields⟩
  refine .table (fun n => (((d.tables.lookup n).map Value.table).or (d.root.lookup n)).getD .null)
    (fun n hn => ?_) (fun n i hi => ?_) fun n i hi => ?_
  · rw [hlookup]
    simp only [stateOf] at hn
    cases ht : d.tables.lookup n with
    | none =>
      rw [ht] at hn
      exact Option.map_eq_none_iff.mp hn
    | some fields =>
      rw [ht] at hn
      cases hn
  · obtain ⟨v, hv, -⟩ := hroot n i hi
    rw [hlookup, hv, Option.getD_some]
  · obtain ⟨v, hv, hshows⟩ := hroot n i hi
    rw [hv, Option.getD_some]
    exact hshows

/-- What the reader of plain tables makes of a text is what the text denotes. -/
theorem denotes_of_parse {text : List Char} {d : Document} (h : Document.parse text = .ok d) :
    Denotes text d.toValue := by
  have hinit : Proper {} := ⟨List.nodup_nil, fun _ hn => absurd hn List.not_mem_nil⟩
  obtain ⟨hproper, es, hforms, hrun⟩ := run_of_lines hinit h
  obtain ⟨es', hlists, hes⟩ := exists_lists hforms
  refine ⟨es', stateOf d, hlists, ?_, hproper.shows⟩
  obtain rfl | rfl := hes
  · exact hrun
  · rw [run_append_blank]
    exact hrun

end CommandLink.Toml
