import CommandLink.LinkFile.Check
import CommandLink.Proofs.LinkFile.Numbers

namespace CommandLink.LinkFile

open Document Text Toml

/-- A key's setting as a value of a document. -/
def Configuration.value (c : Configuration) : Key → Value
  | .idleTimeout => .integer c.settings.idleTimeout.toNat
  | .rxOverwrite => .boolean c.settings.rxOverwrite
  | .zeroSync => .boolean c.settings.zeroSync
  | .errorReplies => .boolean c.settings.errorReplies
  | .checksum => .text c.settings.coverage.name.toList
  | .baudrate => .integer c.line.baudrate.toNat
  | .dataBits => .integer c.line.dataBits.count
  | .parity => .text c.line.parity.name.toList
  | .stopBits => .integer c.line.stopBits.count

theorem value_of_assign?_of_ne {c c' : Configuration} {value : List Char} {k k' : Key}
    (h : assign? c value k = some c') (hne : k' ≠ k) : c'.value k' = c.value k' := by
  cases k <;> obtain ⟨_, -, rfl⟩ := Option.map_eq_some_iff.mp h <;>
    cases k' <;> first | rfl | exact absurd rfl hne

/-- The words that a setting can have. -/
def names : List (List Char) :=
  ["tag-and-payload".toList, "payload-only".toList, "none".toList, "even".toList, "odd".toList]

theorem names_spec {n : List Char} (h : n ∈ names) :
    n.head?.any isInitial = true ∧ (∀ c ∈ n, isBare c = true) ∧
      n ∉ ["true".toList, "false".toList, "inf".toList, "nan".toList] := by
  have hall : ∀ n ∈ names, n.head?.any isInitial = true ∧ n.all isBare = true ∧
      n ∉ ["true".toList, "false".toList, "inf".toList, "nan".toList] := by decide
  obtain ⟨hinitial, hbare, hwords⟩ := hall n h
  exact ⟨hinitial, List.all_eq_true.mp hbare, hwords⟩

theorem plain_of_bare {cs : List Char} (h : ∀ c ∈ cs, isBare c = true) :
    ∀ c ∈ cs, c ≠ '"' ∧ c ≠ '\\' := by
  have hall : ∀ d ∈ ['"', '\\'], ¬isBare d = true := List.all_iff_forall_prop.mp (by decide)
  exact fun c hc => ⟨fun hq => hall '"' (by decide) (hq ▸ h c hc),
    fun hq => hall '\\' (by decide) (hq ▸ h c hc)⟩

theorem coverage_of_name? {cs : List Char} {coverage : Coverage}
    (h : Coverage.ofName? cs = some coverage) : cs = coverage.name.toList ∧ cs ∈ names := by
  unfold Coverage.ofName? at h
  split at h
  · cases h
    subst cs
    exact ⟨rfl, by decide⟩
  · split at h
    · cases h
      subst cs
      exact ⟨rfl, by decide⟩
    · cases h

theorem parity_of_name? {cs : List Char} {parity : Parity} (h : Parity.ofName? cs = some parity) :
    cs = parity.name.toList ∧ cs ∈ names := by
  rw [Parity.ofName?] at h
  have hname := List.find?_some h
  rw [decide_eq_true_eq] at hname
  subst hname
  exact ⟨rfl, by cases parity <;> decide⟩

theorem unquote_cases (cs : List Char) :
    unquote cs = cs ∨ cs = '"' :: unquote cs ++ ['"'] := by
  unfold unquote
  split
  · split
    · rename_i inner hlast
      exact .inr (congrArg ('"' :: ·) (List.dropLast_append_getLast? _ hlast).symm)
    · exact .inl rfl
  · exact .inl rfl

theorem unquote_quoted (cs : List Char) : unquote ('"' :: cs ++ ['"']) = cs := by
  rw [List.cons_append, unquote, if_pos List.getLast?_concat, List.dropLast_concat]

/-- A name is a value with quotes only. -/
theorem text_of_unquote {cs : List Char} {v : Value} (hname : unquote cs ∈ names)
    (hv : Val cs v) : cs = '"' :: unquote cs ++ ['"'] ∧ v = .text (unquote cs) := by
  obtain ⟨hinitial, hbare, hwords⟩ := names_spec hname
  obtain heq | heq := unquote_cases cs
  · rw [heq] at hinitial hwords
    obtain ⟨b, rfl, -⟩ | hspecial := hv.of_initial hinitial
    · exact absurd (by cases b <;> decide) hwords
    · exact absurd (List.mem_cons_of_mem _ (List.mem_cons_of_mem _ hspecial)) hwords
  · have hquoted := hv.eq_quoted (plain_of_bare hbare) (a := []) (b := []) (by simp)
      (by simp [← heq])
    exact ⟨heq, hquoted.2⟩

theorem readBool?_eq_some {cs : List Char} {b : Bool} (h : readBool? cs = some b) :
    cs = (toString b).toList := by
  unfold readBool? at h
  split at h
  · cases h
    assumption
  · split at h
    · cases h
      assumption
    · cases h

theorem boolean_of_readBool? {cs : List Char} {b : Bool} {v : Value} (h : readBool? cs = some b)
    (hv : Val cs v) : v = .boolean b := by
  obtain rfl := readBool?_eq_some h
  obtain ⟨b', heq, rfl⟩ | hspecial := hv.of_initial (by cases b <;> decide)
  · cases b <;> cases b' <;> first | rfl | exact absurd heq (by decide)
  · cases b <;> exact absurd hspecial (by decide)

theorem count_of_dataBits? {n : Nat} {d : DataBits} (h : DataBits.ofCount? n = some d) :
    d.count = n := by
  unfold DataBits.ofCount? at h
  split at h <;> cases h <;> rfl

theorem count_of_stopBits? {n : Nat} {d : StopBits} (h : StopBits.ofCount? n = some d) :
    d.count = n := by
  unfold StopBits.ofCount? at h
  split at h <;> cases h <;> rfl

/-- Texts of values that both readers understand. -/
inductive Plain : List Char → Prop
  | integer {cs : List Char} (h : (Document.integer? cs).isSome = true) : Plain cs
  | boolean (b : Bool) : Plain (toString b).toList
  | text {cs : List Char} (h : ∀ c ∈ cs, c ≠ '"' ∧ c ≠ '\\') : Plain ('"' :: cs ++ ['"'])

/-- A setting is read from a boolean, a name or a number. -/
theorem assign?_cases {c c' : Configuration} {cs : List Char} {k : Key}
    (h : assign? c cs k = some c') :
    (∃ b, readBool? cs = some b ∧ c'.value k = .boolean b) ∨
      (unquote cs ∈ names ∧ c'.value k = .text (unquote cs)) ∨
      ∃ bound n, readNumber? bound cs = some n ∧ c'.value k = .integer n := by
  cases k with
  | idleTimeout | baudrate =>
    obtain ⟨w, hw, rfl⟩ := Option.map_eq_some_iff.mp h
    obtain ⟨n, hn, rfl⟩ := Option.map_eq_some_iff.mp hw
    have hvalue : (UInt32.ofNat n).toNat = n :=
      UInt32.toNat_ofNat_of_lt' (readNumber?_eq_some hn).1
    exact .inr (.inr ⟨_, n, hn, by rw [Configuration.value, hvalue]⟩)
  | rxOverwrite | zeroSync | errorReplies =>
    obtain ⟨b, hb, rfl⟩ := Option.map_eq_some_iff.mp h
    exact .inl ⟨b, hb, rfl⟩
  | checksum =>
    obtain ⟨coverage, hcoverage, rfl⟩ := Option.map_eq_some_iff.mp h
    obtain ⟨heq, hname⟩ := coverage_of_name? hcoverage
    exact .inr (.inl ⟨hname, congrArg Value.text heq.symm⟩)
  | parity =>
    obtain ⟨parity, hparity, rfl⟩ := Option.map_eq_some_iff.mp h
    obtain ⟨heq, hname⟩ := parity_of_name? hparity
    exact .inr (.inl ⟨hname, congrArg Value.text heq.symm⟩)
  | dataBits =>
    obtain ⟨d, hd, rfl⟩ := Option.map_eq_some_iff.mp h
    obtain ⟨n, hn, hcount⟩ := Option.bind_eq_some_iff.mp hd
    exact .inr (.inr ⟨_, n, hn, by rw [Configuration.value, count_of_dataBits? hcount]⟩)
  | stopBits =>
    obtain ⟨d, hd, rfl⟩ := Option.map_eq_some_iff.mp h
    obtain ⟨n, hn, hcount⟩ := Option.bind_eq_some_iff.mp hd
    exact .inr (.inr ⟨_, n, hn, by rw [Configuration.value, count_of_stopBits? hcount]⟩)

/-- A setting has the value that its text denotes. -/
theorem value_of_assign? {c c' : Configuration} {cs : List Char} {v : Value} {k : Key}
    (h : assign? c cs k = some c') (hv : Val cs v) : c'.value k = v ∧ Plain cs := by
  obtain ⟨b, hb, hvalue⟩ | ⟨hname, hvalue⟩ | ⟨bound, n, hn, hvalue⟩ := assign?_cases h
  · obtain rfl := boolean_of_readBool? hb hv
    exact ⟨hvalue, readBool?_eq_some hb ▸ .boolean b⟩
  · obtain ⟨heq, rfl⟩ := text_of_unquote hname hv
    exact ⟨hvalue, heq ▸ .text (plain_of_bare (names_spec hname).2.1)⟩
  · obtain ⟨hi, rfl⟩ := integer_of_readNumber? hn hv
    exact ⟨hvalue, .integer (Option.isSome_of_eq_some hi)⟩

theorem token_of_boolean (b : Bool) : Token (toString b).toList := by
  have hall : ∀ c ∈ (toString b).toList, isBare c = true ∨ c = '+' :=
    List.all_iff_forall_prop.mp (by cases b <;> decide)
  refine .word (by cases b <;> decide) hall fun hdigit => ?_
  obtain ⟨d, rest, heq, hd⟩ := hdigit
  cases b <;> (cases heq; exact absurd hd (by decide))

/-- What a setting is read from can be cut off, and no comment begins in it. -/
theorem token_of_assign? {c c' : Configuration} {cs : List Char} {k : Key}
    (h : assign? c cs k = some c') : Token cs ∧ '#' ∉ cs := by
  obtain ⟨b, hb, -⟩ | ⟨hname, -⟩ | ⟨bound, n, hn, -⟩ := assign?_cases h
  · rw [readBool?_eq_some hb]
    exact ⟨token_of_boolean b, by cases b <;> decide⟩
  · obtain ⟨hinitial, hbare, -⟩ := names_spec hname
    have hmark : '#' ∉ unquote cs := fun hc => absurd (hbare _ hc) (by decide)
    obtain heq | heq := unquote_cases cs
    · rw [heq] at hinitial hbare hmark
      refine ⟨.word ?_ (fun c hc => .inl (hbare c hc)) ?_, hmark⟩
      · rintro rfl
        cases hinitial
      · rintro ⟨d, rest, rfl, hd⟩
        simp [isInitial, hd] at hinitial
    · rw [heq]
      exact ⟨.quoted (plain_of_bare hbare), by simp [hmark]⟩
  · obtain ⟨hne, hdigits⟩ := digits_of_readNumber? hn
    exact ⟨.word hne (fun c hc => (hdigits c hc).imp_left bare_of_part)
      fun _ hc => absurd (hdigits _ hc) (by decide), fun hc => absurd (hdigits _ hc) (by decide)⟩

theorem Plain.token {cs : List Char} (h : Plain cs) : Token cs := by
  cases h with
  | integer h =>
    obtain ⟨i, hi⟩ := Option.isSome_iff_exists.mp h
    obtain ⟨c, rest, rfl, -⟩ := leads_of_integer? hi
    have hsign : ∀ d ∈ ['+', '-'], isBare d = true ∨ d = '+' :=
      List.all_iff_forall_prop.mp (by decide)
    refine .word (List.cons_ne_nil _ _) (fun d hd => ?_) ?_
    · obtain hpart | hd := parts_of_integer? hi d hd
      · exact .inl (bare_of_part hpart)
      · exact hsign d hd
    · rintro ⟨d, rest', heq, hd⟩ hminus
      obtain ⟨⟨rest'', heq'⟩, -⟩ := minus_first hi hminus
      obtain rfl : d = '-' := (List.cons.inj (heq.symm.trans heq')).1
      exact absurd hd (by decide)
  | boolean b => exact token_of_boolean b
  | text h => exact .quoted h

/-- What a plain text may stand for. Other kinds are no settings. -/
theorem Plain.val_cases {cs : List Char} {v : Value} (h : Plain cs) (hv : Val cs v) :
    (∃ i, Document.integer? cs = some i ∧ v = .integer i) ∨
      (∃ b, cs = (toString b).toList ∧ v = .boolean b) ∨
      (∃ w, cs = '"' :: w ++ ['"'] ∧ v = .text w) ∨ v = .other := by
  have hword (hw : Word cs v) (hbased : ∀ mark rest, cs ≠ '0' :: mark :: rest) :
      (∃ i, Document.integer? cs = some i ∧ v = .integer i) ∨
        (∃ b, cs = (toString b).toList ∧ v = .boolean b) ∨
        (∃ w, cs = '"' :: w ++ ['"'] ∧ v = .text w) ∨ v = .other := by
    cases hw with
    | boolean b => exact .inr (.inl ⟨b, rfl, rfl⟩)
    | integer h => exact .inl ⟨_, h, rfl⟩
    | based => exact absurd rfl (hbased _ _)
    | float | special | date | time | dateTime => exact .inr (.inr (.inr rfl))
  cases h with
  | text h =>
    have htext := (hv.eq_quoted h (a := []) (b := []) (by simp) rfl).2
    exact .inr (.inr (.inl ⟨_, rfl, htext⟩))
  | boolean b =>
    have hhead : (toString b).toList.head? ≠ some '0' := by cases b <;> decide
    refine hword ?_ fun mark rest heq => hhead (by rw [heq]; rfl)
    cases b
    · exact hv.word_of_head (by decide)
    · exact hv.word_of_head (by decide)
  | integer h =>
    obtain ⟨i, hi⟩ := Option.isSome_iff_exists.mp h
    obtain ⟨ds, hds, -⟩ := integer?_eq_some hi
    obtain ⟨c, rest, rfl, hopener, -⟩ := (leads_of_integer? hi).first
    refine hword (hv.word_of_head hopener) fun mark rest' heq => ?_
    rw [heq] at hds
    cases hds

theorem inRange_iff {low high i : Int} :
    inRange low high (.integer i) = true ↔ low ≤ i ∧ i ≤ high := by
  simp [inRange, Value.integer?]

theorem readNumber?_of_inRange {cs : List Char} {i low high : Int} {bound : Nat}
    (h : Document.integer? cs = some i) (hi : low ≤ i ∧ i ≤ high) (hlow : 0 < low)
    (hhigh : high < 10 ^ 15) (hbound : high < bound) : readNumber? bound cs = some i.toNat :=
  readNumber?_of_integer? h (Int.lt_of_lt_of_le hlow hi.1) (Int.lt_of_le_of_lt hi.2 hhigh)
    (Int.lt_of_le_of_lt hi.2 hbound)

theorem readWord?_of_inRange {cs : List Char} {i low high : Int}
    (h : Document.integer? cs = some i) (hi : inRange low high (.integer i) = true)
    (hlow : 0 < low) (hhigh : high < UInt32.size) : ∃ w, readWord? cs = some w := by
  have hsize : (UInt32.size : Int) < 10 ^ 15 := by decide
  have hn := readNumber?_of_inRange h (inRange_iff.mp hi) hlow (by omega) hhigh
  exact ⟨_, Option.map_eq_some_iff.mpr ⟨_, hn, rfl⟩⟩

/-- What the build check admits can be set. -/
theorem assign?_of_admits {cs : List Char} {v : Value} {k : Key} (h : Plain cs) (hv : Val cs v)
    (hk : k.admits v = true) (c : Configuration) : ∃ c', assign? c cs k = some c' := by
  obtain ⟨i, hi, rfl⟩ | ⟨b, rfl, rfl⟩ | ⟨w, rfl, rfl⟩ | rfl := h.val_cases hv
  · cases k with
    | idleTimeout | baudrate =>
      obtain ⟨w, hw⟩ := readWord?_of_inRange hi hk (by decide) (by decide)
      exact ⟨_, Option.map_eq_some_iff.mpr ⟨w, hw, rfl⟩⟩
    | dataBits =>
      have hrange := inRange_iff.mp hk
      have hn : readSmall? cs = some i.toNat :=
        readNumber?_of_inRange hi hrange (by decide) (by decide) (by decide)
      obtain rfl | rfl : i = 7 ∨ i = 8 := by omega
      · exact ⟨_, by rw [assign?, hn]; rfl⟩
      · exact ⟨_, by rw [assign?, hn]; rfl⟩
    | stopBits =>
      have hrange := inRange_iff.mp hk
      have hn : readSmall? cs = some i.toNat :=
        readNumber?_of_inRange hi hrange (by decide) (by decide) (by decide)
      obtain rfl | rfl : i = 1 ∨ i = 2 := by omega
      · exact ⟨_, by rw [assign?, hn]; rfl⟩
      · exact ⟨_, by rw [assign?, hn]; rfl⟩
    | rxOverwrite | zeroSync | errorReplies | checksum | parity => cases hk
  · cases k with
    | rxOverwrite | zeroSync | errorReplies => cases b <;> exact ⟨_, rfl⟩
    | idleTimeout | baudrate | dataBits | stopBits | checksum | parity => cases hk
  · cases k with
    | checksum =>
      obtain ⟨coverage, hcoverage⟩ : ∃ coverage, Coverage.ofName? w = some coverage :=
        Option.isSome_iff_exists.mp hk
      exact ⟨_, by rw [assign?, unquote_quoted, hcoverage]; rfl⟩
    | parity =>
      obtain ⟨parity, hparity⟩ : ∃ parity, Parity.ofName? w = some parity :=
        Option.isSome_iff_exists.mp hk
      exact ⟨_, by rw [assign?, unquote_quoted, hparity]; rfl⟩
    | idleTimeout | baudrate | dataBits | stopBits => cases hk
    | rxOverwrite | zeroSync | errorReplies => cases hk
  · cases k <;> cases hk

end CommandLink.LinkFile
