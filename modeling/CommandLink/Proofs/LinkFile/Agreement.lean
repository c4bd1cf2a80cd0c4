import CommandLink.LinkFile.Build
import CommandLink.Proofs.LinkFile.Alignment
import CommandLink.Proofs.LinkFile.Values
import CommandLink.Proofs.Toml.Sections
import CommandLink.Proofs.Toml.Subset
import CommandLink.Timer.Queue

namespace CommandLink.LinkFile

open Document Text Toml

theorem Heading.ofName?_eq_some {cs : List Char} {h : Heading} (heq : ofName? cs = some h) :
    cs = h.name.toList := by
  have hname := List.find?_some heq
  exact (of_decide_eq_true hname).symm

theorem Key.ofName?_eq_some {h : Heading} {cs : List Char} {k : Key} (heq : ofName? h cs = some k) :
    k.heading = h ∧ cs = k.name.toList := by
  have hname := List.find?_some heq
  rw [Bool.and_eq_true, decide_eq_true_eq, decide_eq_true_eq] at hname
  exact ⟨hname.1, hname.2.symm⟩

theorem Key.ofName?_name (k : Key) : ofName? k.heading k.name.toList = some k := by
  cases k <;> decide

theorem Heading.ofName?_name (h : Heading) : ofName? h.name.toList = some h := by
  cases h <;> decide

theorem Heading.name_bare (h : Heading) :
    h.name.toList ≠ [] ∧ ∀ c ∈ h.name.toList, isBare c = true :=
  ⟨by cases h <;> decide, List.all_eq_true.mp (by cases h <;> decide)⟩

theorem Key.name_bare (k : Key) : k.name.toList ≠ [] ∧ ∀ c ∈ k.name.toList, isBare c = true :=
  ⟨by cases k <;> decide, List.all_eq_true.mp (by cases k <;> decide)⟩

/-- What an accepted entry does. -/
theorem State.next_cases {s s' : State} {x : Entry} (h : s.next x = .ok s') :
    (x = .blank ∧ s' = s) ∨
    (∃ heading : Heading, x = .heading heading.name.toList ∧ s' = { s with heading := heading }) ∨
    ∃ k value c, s.heading = some (Key.heading k) ∧ x = .assignment k.name.toList value ∧
      assign? s.configuration value k = some c ∧ s' = { s with configuration := c } := by
  cases x with
  | blank => exact .inl ⟨rfl, (Except.ok.inj h).symm⟩
  | heading name =>
    unfold State.next at h
    dsimp only at h
    split at h
    · cases h
    · rename_i heading hname
      obtain rfl := Heading.ofName?_eq_some hname
      exact .inr (.inl ⟨heading, rfl, (Except.ok.inj h).symm⟩)
  | assignment key value =>
    unfold State.next at h
    dsimp only at h
    split at h
    · cases h
    · rename_i k hk
      obtain ⟨heading, hheading, hname⟩ := Option.bind_eq_some_iff.mp hk
      obtain ⟨rfl, rfl⟩ := Key.ofName?_eq_some hname
      split at h
      · cases h
      · rename_i c hc
        exact .inr (.inr ⟨k, value, c, hheading, rfl, hc, (Except.ok.inj h).symm⟩)
  | malformed => cases h

theorem regular_of_next {s s' : State} {x : Entry} (h : s.next x = .ok s') : Regular x := by
  obtain ⟨rfl, -⟩ | ⟨heading, rfl, -⟩ | ⟨k, value, c, -, rfl, hc, -⟩ := State.next_cases h
  · exact .blank
  · exact .heading heading.name_bare.1 heading.name_bare.2
  · exact .assignment k.name_bare.1 k.name_bare.2 (token_of_assign? hc).1

/-- What is accepted of a line is what its form shows. -/
theorem form_of_next {s s' : State} {line : List Char} (h : s.next (Entry.ofLine line) = .ok s') :
    Form Blank line (Entry.ofLine line) := by
  refine form_ofLine fun heq => ?_
  rw [heq] at h
  cases h

theorem State.run_cons_eq_ok {s s' : State} {x : Entry} {xs : List Entry}
    (h : s.run (x :: xs) = .ok s') : ∃ s₁, s.next x = .ok s₁ ∧ s₁.run xs = .ok s' := by
  unfold State.run at h
  split at h
  · cases h
  · exact ⟨_, ‹_›, h⟩

theorem State.run_cons {s s₁ : State} {x : Entry} (h : s.next x = .ok s₁) (xs : List Entry) :
    s.run (x :: xs) = s₁.run xs := by
  rw [State.run, h]

theorem State.next_assignment {s : State} {heading : Heading} {k : Key} {key value : List Char}
    {c : Configuration} (hheading : s.heading = some heading)
    (hk : Key.ofName? heading key = some k) (hc : assign? s.configuration value k = some c) :
    s.next (.assignment key value) = .ok { s with configuration := c } := by
  simp only [State.next, hheading, Option.bind_some, hk, hc]

/-- The lines of a text that is read have the forms of their entries. -/
theorem forms_of_run {s s' : State} {ls : List (List Char)}
    (h : s.run (ls.map Entry.ofLine) = .ok s') :
    List.Forall₂ (Form Blank) ls (ls.map Entry.ofLine) ∧
      ∀ x ∈ ls.map Entry.ofLine, Regular x := by
  induction ls generalizing s with
  | nil => exact ⟨.nil, fun _ hx => absurd hx List.not_mem_nil⟩
  | cons line ls ih =>
    obtain ⟨s₁, hnext, hrun⟩ := State.run_cons_eq_ok h
    obtain ⟨hforms, hregular⟩ := ih hrun
    exact ⟨.cons (form_of_next hnext) hforms,
      List.forall_mem_cons.mpr ⟨regular_of_next hnext, hregular⟩⟩

/-- The two readers behind the same lines. -/
structure Agrees (s : State) (t : Toml.State) : Prop where
  header : ∀ h, s.heading = some h → t.header = [h.name.toList]
  flat : Flat t.root
  values : ∀ k : Key,
    (t.root.under k.heading.name.toList k.name.toList = none ∧
      s.configuration.value k = ({} : Configuration).value k) ∨
    t.root.under k.heading.name.toList k.name.toList = some (.value (s.configuration.value k))

theorem agrees_init : Agrees {} {} where
  header h heq := by cases heq
  flat n i hi := by cases hi
  values k := .inl ⟨rfl, rfl⟩

theorem Key.eq_of_name {k k' : Key} (hheading : k.heading.name.toList = k'.heading.name.toList)
    (hname : k.name.toList = k'.name.toList) : k = k' := by
  have hk := k.ofName?_name
  have hk' := k'.ofName?_name
  have hh := k.heading.ofName?_name
  rw [hheading, Heading.ofName?_name] at hh
  rw [hname, ← Option.some.inj hh, hk'] at hk
  exact (Option.some.inj hk).symm

theorem Agrees.step {s s' : State} {t t' : Toml.State} {x : Entry} {e : Expression}
    (h : Agrees s t) (hsame : Same x e) (hnext : s.next x = .ok s') (hstep : t.step e = some t') :
    Agrees s' t' := by
  obtain ⟨rfl, rfl⟩ | ⟨heading, rfl, rfl⟩ | ⟨k, value, c, hheading, rfl, hc, rfl⟩ :=
    State.next_cases hnext
  · cases hsame
    obtain rfl := Option.some.inj hstep
    exact h
  · cases hsame
    obtain ⟨hheader, hflat, hunder⟩ := step_table hstep h.flat
    refine ⟨fun h' heq => ?_, hflat, fun k => ?_⟩
    · rw [hheader, ← Option.some.inj heq]
    · rw [hunder]
      exact h.values k
  · cases hsame with
    | assignment _ hv =>
      have hheader := h.header _ hheading
      obtain ⟨hheader', hflat, -, hself, hother⟩ := step_assign hstep hheader h.flat
      refine ⟨fun h' heq => ?_, hflat, fun k' => ?_⟩
      · rw [hheader', ← hheader]
        exact h.header h' heq
      · by_cases hk : k' = k
        · subst hk
          rw [hself, Fields.set_self, (value_of_assign? hc hv).1]
          exact .inr rfl
        · rw [value_of_assign?_of_ne hc hk]
          by_cases hsection : k'.heading.name.toList = k.heading.name.toList
          · have hname : k'.name.toList ≠ k.name.toList :=
              fun heq => hk (Key.eq_of_name hsection heq)
            rw [hsection, hself, Fields.set_of_ne _ _ hname, ← hsection]
            exact h.values k'
          · rw [hother _ hsection]
            exact h.values k'

theorem Agrees.run {s s' : State} {t t' : Toml.State} {xs : List Entry} {es : List Expression}
    (h : Agrees s t) (halike : Alike xs es) (hrun : s.run xs = .ok s')
    (hrun' : t.run es = some t') : Agrees s' t' := by
  induction halike generalizing s t with
  | nil =>
    obtain rfl := Except.ok.inj hrun
    obtain rfl := Option.some.inj hrun'
    exact h
  | blank =>
    obtain rfl := Except.ok.inj hrun
    obtain rfl := Option.some.inj hrun'
    exact h
  | cons hsame hrest ih =>
    obtain ⟨s₁, hnext, hrun⟩ := State.run_cons_eq_ok hrun
    obtain ⟨t₁, hstep, hrun'⟩ := Option.bind_eq_some_iff.mp hrun'
    exact ih (h.step hsame hnext hstep) hrun hrun'

/-- A document that the build goes on with. -/
def Accepted (toml : List Char → Option Value) (text : List Char) (document : Value) : Prop :=
  toml text = some document ∧ complaints document = []

/-- The reader of plain tables as a parser. -/
def parser (text : List Char) : Option Value := (Document.parse text).toOption.map Document.toValue

theorem parser_denotes (text : List Char) (v : Value) (h : parser text = some v) :
    Denotes text v := by
  obtain ⟨d, hd, rfl⟩ := Option.map_eq_some_iff.mp h
  cases hparse : Document.parse text with
  | error line =>
    rw [hparse] at hd
    cases hd
  | ok d' =>
    rw [hparse] at hd
    obtain rfl := Option.some.inj hd
    exact denotes_of_parse hparse

theorem accept_eq_ok_iff {text : List Char} {document : Value} :
    accept text = .ok document ↔ Accepted parser text document := by
  rw [accept, Accepted, parser]
  cases Document.parse text with
  | error line => simp [Except.toOption]
  | ok d =>
    have hparser : ((Except.ok d : Except (List Char) Document).toOption.map Document.toValue =
        some document) ↔ d.toValue = document := Option.some_inj
    rw [hparser]
    dsimp only
    split
    · rename_i hnil
      constructor
      · intro h
        obtain rfl := Except.ok.inj h
        exact ⟨rfl, hnil⟩
      · rintro ⟨rfl, -⟩
        rfl
    · rename_i hne
      constructor
      · intro h
        cases h
      · rintro ⟨rfl, hnil⟩
        exact absurd hnil hne

/-- The value of a key in a document. -/
def settingAt? (document : Value) (k : Key) : Option Value :=
  (document.field? k.heading.name).bind (Value.field? · k.name)

theorem mem_of_lookup {fields : List (List Char × Value)} {name : List Char} {v : Value}
    (h : fields.lookup name = some v) : (name, v) ∈ fields := by
  obtain ⟨before, after, rfl, -⟩ := List.lookup_eq_some_iff.mp h
  simp

/-- There is nothing to complain about where every field of a section is a key
of it with a value that it admits. -/
theorem complaints_eq_nil_iff {document : Value} :
    complaints document = [] ↔ ∀ (heading : Heading) (fields : List (List Char × Value)),
      (document.field? heading.name).bind Value.table? = some fields → ∀ p ∈ fields,
        ∃ k, Key.ofName? heading p.1 = some k ∧ k.admits p.2 = true := by
  have hfield (heading : Heading) (p : List Char × Value) :
      Complaint.ofField? heading p.1 p.2 = none ↔
        ∃ k, Key.ofName? heading p.1 = some k ∧ k.admits p.2 = true := by
    unfold Complaint.ofField?
    cases Key.ofName? heading p.1 with
    | none => simp
    | some k => cases hk : k.admits p.2 <;> simp [hk]
  have hunder (heading : Heading) : complaintsUnder document heading = [] ↔
      ∀ fields, (document.field? heading.name).bind Value.table? = some fields → ∀ p ∈ fields,
        ∃ k, Key.ofName? heading p.1 = some k ∧ k.admits p.2 = true := by
    rw [complaintsUnder, List.filterMap_eq_nil_iff, fieldsOf]
    simp only [List.mem_mergeSort, hfield]
    cases (document.field? heading.name).bind Value.table? <;> simp
  rw [complaints, List.append_eq_nil_iff, hunder, hunder]
  constructor
  · rintro ⟨hlink, huart⟩ heading
    cases heading
    · exact hlink
    · exact huart
  · exact fun h => ⟨h .link, h .uart⟩

theorem admits_of_complaints {document : Value} (hdocument : complaints document = [])
    {h : Heading} {name : List Char} {v : Value}
    (hv : fieldAt? document h.name.toList name = some v) :
    ∃ k, Key.ofName? h name = some k ∧ k.admits v = true := by
  obtain ⟨s, hs, hfield⟩ := Option.bind_eq_some_iff.mp hv
  obtain ⟨fields, hfields, hlookup⟩ := Option.bind_eq_some_iff.mp hfield
  exact complaints_eq_nil_iff.mp hdocument h fields (Option.bind_eq_some_iff.mpr ⟨s, hs, hfields⟩) _
    (mem_of_lookup hlookup)

theorem validate_of_admits {c : Configuration} (h : Key.idleTimeout.admits (c.value .idleTimeout)) :
    c.settings.validate Timer.standardLongest = .ok () := by
  obtain ⟨hlow, hhigh⟩ := inRange_iff.mp h
  have hzero : c.settings.idleTimeout ≠ 0 := by
    intro heq
    rw [heq] at hlow
    exact absurd hlow (by decide)
  have hlongest : ¬Timer.standardLongest < c.settings.idleTimeout := by
    rw [UInt32.lt_iff_toNat_lt, Nat.not_lt]
    exact Int.ofNat_le.mp hhigh
  rw [Settings.validate, if_neg hzero, if_neg hlongest]

theorem read_eq_ok {text : List Char} {c : Configuration} (h : read text = .ok c) :
    ∃ s, State.run {} ((lines text).map Entry.ofLine) = .ok s ∧ c = s.configuration := by
  rw [read] at h
  cases hrun : State.run {} ((lines text).map Entry.ofLine) with
  | error e =>
    rw [hrun] at h
    cases h
  | ok s =>
    rw [hrun] at h
    exact ⟨s, rfl, (Except.ok.inj h).symm⟩

/-- Line by line, a text that is read says what it denotes. -/
theorem alike_of_read {text : List Char} {document : Value} {c : Configuration}
    (h : Denotes text document) (hread : read text = .ok c) :
    ∃ s xs es t, c = s.configuration ∧ List.Forall₂ (Form Blank) (lines text) xs ∧ Alike xs es ∧
      State.run {} xs = .ok s ∧ Toml.State.run {} es = some t ∧
      Shows (.table .opened t.root) document := by
  obtain ⟨es, t, hlists, hrun, hshows⟩ := h
  obtain ⟨s, hrun', rfl⟩ := read_eq_ok hread
  obtain ⟨hforms, hregular⟩ := forms_of_run hrun'
  have hloose := forms_void hforms
  rw [dropMark_of_forms hloose hregular] at hlists
  exact ⟨s, _, es, t, rfl, hforms, alike_of_forms hlists hloose hregular, hrun', hrun, hshows⟩

/-- Where the build check accepts a text and the firmware reads it, every key
has the value of the document or else its default, and the timeout is valid. -/
theorem build_agrees {toml : List Char → Option Value}
    (htoml : ∀ text v, toml text = some v → Toml.Denotes text v) {text : List Char}
    {document : Value} (haccepted : Accepted toml text document) {c : Configuration}
    (hread : read text = .ok c) :
    (∀ k, c.value k = (settingAt? document k).getD (({} : Configuration).value k)) ∧
      c.settings.validate Timer.standardLongest = .ok () := by
  obtain ⟨hdocument, hcomplaints⟩ := haccepted
  obtain ⟨s, xs, es, t, rfl, -, halike, hrun, hrun', hshows⟩ :=
    alike_of_read (htoml text document hdocument) hread
  have hagrees := agrees_init.run halike hrun hrun'
  have hvalue (k : Key) : (settingAt? document k = none ∧
      s.configuration.value k = ({} : Configuration).value k) ∨
      settingAt? document k = some (s.configuration.value k) := by
    obtain ⟨hnone, hsome⟩ :=
      shows_field hshows hagrees.flat k.heading.name.toList k.name.toList
    obtain ⟨hk, hdefault⟩ | hk := hagrees.values k
    · exact .inl ⟨hnone hk, hdefault⟩
    · exact .inr (hsome _ hk)
  constructor
  · intro k
    obtain ⟨hk, hdefault⟩ | hk := hvalue k
    · rw [hk, hdefault, Option.getD_none]
    · rw [hk, Option.getD_some]
  · apply validate_of_admits
    obtain ⟨-, hdefault⟩ | hk := hvalue .idleTimeout
    · rw [hdefault]
      decide
    · obtain ⟨k, hname, hadmits⟩ := admits_of_complaints (h := .link) hcomplaints hk
      obtain rfl : k = .idleTimeout := by
        have heq := (Key.idleTimeout.ofName?_name).symm.trans hname
        exact (Option.some.inj heq).symm
      exact hadmits

/-- A link file with a setting of each kind. -/
def sampleText : List Char :=
  ("[link]\nidle_timeout_ms = 1_500 # ms\nzero_sync = false\n" ++
    "checksum = \"payload-only\"\n\n[uart]\nstop_bits = +2\n").toList

def sampleDocument : Value :=
  .table [
    ("link".toList, .table [("idle_timeout_ms".toList, .integer 1500),
      ("zero_sync".toList, .boolean false), ("checksum".toList, .text "payload-only".toList)]),
    ("uart".toList, .table [("stop_bits".toList, .integer 2)])]

def sampleConfiguration : Configuration where
  settings := { idleTimeout := 1500, zeroSync := false, coverage := .payloadOnly }
  line := { stopBits := .two }

theorem accepted_sample : Accepted parser sampleText sampleDocument := by
  refine ⟨rfl, complaints_eq_nil_iff.mpr fun heading fields hfields p hp => ?_⟩
  cases heading with
  | link =>
    obtain rfl := Option.some.inj hfields
    simp only [List.mem_cons, List.not_mem_nil, or_false] at hp
    obtain rfl | rfl | rfl := hp
    · exact ⟨.idleTimeout, by decide, by decide⟩
    · exact ⟨.zeroSync, by decide, by decide⟩
    · exact ⟨.checksum, by decide, by decide⟩
  | uart =>
    obtain rfl := Option.some.inj hfields
    simp only [List.mem_cons, List.not_mem_nil, or_false] at hp
    obtain rfl := hp
    exact ⟨.stopBits, by decide, by decide⟩

theorem read_sample : read sampleText = .ok sampleConfiguration := by
  rfl

theorem build_agrees_sample : Accepted parser sampleText sampleDocument ∧
    read sampleText = .ok sampleConfiguration ∧
    (∀ k, sampleConfiguration.value k =
      (settingAt? sampleDocument k).getD (({} : Configuration).value k)) ∧
    sampleConfiguration.settings.validate Timer.standardLongest = .ok () :=
  ⟨accepted_sample, read_sample, build_agrees parser_denotes accepted_sample read_sample⟩

end CommandLink.LinkFile
