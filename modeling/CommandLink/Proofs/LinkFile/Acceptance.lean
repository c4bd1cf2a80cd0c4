import CommandLink.Proofs.LinkFile.Agreement

namespace CommandLink.LinkFile

open Document Text Toml

/-- Headings of the two sections, and bare keys with plain values below them.
Whether there is a heading above the list is the first argument. -/
def Orderly : Bool → List Entry → Prop
  | _, [] => True
  | below, .blank :: xs => Orderly below xs
  | _, .heading name :: xs => (∃ h, Heading.ofName? name = some h) ∧ Orderly true xs
  | below, .assignment key value :: xs =>
    below = true ∧ key ≠ [] ∧ (∀ c ∈ key, isBare c = true) ∧ Plain value ∧ Orderly below xs
  | _, .malformed :: _ => False

/-- A text of lines that both readers understand. -/
def Legible (behind : List Char → Prop) (text : List Char) : Prop :=
  ∃ xs, List.Forall₂ (Form behind) (lines text) xs ∧ Orderly false xs

theorem Orderly.regular {below : Bool} {xs : List Entry} (h : Orderly below xs) :
    ∀ x ∈ xs, Regular x := by
  induction xs generalizing below with
  | nil => exact fun _ hx => absurd hx List.not_mem_nil
  | cons x xs ih =>
    cases x with
    | blank => exact List.forall_mem_cons.mpr ⟨.blank, ih h⟩
    | heading name =>
      obtain ⟨⟨heading, hname⟩, hrest⟩ := h
      obtain rfl := Heading.ofName?_eq_some hname
      exact List.forall_mem_cons.mpr
        ⟨.heading heading.name_bare.1 heading.name_bare.2, ih hrest⟩
    | assignment key value =>
      obtain ⟨-, hne, hkey, hplain, hrest⟩ := h
      exact List.forall_mem_cons.mpr ⟨.assignment hne hkey hplain.token, ih hrest⟩
    | malformed => exact h.elim

/-- A field of a section stays as it is. -/
theorem under_of_run {below : Bool} {xs : List Entry} {es : List Expression} {t t' : Toml.State}
    (halike : Alike xs es) (horderly : Orderly below xs) (hflat : Flat t.root)
    (hheader : below = true → ∃ h, t.header = [h]) (hrun : t.run es = some t') :
    Flat t'.root ∧ ∀ h n i, t.root.under h n = some i → t'.root.under h n = some i := by
  induction halike generalizing below t with
  | nil =>
    obtain rfl := Option.some.inj hrun
    exact ⟨hflat, fun _ _ _ => id⟩
  | blank =>
    obtain rfl := Option.some.inj hrun
    exact ⟨hflat, fun _ _ _ => id⟩
  | cons hsame hrest ih =>
    obtain ⟨t₁, hstep, htail⟩ := Option.bind_eq_some_iff.mp hrun
    cases hsame with
    | blank =>
      obtain rfl := Option.some.inj hstep
      exact ih horderly hflat hheader htail
    | heading name =>
      obtain ⟨hheader', hflat', hunder⟩ := step_table hstep hflat
      obtain ⟨hflat'', hmono⟩ := ih horderly.2 hflat' (fun _ => ⟨name, hheader'⟩) htail
      exact ⟨hflat'', fun h n i hi => hmono h n i (by rw [hunder]; exact hi)⟩
    | assignment key hv =>
      obtain ⟨hbelow, -, -, -, horderly⟩ := horderly
      obtain ⟨heading, hheading⟩ := hheader hbelow
      obtain ⟨hheader', hflat', hnone, hself, hother⟩ := step_assign hstep hheading hflat
      obtain ⟨hflat'', hmono⟩ := ih horderly hflat' (fun _ => ⟨heading, hheader'⟩) htail
      refine ⟨hflat'', fun h n i hi => hmono h n i ?_⟩
      by_cases hh : h = heading
      · subst hh
        have hn : n ≠ key := by
          rintro rfl
          rw [hnone] at hi
          cases hi
        rw [hself, Fields.set_of_ne _ _ hn]
        exact hi
      · rw [hother h hh]
        exact hi

/-- No comment begins inside a value. -/
def Entry.Unmarked : Entry → Prop
  | .assignment _ value => '#' ∉ value
  | _ => True

/-- Orderly entries are read if the document in the end admits what it has. -/
theorem run_of_orderly {below : Bool} {xs : List Entry} {es : List Expression} {s : State}
    {t t' : Toml.State} (halike : Alike xs es) (horderly : Orderly below xs) (hflat : Flat t.root)
    (hbelow : below = true → ∃ h, s.heading = some h)
    (hheader : ∀ h, s.heading = some h → t.header = [h.name.toList])
    (hrun : t.run es = some t')
    (hadmits : ∀ (h : Heading) n v, t'.root.under h.name.toList n = some (.value v) →
      ∃ k, Key.ofName? h n = some k ∧ k.admits v = true) :
    ∃ s', s.run xs = .ok s' ∧ ∀ x ∈ xs, x.Unmarked := by
  induction halike generalizing below s t with
  | nil => exact ⟨s, rfl, fun _ hx => absurd hx List.not_mem_nil⟩
  | blank => exact ⟨s, rfl, fun _ hx => absurd hx List.not_mem_nil⟩
  | cons hsame hrest ih =>
    obtain ⟨t₁, hstep, htail⟩ := Option.bind_eq_some_iff.mp hrun
    cases hsame with
    | blank =>
      obtain rfl := Option.some.inj hstep
      obtain ⟨s', hrun', hmarks⟩ := ih horderly hflat hbelow hheader htail
      exact ⟨s', hrun', List.forall_mem_cons.mpr ⟨trivial, hmarks⟩⟩
    | heading name =>
      obtain ⟨⟨heading, hname⟩, horderly⟩ := horderly
      obtain rfl := Heading.ofName?_eq_some hname
      obtain ⟨hheader', hflat', -⟩ := step_table hstep hflat
      obtain ⟨s', hrun', hmarks⟩ := ih (s := { s with heading := heading }) horderly hflat'
        (fun _ => ⟨heading, rfl⟩) (fun h heq => by rw [hheader', ← Option.some.inj heq]) htail
      refine ⟨s', ?_, List.forall_mem_cons.mpr ⟨trivial, hmarks⟩⟩
      rw [State.run, State.next, hname]
      exact hrun'
    | @assignment key value v hv =>
      obtain ⟨rfl, -, -, hplain, horderly⟩ := horderly
      obtain ⟨heading, hheading⟩ := hbelow rfl
      have hopen := hheader heading hheading
      obtain ⟨hheader', hflat', -, hself, -⟩ := step_assign hstep hopen hflat
      obtain ⟨-, hmono⟩ := under_of_run hrest horderly hflat' (fun _ => ⟨_, hheader'⟩) htail
      obtain ⟨k, hk, hadmit⟩ := hadmits heading key v
        (hmono _ _ _ (by rw [hself, Fields.set_self]))
      obtain ⟨c, hc⟩ := assign?_of_admits hplain hv hadmit s.configuration
      obtain ⟨s', hrun', hmarks⟩ := ih (s := { s with configuration := c }) horderly hflat'
        (fun _ => ⟨heading, hheading⟩) (fun h heq => by rw [hheader', ← hopen]; exact hheader h heq)
        htail
      refine ⟨s', ?_, List.forall_mem_cons.mpr ⟨(token_of_assign? hc).2, hmarks⟩⟩
      rw [State.run_cons (State.next_assignment hheading hk hc)]
      exact hrun'

theorem ofLine_of_form {line : List Char} {x : Entry} (h : Form Blank line x) (hx : Regular x)
    (hmark : x.Unmarked) : Entry.ofLine line = x := by
  cases h with
  | blank ha => exact ofLine_of_void ha
  | heading hb hb' hb'' ha =>
    cases hx with
    | heading hne hname =>
      have hinside (c : Char) (hc : c ∈ _) : isBlank c = false :=
        not_blank_of_tight (tight_of_bare (.inl (hname c hc)))
      exact ofLine_heading hb hb' hb'' ha (trimmed_of_all hinside)
  | assignment hb hb' hb'' ha =>
    cases hx with
    | assignment hne hkey hvalue => exact ofLine_assignment hb hb' hb'' ha hne hkey hvalue hmark

theorem map_ofLine {ls : List (List Char)} {xs : List Entry}
    (hforms : List.Forall₂ (Form Blank) ls xs) (hregular : ∀ x ∈ xs, Regular x)
    (hmarks : ∀ x ∈ xs, x.Unmarked) : ls.map Entry.ofLine = xs := by
  induction hforms with
  | nil => rfl
  | cons hform hrest ih =>
    obtain ⟨hx, hregular⟩ := List.forall_mem_cons.mp hregular
    obtain ⟨hmark, hmarks⟩ := List.forall_mem_cons.mp hmarks
    rw [List.map_cons, ofLine_of_form hform hx hmark, ih hregular hmarks]

/-- What is read is orderly, if it denotes anything. -/
theorem orderly_of_run {xs : List Entry} {es : List Expression} {s s' : State}
    (halike : Alike xs es) (hrun : s.run xs = .ok s') : Orderly s.heading.isSome xs := by
  induction halike generalizing s with
  | nil => trivial
  | blank => trivial
  | cons hsame hrest ih =>
    obtain ⟨s₁, hnext, htail⟩ := State.run_cons_eq_ok hrun
    obtain ⟨rfl, rfl⟩ | ⟨heading, rfl, rfl⟩ | ⟨k, value, c, hheading, rfl, hc, rfl⟩ :=
      State.next_cases hnext
    · exact ih htail
    · exact ⟨⟨heading, heading.ofName?_name⟩, ih htail⟩
    · cases hsame with
      | assignment _ hv =>
        exact ⟨by rw [hheading]; rfl, k.name_bare.1, k.name_bare.2, (value_of_assign? hc hv).2,
          ih (s := { s with configuration := c }) htail⟩

theorem read_of_legible {text : List Char} {document : Value} (h : Denotes text document)
    (hcomplaints : complaints document = []) (hlegible : Legible Blank text) :
    ∃ c, read text = .ok c := by
  obtain ⟨es, t, hlists, hrun, hshows⟩ := h
  obtain ⟨xs, hforms, horderly⟩ := hlegible
  have hloose := forms_void hforms
  rw [dropMark_of_forms hloose horderly.regular] at hlists
  have halike := alike_of_forms hlists hloose horderly.regular
  have hinit : Flat Fields.empty := agrees_init.flat
  obtain ⟨hflat, -⟩ := under_of_run halike horderly hinit (by simp) hrun
  have hadmits (heading : Heading) (n : List Char) (v : Value)
      (hv : t.root.under heading.name.toList n = some (.value v)) :
      ∃ k, Key.ofName? heading n = some k ∧ k.admits v = true :=
    admits_of_complaints hcomplaints ((shows_field hshows hflat _ n).2 v hv)
  obtain ⟨s, hread, hmarks⟩ := run_of_orderly (s := {}) halike horderly hinit (by simp)
    (fun _ heq => by cases heq) hrun hadmits
  refine ⟨s.configuration, ?_⟩
  rw [read, map_ofLine hforms horderly.regular hmarks, hread]
  rfl

theorem legible_of_read {text : List Char} {document : Value} (h : Denotes text document)
    {c : Configuration} (hread : read text = .ok c) : Legible Blank text := by
  obtain ⟨s, xs, es, t, -, hforms, halike, hrun, -, -⟩ := alike_of_read h hread
  exact ⟨xs, hforms, orderly_of_run halike hrun⟩

/-- A text that the build check accepts is read if all its lines are of the forms
that both readers understand, and no other text is, comments behind headings
apart. -/
theorem build_reads {toml : List Char → Option Value}
    (htoml : ∀ text v, toml text = some v → Toml.Denotes text v) {text : List Char}
    {document : Value} (haccepted : Accepted toml text document) :
    (Legible Blank text → ∃ c, read text = .ok c) ∧
      ∀ c, read text = .ok c → Legible Void text := by
  obtain ⟨hdocument, hcomplaints⟩ := haccepted
  have hdenotes := htoml text document hdocument
  refine ⟨read_of_legible hdenotes hcomplaints, fun c hread => ?_⟩
  obtain ⟨xs, hforms, horderly⟩ := legible_of_read hdenotes hread
  exact ⟨xs, forms_void hforms, horderly⟩

theorem legible_sample : Legible Blank sampleText :=
  legible_of_read (parser_denotes _ _ accepted_sample.1) read_sample

theorem build_reads_sample : Accepted parser sampleText sampleDocument ∧
    Legible Blank sampleText ∧ ∃ c, read sampleText = .ok c :=
  ⟨accepted_sample, legible_sample,
    (build_reads parser_denotes accepted_sample).1 legible_sample⟩

/-- The build check has nothing against unknown sections and keys outside of
sections, which the firmware does not read. -/
theorem accepted_unread :
    (accept "[motor]\n".toList = .ok (.table [("motor".toList, .table [])]) ∧
      read "[motor]\n".toList = .error .invalidSection) ∧
    accept "port = 1\n".toList = .ok (.table [("port".toList, .integer 1)]) ∧
      read "port = 1\n".toList = .error .unknownKey :=
  ⟨⟨accept_eq_ok_iff.mpr ⟨rfl, by decide +kernel⟩, rfl⟩,
    accept_eq_ok_iff.mpr ⟨rfl, by decide +kernel⟩, rfl⟩

end CommandLink.LinkFile
