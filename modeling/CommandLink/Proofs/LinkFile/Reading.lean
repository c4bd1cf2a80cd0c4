import CommandLink.Proofs.LinkFile.Agreement
import CommandLink.Proofs.LinkFile.Offsets
import CommandLink.Proofs.LinkFile.Spelling

namespace CommandLink.LinkFile

open Text

/-- Lines below a heading, if there is one, and what they set one after another. -/
inductive Sets : Option Heading → List (List Char) → List (Key × Value) → Prop
  | nil {h : Option Heading} : Sets h [] []
  | void {h : Option Heading} {a : List Char} {ls : List (List Char)}
      {settings : List (Key × Value)} (ha : Void a) (rest : Sets h ls settings) :
      Sets h (a :: ls) settings
  | heading {h : Option Heading} {b b' b'' a : List Char} {ls : List (List Char)}
      {settings : List (Key × Value)} (heading : Heading) (hb : Blank b) (hb' : Blank b')
      (hb'' : Blank b'') (ha : Blank a) (rest : Sets heading ls settings) :
      Sets h ((b ++ '[' :: b' ++ heading.name.toList ++ b'' ++ ']' :: a) :: ls) settings
  | assignment {b b' b'' value a : List Char} {v : Value} {ls : List (List Char)}
      {settings : List (Key × Value)} (k : Key) (hb : Blank b) (hb' : Blank b') (hb'' : Blank b'')
      (hvalue : k.Spells value v) (ha : Void a) (rest : Sets k.heading ls settings) :
      Sets k.heading ((b ++ k.name.toList ++ b' ++ '=' :: b'' ++ value ++ a) :: ls)
        ((k, v) :: settings)

/-- In `c'` every key has the value that it was given last, or else the one in `c`. -/
def Configuration.Assigned (c : Configuration) (settings : List (Key × Value))
    (c' : Configuration) : Prop :=
  ∀ k, c'.value k = (settings.reverse.lookup k).getD (c.value k)

theorem Configuration.assigned_nil (c : Configuration) : c.Assigned [] c := fun _ => rfl

theorem Configuration.assigned_cons {c c₁ c' : Configuration} {k : Key} {value : List Char}
    {settings : List (Key × Value)} (hk : assign? c value k = some c₁) :
    c.Assigned ((k, c₁.value k) :: settings) c' ↔ c₁.Assigned settings c' := by
  refine forall_congr' fun k' => ?_
  rw [List.reverse_cons, List.lookup_append]
  cases hlookup : settings.reverse.lookup k' with
  | some v => rfl
  | none =>
    by_cases heq : k' = k
    · subst heq
      simp
    · have hne : (k' == k) = false := by simpa using heq
      simp [List.lookup_cons, hne, value_of_assign?_of_ne hk heq]

theorem State.run_of_sets {h : Option Heading} {ls : List (List Char)}
    {settings : List (Key × Value)} (hsets : Sets h ls settings) {s : State} (hs : s.heading = h) :
    ∃ s', s.run (ls.map Entry.ofLine) = .ok s' ∧
      s.configuration.Assigned settings s'.configuration := by
  induction hsets generalizing s with
  | nil => exact ⟨s, rfl, s.configuration.assigned_nil⟩
  | void ha _ ih =>
    rw [List.map_cons, ofLine_of_void ha]
    exact ih hs
  | heading heading hb hb' hb'' ha _ ih =>
    have hname : Trimmed heading.name.toList := trimmed_of_all fun c hc =>
      Toml.not_blank_of_tight (Toml.tight_of_bare (.inl (heading.name_bare.2 c hc)))
    obtain ⟨s', hrun, hassigned⟩ := ih (s := { s with heading := heading }) rfl
    refine ⟨s', ?_, hassigned⟩
    rw [List.map_cons, ofLine_heading hb hb' hb'' ha hname, State.run, State.next,
      heading.ofName?_name]
    exact hrun
  | assignment k hb hb' hb'' hvalue ha _ ih =>
    obtain ⟨c₁, hassign, rfl⟩ := assign?_of_spells hvalue s.configuration
    obtain ⟨htoken, hmark⟩ := token_of_assign? hassign
    obtain ⟨s', hrun, hassigned⟩ := ih (s := { s with configuration := c₁ }) hs
    refine ⟨s', ?_, (Configuration.assigned_cons hassign).mpr hassigned⟩
    rw [List.map_cons, ofLine_assignment hb hb' hb'' ha k.name_bare.1 k.name_bare.2 htoken hmark,
      State.run_cons (State.next_assignment hs k.ofName?_name hassign)]
    exact hrun

theorem State.sets_of_run {s s' : State} {ls : List (List Char)}
    (h : s.run (ls.map Entry.ofLine) = .ok s') :
    ∃ settings, Sets s.heading ls settings ∧
      s.configuration.Assigned settings s'.configuration := by
  induction ls generalizing s with
  | nil =>
    obtain rfl := Except.ok.inj h
    exact ⟨[], .nil, s.configuration.assigned_nil⟩
  | cons line ls ih =>
    obtain ⟨s₁, hnext, hrun⟩ := State.run_cons_eq_ok h
    obtain ⟨settings, hrest, hassigned⟩ := ih hrun
    have hform := form_of_next hnext
    obtain ⟨hline, rfl⟩ | ⟨heading, hline, rfl⟩ | ⟨k, value, c, hheading, hline, hc, rfl⟩ :=
      State.next_cases hnext
    · rw [hline] at hform
      cases hform with
      | blank ha => exact ⟨settings, .void ha hrest, hassigned⟩
    · rw [hline] at hform
      cases hform with
      | heading hb hb' hb'' ha =>
        exact ⟨settings, .heading heading hb hb' hb'' ha hrest, hassigned⟩
    · rw [hline] at hform
      dsimp only at hrest
      rw [hheading] at hrest ⊢
      cases hform with
      | assignment hb hb' hb'' ha =>
        exact ⟨_, .assignment k hb hb' hb'' (spells_of_assign? hc) ha hrest,
          (Configuration.assigned_cons hc).mpr hassigned⟩

theorem ofLine_append_blank (line : List Char) {b : List Char} (hb : Blank b) :
    Entry.ofLine (line ++ b) = Entry.ofLine line := by
  have htrim : trim (line ++ b) = trim line := by
    obtain ⟨d, d', hd, hd', hline⟩ := exists_trim line
    conv => lhs; rw [hline, List.append_assoc]
    exact trim_append hd (hd'.append hb) (trimmed_trim line)
  rw [Entry.ofLine, htrim, Entry.ofLine]

/-- The reader drops nothing from a line that would count, and an empty line at the
end of a text sets nothing. -/
theorem run_lines (s : State) (text : List Char) :
    s.run ((lines text).map Entry.ofLine) = s.run ((text.splitOn '\n').map Entry.ofLine) := by
  induction hn : text.length using Nat.strong_induction_on generalizing s text with
  | _ n ih =>
    subst hn
    by_cases h : '\n' ∈ text
    · obtain ⟨line, rest, hline, rfl⟩ := exists_newline h
      obtain ⟨b, hb, hclose⟩ := exists_closeLine line
      have hblank : Blank b := by
        obtain rfl | rfl := hb
        · exact blank_nil
        · exact List.forall_mem_singleton.mpr rfl
      have hentry : Entry.ofLine (closeLine line.reverse) = Entry.ofLine line := by
        conv => rhs; rw [hclose]
        exact (ofLine_append_blank _ hblank).symm
      have hlt : rest.length < (line ++ '\n' :: rest).length := by
        rw [List.length_append, List.length_cons]
        omega
      rw [lines_append hline, List.splitOn_append_cons_self_of_not_mem hline, List.map_cons,
        List.map_cons, hentry, State.run, State.run]
      cases s.next (Entry.ofLine line) with
      | error err => rfl
      | ok s' => exact ih _ hlt s' rest rfl
    · rw [List.splitOn_eq_singleton h]
      cases text with
      | nil => rfl
      | cons c cs => rw [lines_last h (List.cons_ne_nil c cs)]

theorem read_eq (text : List Char) : read text =
    (State.run {} ((text.splitOn '\n').map Entry.ofLine)).map State.configuration := by
  rw [read, run_lines]

theorem read_eq_ok_iff {text : List Char} {c : Configuration} : read text = .ok c ↔
    ∃ s, State.run {} ((text.splitOn '\n').map Entry.ofLine) = .ok s ∧ s.configuration = c := by
  rw [read_eq]
  cases State.run {} ((text.splitOn '\n').map Entry.ofLine) with
  | error err => simp [Except.map]
  | ok s => simp [Except.map]

/-- The texts that are read are those whose lines set something, and the last setting
of a key holds. All other texts are refused, and with no text the reader cuts a line
where it cannot be cut. -/
theorem reads_settings (text : List Char) :
    (∀ settings, Sets none (text.splitOn '\n') settings →
      ∃ c, read text = .ok c ∧ ({} : Configuration).Assigned settings c) ∧
    (∀ c, read text = .ok c → ∃ settings, Sets none (text.splitOn '\n') settings ∧
      ({} : Configuration).Assigned settings c) ∧
    readInside? text = some (read text) := by
  refine ⟨fun settings hsets => ?_, fun c hread => ?_, readInside?_eq text⟩
  · obtain ⟨s, hrun, hassigned⟩ := State.run_of_sets hsets (s := {}) rfl
    exact ⟨s.configuration, read_eq_ok_iff.mpr ⟨s, hrun, rfl⟩, hassigned⟩
  · obtain ⟨s, hrun, rfl⟩ := read_eq_ok_iff.mp hread
    exact State.sets_of_run hrun

/-- Blanks inside the brackets, a comment with marks in it, a section that is opened
again and a key that is set again. -/
def overriddenText : List Char :=
  ("[ link ]\n" ++ "idle_timeout_ms=1_500# \"[uart]\" = 1\n" ++ "\t[uart]\n" ++
    "parity = \"even\"\n" ++ "[link]\n" ++ "idle_timeout_ms = 0900\n").toList

def overriddenSettings : List (Key × Value) :=
  [(.idleTimeout, .integer 1500), (.parity, .text "even".toList), (.idleTimeout, .integer 900)]

theorem sets_overridden : Sets none (overriddenText.splitOn '\n') overriddenSettings := by
  have hspace : Blank [' '] := List.forall_mem_singleton.mpr rfl
  have htab : Blank ['\t'] := List.forall_mem_singleton.mpr rfl
  have hfirst : Numeral "1_500".toList 1500 :=
    .mk (by decide : _ = [] ++ "1500".toList) (.inl rfl) (by decide)
      (List.all_iff_forall_prop.mp (by decide)) (by decide)
  have hsecond : Numeral "0900".toList 900 :=
    .mk (by decide : _ = [] ++ "0900".toList) (.inl rfl) (by decide)
      (List.all_iff_forall_prop.mp (by decide)) (by decide)
  have heven : "even" ∈ Key.parity.words := by decide
  have hcomment : Void "# \"[uart]\" = 1".toList := .comment blank_nil " \"[uart]\" = 1".toList
  exact .heading .link blank_nil hspace hspace blank_nil <|
    .assignment .idleTimeout blank_nil blank_nil blank_nil (.number hfirst (by decide)) hcomment <|
    .heading .uart htab blank_nil blank_nil blank_nil <|
    .assignment .parity blank_nil hspace hspace (.quoted heven) (.blank blank_nil) <|
    .heading .link blank_nil blank_nil blank_nil blank_nil <|
    .assignment .idleTimeout blank_nil hspace hspace (.number hsecond (by decide))
      (.blank blank_nil) <|
    .void (.blank blank_nil) .nil

theorem reads_settings_overridden :
    Sets none (overriddenText.splitOn '\n') overriddenSettings ∧
      ∃ c, read overriddenText = .ok c ∧ ({} : Configuration).Assigned overriddenSettings c :=
  ⟨sets_overridden, (reads_settings overriddenText).1 _ sets_overridden⟩

end CommandLink.LinkFile
