import CommandLink.Proofs.LinkFile.Acceptance
import CommandLink.Proofs.LinkFile.Reading

namespace CommandLink.LinkFile

open Text

def withComment (line comment : List Char) : List Char := line ++ ' ' :: '#' :: comment

/-- A line in brackets, which opens a section if the name in them is one. -/
def Headed (line : List Char) : Prop :=
  ∃ b middle b', Blank b ∧ Blank b' ∧ line = b ++ '[' :: middle ++ ']' :: b'

theorem ofLine_headed {line : List Char} :
    (∃ name, Entry.ofLine line = .heading name) ↔ Headed line := by
  constructor
  · rintro ⟨name, hline⟩
    have hform : Form Blank line (Entry.ofLine line) := form_ofLine fun heq => by
      rw [heq] at hline
      cases hline
    rw [hline] at hform
    cases hform with
    | @heading b d _ d' b' hb hd hd' hb' => exact ⟨b, d ++ name ++ d', b', hb, hb', by simp⟩
  · rintro ⟨b, middle, b', hb, hb', rfl⟩
    exact ⟨trim middle, ofLine_brackets hb hb' middle⟩

theorem Void.append_comment {a : List Char} (ha : Void a) (comment : List Char) :
    Void (withComment a comment) := by
  have hspace : Blank [' '] := List.forall_mem_singleton.mpr rfl
  cases ha with
  | blank hb =>
    have hvoid := Void.comment (hb.append hspace) comment
    rwa [List.append_assoc] at hvoid
  | comment hb cs =>
    have hvoid := Void.comment hb (withComment cs comment)
    rwa [withComment, ← List.cons_append, ← List.append_assoc] at hvoid

theorem form_withComment {line : List Char} {x : Entry} (h : Form Blank line x)
    (hx : ∀ name, x ≠ .heading name) (comment : List Char) :
    Form Blank (withComment line comment) x := by
  cases h with
  | blank ha => exact .blank (ha.append_comment comment)
  | heading => exact absurd rfl (hx _)
  | @assignment b key b' b'' value a hb hb' hb'' ha =>
    have hform : Form Blank (b ++ key ++ b' ++ '=' :: b'' ++ value ++ withComment a comment)
        (.assignment key value) := .assignment hb hb' hb'' (ha.append_comment comment)
    rwa [withComment, ← List.append_assoc] at hform

theorem unmarked_of_next {s s' : State} {x : Entry} (h : s.next x = .ok s') : x.Unmarked := by
  obtain ⟨rfl, -⟩ | ⟨heading, rfl, -⟩ | ⟨k, value, c, -, rfl, hc, -⟩ := State.next_cases h
  · trivial
  · trivial
  · exact (token_of_assign? hc).2

/-- A line that is accepted says the same with a comment behind it. -/
theorem ofLine_withComment {s s' : State} {line : List Char}
    (h : s.next (Entry.ofLine line) = .ok s') (hline : ¬Headed line) (comment : List Char) :
    Entry.ofLine (withComment line comment) = Entry.ofLine line := by
  have hheading (name : List Char) : Entry.ofLine line ≠ .heading name :=
    fun heq => hline (ofLine_headed.mp ⟨name, heq⟩)
  exact ofLine_of_form (form_withComment (form_of_next h) hheading comment) (regular_of_next h)
    (unmarked_of_next h)

theorem mem_trim {c : Char} {cs : List Char} (hc : isBlank c = false) (h : c ∈ cs) :
    c ∈ trim cs := by
  obtain ⟨b, b', hb, hb', hcs⟩ := exists_trim cs
  rw [hcs, List.mem_append, List.mem_append] at h
  exact (h.resolve_right (hb'.not_mem hc)).resolve_left (hb.not_mem hc)

theorem exists_trim_cons {b : List Char} (hb : Blank b) {c : Char} (hc : isBlank c = false)
    (rest : List Char) : ∃ inner, trim (b ++ c :: rest) = c :: inner := by
  have hstart : trimStart (b ++ c :: rest) = c :: rest :=
    trimStart_append hb fun d hd => Option.some.inj hd ▸ hc
  have hmem : c ∈ trim (b ++ c :: rest) := mem_trim hc (by simp)
  obtain ⟨d, -, hend⟩ := exists_trimEnd (c :: rest)
  rw [trim, hstart] at hmem ⊢
  generalize trimEnd (c :: rest) = t at hend hmem
  cases t with
  | nil => cases hmem
  | cons e inner =>
    obtain rfl := (List.cons.inj hend).1
    exact ⟨inner, rfl⟩

/-- No section and no key has a name with a mark in it. -/
theorem State.next_heading_of_mem (s : State) {c : Char} {name : List Char}
    (hc : Document.isBare c = false) (h : c ∈ name) :
    s.next (.heading name) = .error .invalidSection := by
  cases hname : Heading.ofName? name with
  | none => simp only [next, hname]
  | some heading =>
    obtain rfl := Heading.ofName?_eq_some hname
    rw [heading.name_bare.2 c h] at hc
    cases hc

theorem State.next_assignment_of_mem (s : State) {c : Char} {key : List Char}
    (hc : Document.isBare c = false) (h : c ∈ key) (value : List Char) :
    s.next (.assignment key value) = .error .unknownKey := by
  cases hkey : s.heading.bind fun h => Key.ofName? h key with
  | none => simp only [next, hkey]
  | some k =>
    obtain ⟨heading, -, hname⟩ := Option.bind_eq_some_iff.mp hkey
    obtain ⟨-, rfl⟩ := Key.ofName?_eq_some hname
    rw [k.name_bare.2 c h] at hc
    cases hc

theorem next_assignmentOf (s : State) (rest : List Char) :
    ∃ err, s.next (assignmentOf ('[' :: rest)) = .error err := by
  by_cases h : '=' ∈ '[' :: rest
  · obtain ⟨before, after, heq, hbefore⟩ := List.eq_append_cons_of_mem h
    rw [heq, assignmentOf_append hbefore]
    split
    · exact ⟨.invalidValue, rfl⟩
    · have hmem : '[' ∈ before := by
        cases before with
        | nil => cases heq
        | cons c before => exact (List.cons.inj heq).1 ▸ List.mem_cons_self
      exact ⟨.unknownKey, s.next_assignment_of_mem rfl (mem_trim rfl hmem) _⟩
  · rw [assignmentOf_of_not_mem h]
    exact ⟨.invalidValue, rfl⟩

/-- With a comment behind it, a line in brackets is neither a heading nor an assignment
of a key. -/
theorem next_withComment (s : State) {line : List Char} (hline : Headed line)
    (comment : List Char) :
    ∃ err, s.next (Entry.ofLine (withComment line comment)) = .error err := by
  obtain ⟨b, middle, b', hb, -, rfl⟩ := hline
  have hopen : withComment (b ++ '[' :: middle ++ ']' :: b') comment =
      b ++ '[' :: withComment (middle ++ ']' :: b') comment := by simp [withComment]
  obtain ⟨inner, hinner⟩ := exists_trim_cons hb (c := '[') rfl (withComment (middle ++ ']' :: b')
    comment)
  have hmark : '#' ∈ '[' :: inner := by
    rw [← hinner, withComment]
    exact mem_trim rfl (by simp)
  rw [hopen, Entry.ofLine, hinner]
  by_cases hlast : inner.getLast? = some ']'
  · obtain ⟨name, rfl⟩ := List.getLast?_eq_some_iff.mp hlast
    have hname : '#' ∈ name := by simpa using hmark
    rw [← List.cons_append, ofTrimmed_heading]
    exact ⟨.invalidSection, s.next_heading_of_mem rfl (mem_trim rfl hname)⟩
  · rw [ofTrimmed_bracket hlast]
    exact next_assignmentOf s inner

theorem State.run_append_eq_ok {s s' : State} {xs ys : List Entry} :
    s.run (xs ++ ys) = .ok s' ↔ ∃ s₁, s.run xs = .ok s₁ ∧ s₁.run ys = .ok s' := by
  induction xs generalizing s with
  | nil =>
    constructor
    · exact fun h => ⟨s, rfl, h⟩
    · rintro ⟨s₁, hs, h⟩
      obtain rfl := Except.ok.inj hs
      exact h
  | cons x xs ih =>
    rw [List.cons_append, run, run]
    cases s.next x with
    | error err => simp
    | ok s₁ => exact ih

/-- A line of a text, whatever it is, stands between the same lines. -/
theorem exists_splitOn_line {before behind : List Char}
    (hbefore : before = [] ∨ before.getLast? = some '\n') (hbehind : Toml.Ends behind) :
    ∃ ls ls' b, Blank b ∧ ∀ line, '\n' ∉ line →
      (before ++ line ++ behind).splitOn '\n' = ls ++ (line ++ b) :: ls' := by
  obtain ⟨ls, hfront⟩ : ∃ ls, ∀ rest : List Char,
      (before ++ rest).splitOn '\n' = ls ++ rest.splitOn '\n' := by
    obtain rfl | hlast := hbefore
    · exact ⟨[], fun _ => rfl⟩
    · obtain ⟨front, rfl⟩ := List.getLast?_eq_some_iff.mp hlast
      refine ⟨front.splitOn '\n', fun rest => ?_⟩
      rw [List.append_assoc, List.singleton_append, List.splitOn_append_cons_self]
  obtain ⟨b, ls', hb, hback⟩ : ∃ b ls', Blank b ∧ ∀ line, '\n' ∉ line →
      (line ++ behind).splitOn '\n' = (line ++ b) :: ls' := by
    obtain rfl | ⟨e, rest, he, rfl⟩ := hbehind
    · refine ⟨[], [], blank_nil, fun line hline => ?_⟩
      rw [List.append_nil, List.splitOn_eq_singleton hline]
    · cases he with
      | lf =>
        refine ⟨[], rest.splitOn '\n', blank_nil, fun line hline => ?_⟩
        rw [List.append_nil]
        exact List.splitOn_append_cons_self_of_not_mem hline rest
      | crlf =>
        refine ⟨['\r'], rest.splitOn '\n', List.forall_mem_singleton.mpr rfl, fun line hline => ?_⟩
        have hreturn : '\n' ∉ line ++ ['\r'] := by simp [hline]
        rw [← List.splitOn_append_cons_self_of_not_mem hreturn]
        simp
  refine ⟨ls, ls', b, hb, fun line hline => ?_⟩
  rw [List.append_assoc, hfront, hback line hline]

/-- A comment behind a line of a text that is read changes nothing, unless the line is
a heading. Then the text is not read any more. -/
theorem read_withComment {before line behind comment : List Char} {c : Configuration}
    (hbefore : before = [] ∨ before.getLast? = some '\n') (hline : '\n' ∉ line)
    (hbehind : Toml.Ends behind) (hcomment : '\n' ∉ comment)
    (h : read (before ++ line ++ behind) = .ok c) (c' : Configuration) :
    read (before ++ withComment line comment ++ behind) = .ok c' ↔ c' = c ∧ ¬Headed line := by
  have hwhole : '\n' ∉ withComment line comment := by simp [withComment, hline, hcomment]
  obtain ⟨ls, ls', b, hb, hsplit⟩ := exists_splitOn_line hbefore hbehind
  obtain ⟨s, hrun, rfl⟩ := read_eq_ok_iff.mp h
  rw [hsplit line hline, List.map_append, List.map_cons, ofLine_append_blank line hb] at hrun
  obtain ⟨s₁, hfront, hrest⟩ := State.run_append_eq_ok.mp hrun
  obtain ⟨s₂, hnext, hback⟩ := State.run_cons_eq_ok hrest
  rw [read_eq_ok_iff, hsplit _ hwhole, List.map_append, List.map_cons,
    ofLine_append_blank _ hb]
  by_cases hheaded : Headed line
  · obtain ⟨err, herr⟩ := next_withComment s₁ hheaded comment
    constructor
    · rintro ⟨s', hrun', -⟩
      obtain ⟨s₁', hfront', hrest'⟩ := State.run_append_eq_ok.mp hrun'
      obtain rfl := Except.ok.inj (hfront.symm.trans hfront')
      obtain ⟨s₂', hnext', -⟩ := State.run_cons_eq_ok hrest'
      cases herr.symm.trans hnext'
    · exact fun hc => absurd hheaded hc.2
  · rw [ofLine_withComment hnext hheaded]
    constructor
    · rintro ⟨s', hrun', rfl⟩
      obtain rfl := Except.ok.inj (hrun.symm.trans hrun')
      exact ⟨rfl, hheaded⟩
    · rintro ⟨rfl, -⟩
      exact ⟨s, hrun, rfl⟩

/-- A comment that looks like an assignment, behind one in the middle of a text. -/
theorem read_withComment_switch :
    read ("[link]\n".toList ++ "zero_sync = false".toList ++ "\r\n[uart]".toList) =
        .ok { settings := { zeroSync := false } } ∧
      ¬Headed "zero_sync = false".toList ∧
      read ("[link]\n".toList ++ withComment "zero_sync = false".toList "\"on\" = []".toList ++
        "\r\n[uart]".toList) = .ok { settings := { zeroSync := false } } := by
  have hplain : ¬Headed "zero_sync = false".toList := by
    rintro ⟨b, middle, b', -, -, heq⟩
    have hbracket : '[' ∈ "zero_sync = false".toList := by simp [heq]
    exact absurd hbracket (by decide)
  have hcomment : '\n' ∉ "\"on\" = []".toList := by decide
  have hread := read_withComment (.inr rfl) (by decide)
    (.inr ⟨_, "[uart]".toList, .crlf, rfl⟩) hcomment
    (rfl : read ("[link]\n".toList ++ "zero_sync = false".toList ++ "\r\n[uart]".toList) = _)
    { settings := { zeroSync := false } }
  exact ⟨rfl, hplain, hread.mpr ⟨rfl, hplain⟩⟩

/-- The smallest text that a comment makes unreadable. -/
theorem heading_with_comment : read "[link]".toList = .ok {} ∧
    read (withComment "[link]".toList "on".toList) = .error .invalidValue := ⟨rfl, rfl⟩

end CommandLink.LinkFile
