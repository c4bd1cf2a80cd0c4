import CommandLink.Proofs.Toml.Words

namespace CommandLink.Toml

open LinkFile Document Text

/-- Values that a reader of single lines can cut off: short words, and strings
without escapes. A number with a dash in it could be a date that has a time
behind it. -/
inductive Token : List Char → Prop
  | word {cs : List Char} (hne : cs ≠ []) (h : ∀ c ∈ cs, isBare c = true ∨ c = '+')
      (hdash : (∃ c rest, cs = c :: rest ∧ c.isDigit = true) → '-' ∉ cs) : Token cs
  | quoted {cs : List Char} (h : ∀ c ∈ cs, c ≠ '"' ∧ c ≠ '\\') : Token ('"' :: cs ++ ['"'])

/-- What opens a value that is not a word. -/
def openers : List Char := ['"', '\'', '[', '{']

theorem not_opener_of_bare {c : Char} (h : isBare c = true ∨ c = '+') : c ∉ openers := by
  have hall : ∀ d ∈ openers, ¬(isBare d = true ∨ d = '+') := List.all_iff_forall_prop.mp (by decide)
  exact fun hc => hall c hc h

theorem tight_of_bare {c : Char} (h : isBare c = true ∨ c = '+') : isTight c = true := by
  obtain h | rfl := h
  · simp [isTight, h]
  · decide

theorem Leads.first {cs : List Char} (h : Leads cs) :
    ∃ c rest, cs = c :: rest ∧ c ∉ openers ∧ isTight c = true := by
  obtain ⟨c, rest, rfl, hc | hc⟩ := h
  · have hno : ∀ d ∈ openers, ¬d.isDigit = true := List.all_iff_forall_prop.mp (by decide)
    exact ⟨c, rest, rfl, fun hm => hno c hm hc, tight_of_digit hc⟩
  · have hall : ∀ d ∈ ['+', '-'], d ∉ openers ∧ isTight d = true :=
      List.all_iff_forall_prop.mp (by decide)
    exact ⟨c, rest, rfl, hall c hc⟩

theorem Word.first {cs : List Char} {v : Value} (h : Word cs v) :
    ∃ c rest, cs = c :: rest ∧ c ∉ openers ∧ isTight c = true := by
  obtain ⟨b, rfl, -⟩ | hcs | hleads := h.head
  · cases b
    · exact ⟨'f', _, rfl, by decide, by decide⟩
    · exact ⟨'t', _, rfl, by decide, by decide⟩
  · rw [List.mem_pair] at hcs
    obtain rfl | rfl := hcs
    · exact ⟨'i', _, rfl, by decide, by decide⟩
    · exact ⟨'n', _, rfl, by decide, by decide⟩
  · exact hleads.first

theorem Val.word_or_opener {cs : List Char} {v : Value} (h : Val cs v) :
    Word cs v ∨ ∃ c rest, cs = c :: rest ∧ c ∈ openers := by
  have hquotes : ∀ c ∈ ['"', '\''], c ∈ openers := List.all_iff_forall_prop.mp (by decide)
  cases h with
  | short hquote => exact .inr ⟨_, _, rfl, hquotes _ hquote⟩
  | long hquote => exact .inr ⟨_, _, rfl, hquotes _ hquote⟩
  | word h => exact .inl h
  | empty => exact .inr ⟨_, _, rfl, by decide⟩
  | list => exact .inr ⟨_, _, rfl, by decide⟩
  | emptyTable => exact .inr ⟨_, _, rfl, by decide⟩
  | table => exact .inr ⟨_, _, rfl, by decide⟩

theorem Val.first {cs : List Char} {v : Value} (h : Val cs v) :
    ∃ c rest, cs = c :: rest ∧ isBlank c = false := by
  obtain h | ⟨c, rest, rfl, hc⟩ := h.word_or_opener
  · obtain ⟨c, rest, rfl, -, hc⟩ := h.first
    exact ⟨c, rest, rfl, not_blank_of_tight hc⟩
  · have hall : ∀ d ∈ openers, isBlank d = false := List.all_iff_forall_prop.mp (by decide)
    exact ⟨c, rest, rfl, hall c hc⟩

/-- A string without quotes and escapes inside ends at the first quote. -/
theorem Short.eq_plain {w cs t a b : List Char} (h : Short '"' cs t)
    (hw : ∀ c ∈ w, c ≠ '"' ∧ c ≠ '\\') (heq : w ++ '"' :: a = cs ++ '"' :: b) :
    cs = w ∧ t = w := by
  induction h generalizing w with
  | done =>
    cases w with
    | nil => exact ⟨rfl, rfl⟩
    | cons c w => exact absurd (List.cons.inj heq).1 (hw c List.mem_cons_self).1
  | plain hcontrol hquote hescape h ih =>
    cases w with
    | nil => exact absurd (List.cons.inj heq).1.symm hquote
    | cons c w =>
      rw [List.cons_append, List.cons_append, List.cons.injEq] at heq
      obtain ⟨rfl, heq⟩ := heq
      obtain ⟨rfl, rfl⟩ := ih (fun d hd => hw d (List.mem_cons_of_mem _ hd)) heq
      exact ⟨rfl, rfl⟩
  | escape =>
    cases w with
    | nil => exact absurd (List.cons.inj heq).1 (by decide)
    | cons c w => exact absurd (List.cons.inj heq).1 (hw c List.mem_cons_self).2

theorem Val.eq_quoted {w q a b : List Char} {v : Value} (h : Val q v)
    (hw : ∀ c ∈ w, c ≠ '"' ∧ c ≠ '\\') (ha : a.head? ≠ some '"')
    (heq : '"' :: w ++ ['"'] ++ a = q ++ b) : q = '"' :: w ++ ['"'] ∧ v = .text w := by
  rw [List.append_assoc, List.cons_append, List.singleton_append] at heq
  cases h with
  | short hquote h =>
    rw [List.append_assoc, List.cons_append, List.singleton_append] at heq
    obtain ⟨rfl, heq⟩ := List.cons.inj heq
    obtain ⟨rfl, rfl⟩ := h.eq_plain hw heq
    exact ⟨rfl, rfl⟩
  | long hquote =>
    obtain ⟨rfl, heq⟩ := List.cons.inj heq
    cases w with
    | nil =>
      obtain ⟨-, rfl⟩ := List.cons.inj heq
      exact absurd rfl ha
    | cons c w => exact absurd (List.cons.inj heq).1 (hw c List.mem_cons_self).1
  | word h =>
    obtain ⟨c, rest, rfl, hc, -⟩ := h.first
    obtain ⟨rfl, -⟩ := List.cons.inj heq
    exact absurd (by decide) hc
  | empty => exact absurd (List.cons.inj heq).1 (by decide)
  | list => exact absurd (List.cons.inj heq).1 (by decide)
  | emptyTable => exact absurd (List.cons.inj heq).1 (by decide)
  | table => exact absurd (List.cons.inj heq).1 (by decide)

theorem Val.word_of_head {c : Char} {cs : List Char} {v : Value} (h : Val (c :: cs) v)
    (hc : c ∉ openers) : Word (c :: cs) v := by
  obtain h | ⟨d, rest, heq, hd⟩ := h.word_or_opener
  · exact h
  · rw [(List.cons.inj heq).1] at hc
    exact absurd hd hc

/-- A character that begins a word but not a number. -/
def isInitial (c : Char) : Bool := c ∉ openers && !c.isDigit && c ∉ ['+', '-']

theorem Val.of_initial {cs : List Char} {v : Value} (h : Val cs v)
    (hcs : cs.head?.any isInitial = true) :
    (∃ b, cs = (toString b).toList ∧ v = .boolean b) ∨ cs ∈ ["inf".toList, "nan".toList] := by
  obtain ⟨c, rest, rfl, -⟩ := h.first
  simp only [List.head?_cons, Option.any_some, isInitial, Bool.and_eq_true, decide_eq_true_eq,
    Bool.not_eq_true'] at hcs
  obtain ⟨⟨hopener, hdigit⟩, hsign⟩ := hcs
  obtain hboolean | hspecial | ⟨d, rest', heq, hd⟩ := (h.word_of_head hopener).head
  · exact .inl hboolean
  · exact .inr hspecial
  · obtain rfl := (List.cons.inj heq).1
    obtain hd | hd := hd
    · rw [hdigit] at hd
      cases hd
    · exact absurd hd hsign

/-- A token is cut off by what stands behind it, so no value begins with more
or less of it. -/
theorem Val.eq_token {p q a b : List Char} {v : Value} (h : Val q v) (hp : Token p) (ha : Stop a)
    (hb : Stop b) (heq : p ++ a = q ++ b) : q = p := by
  cases hp with
  | @quoted w hw =>
    refine (h.eq_quoted hw ?_ heq).1
    intro hquote
    obtain hblank | hmark := ha _ hquote
    · exact absurd hblank (by decide)
    · exact absurd hmark (by decide)
  | word hne hp hdash =>
    obtain ⟨c, p, rfl⟩ := List.exists_cons_of_ne_nil hne
    obtain ⟨d, rest, rfl, -⟩ := h.first
    obtain rfl := (List.cons.inj heq).1
    have hword := h.word_of_head (not_opener_of_bare (hp c List.mem_cons_self))
    have htight (e : Char) (he : e ∈ c :: p) := tight_of_bare (hp e he)
    obtain hq | ⟨d, time, hd, hq⟩ := hword.tight
    · exact (append_unique htight hq (not_tight_of_stop ha) (not_tight_of_stop hb) heq).1.symm
    · -- The token would be the whole date.
      rw [hq, List.append_assoc, List.cons_append] at heq
      obtain ⟨hpd, -⟩ := append_unique htight hd.tight (not_tight_of_stop ha)
        (by intro e he; cases he; decide) heq
      obtain ⟨y, ys, hys, hdigit⟩ := hd.head
      rw [← hpd] at hys
      exact absurd (hpd ▸ hd.dash) (hdash ⟨y, ys, hys, hdigit⟩)

theorem Token.trimmed {cs : List Char} (h : Token cs) : Trimmed cs ∧ cs ≠ [] := by
  cases h with
  | word hne h =>
    exact ⟨trimmed_of_all fun c hc => not_blank_of_tight (tight_of_bare (h c hc)), hne⟩
  | quoted =>
    have hquote : Trimmed ['"'] := trimmed_singleton rfl
    exact ⟨hquote.append hquote (by simp) (by simp) _, by simp⟩

/-- Quotes come in pairs. -/
theorem Token.count_quotes {cs : List Char} (h : Token cs) : cs.count '"' % 2 = 0 := by
  cases h with
  | word hne h =>
    rw [List.count_eq_zero.mpr fun hc => not_opener_of_bare (h _ hc) (by decide)]
  | quoted h =>
    rw [List.count_append, List.count_cons_self, List.count_eq_zero.mpr fun hc => (h _ hc).1 rfl]
    rfl

theorem inline_of_spaces {cs : List Char} (h : Spaces cs) : Inline cs := by
  intro c hc
  have hspace := h c hc
  rw [isSpace, Bool.or_eq_true, decide_eq_true_eq, decide_eq_true_eq] at hspace
  obtain rfl | rfl := hspace <;> decide

theorem not_inline_of_tight {c : Char} (h : isTight c = true) : isInline c = false := by
  rw [isInline, not_blank_of_tight h, Bool.false_and]

/-- The end of a text or of a line of it. -/
def Ends (cs : List Char) : Prop := cs = [] ∨ ∃ e rest, LineEnd e ∧ cs = e ++ rest

def isKeyStart (c : Char) : Bool := isBare c || c = '"' || c = '\''

/-- What the first character behind the blanks of a line tells. -/
inductive Start where
  | void
  | bracket
  | key
  | other
  deriving DecidableEq

def Start.of (c : Char) : Start :=
  if c = '#' || c = '\n' then .void
  else if c = '[' then .bracket
  else if isKeyStart c then .key
  else .other

def start (cs : List Char) : Start := (opening cs).elim .void Start.of

theorem start_append {b : List Char} (hb : Inline b) (cs : List Char) :
    start (b ++ cs) = start cs := by
  rw [start, opening_append hb, start]

theorem start_cons {c : Char} (hc : isInline c = false) (cs : List Char) :
    start (c :: cs) = .of c := by
  rw [start, opening_cons hc]
  rfl

theorem keyStart_of_bare {c : Char} (h : isBare c = true) : isKeyStart c = true := by
  simp [isKeyStart, h]

theorem not_inline_of_keyStart {c : Char} (h : isKeyStart c = true) : isInline c = false := by
  have hall : ∀ d ∈ blanks, ¬isKeyStart d = true := List.all_iff_forall_prop.mp (by decide)
  by_contra hc
  rw [Bool.not_eq_false, isInline, Bool.and_eq_true] at hc
  exact hall c (List.contains_iff_mem.mp hc.1) h

theorem start_key {c : Char} (hc : isKeyStart c = true) (cs : List Char) :
    start (c :: cs) = .key := by
  have hno : ∀ d ∈ ['#', '\n', '['], ¬isKeyStart d = true := List.all_iff_forall_prop.mp (by decide)
  have hne (d : Char) (hd : d ∈ ['#', '\n', '[']) : c ≠ d := fun h => hno d hd (h ▸ hc)
  rw [start_cons (not_inline_of_keyStart hc)]
  simp [Start.of, hne '#' (by decide), hne '\n' (by decide), hne '[' (by decide), hc]

theorem start_bracket (cs : List Char) : start ('[' :: cs) = .bracket := start_cons (by decide) cs

theorem Ends.start {cs : List Char} (h : Ends cs) : start cs = .void := by
  obtain rfl | ⟨e, rest, he, rfl⟩ := h
  · rfl
  · cases he with
    | lf => exact start_cons (by decide) rest
    | crlf =>
      have hcr : Inline ['\r'] := List.forall_mem_singleton.mpr (by decide)
      exact (start_append hcr ('\n' :: rest)).trans (start_cons (by decide) rest)

theorem Ends.stop {cs : List Char} (h : Ends cs) : Stop cs := by
  intro c hc
  obtain rfl | ⟨e, rest, he, rfl⟩ := h
  · cases hc
  · left
    cases he <;> (cases hc; decide)

theorem SimpleKey.first {k n : List Char} (h : SimpleKey k n) :
    ∃ c rest, k = c :: rest ∧ isKeyStart c = true := by
  cases h with
  | bare hne h =>
    obtain ⟨c, rest, rfl⟩ := List.exists_cons_of_ne_nil hne
    exact ⟨c, rest, rfl, keyStart_of_bare (h c List.mem_cons_self)⟩
  | quoted hquote =>
    have hall : ∀ c ∈ ['"', '\''], isKeyStart c = true := List.all_iff_forall_prop.mp (by decide)
    exact ⟨_, _, rfl, hall _ hquote⟩

theorem FullKey.first {k : List Char} {p : Path} (h : FullKey k p) :
    ∃ c rest, k = c :: rest ∧ isKeyStart c = true := by
  cases h with
  | simple h => exact SimpleKey.first h
  | dotted h =>
    obtain ⟨c, rest, rfl, hc⟩ := SimpleKey.first h
    exact ⟨c, _, rfl, hc⟩

theorem not_bare_of_quote {c : Char} (h : c ∈ ['"', '\'']) : ¬isBare c = true := by
  have hall : ∀ d ∈ ['"', '\''], ¬isBare d = true := List.all_iff_forall_prop.mp (by decide)
  exact hall c h

theorem head_not_bare {b : List Char} (hb : Inline b) {c : Char} (hc : ¬isBare c = true)
    (rest : List Char) : ∀ d, (b ++ c :: rest).head? = some d → ¬isBare d = true := by
  intro d hd hbare
  cases b with
  | nil =>
    obtain rfl := Option.some.inj hd
    exact hc hbare
  | cons e b =>
    obtain rfl := Option.some.inj hd
    have hinline := hb _ List.mem_cons_self
    rw [not_inline_of_tight (tight_of_bare (.inl hbare))] at hinline
    cases hinline

theorem SimpleKey.eq_name {k n name y z : List Char} (h : SimpleKey k n) (hne : name ≠ [])
    (hname : ∀ c ∈ name, isBare c = true) (hy : ∀ c, y.head? = some c → ¬isBare c = true)
    (hz : ∀ c, z.head? = some c → ¬isBare c = true) (heq : name ++ z = k ++ y) :
    k = name ∧ n = name ∧ z = y := by
  cases h with
  | bare hne' hk =>
    obtain ⟨rfl, rfl⟩ := append_unique hname hk hz hy heq
    exact ⟨rfl, rfl, rfl⟩
  | quoted hquote =>
    obtain ⟨c, name, rfl⟩ := List.exists_cons_of_ne_nil hne
    obtain rfl := (List.cons.inj heq).1
    exact absurd (hname c List.mem_cons_self) (not_bare_of_quote hquote)

/-- A bare name is the whole key unless a dot goes on with it. -/
theorem FullKey.eq_name {k name y z : List Char} {p : Path} (h : FullKey k p) (hne : name ≠ [])
    (hname : ∀ c ∈ name, isBare c = true) (hy : ∀ c, y.head? = some c → ¬isBare c = true)
    (hz : ∀ c, z.head? = some c → ¬isBare c = true) (hdot : opening z ≠ some '.')
    (heq : name ++ z = k ++ y) : k = name ∧ p = ⟨[], name⟩ ∧ z = y := by
  cases h with
  | simple h =>
    obtain ⟨rfl, rfl, rfl⟩ := h.eq_name hne hname hy hz heq
    exact ⟨rfl, rfl, rfl⟩
  | @dotted cs s s' rest n p h hs hs' hrest =>
    have hs := inline_of_spaces hs
    have htail := head_not_bare hs (c := '.') (by decide) (s' ++ rest ++ y)
    have hcut : name ++ z = cs ++ (s ++ '.' :: (s' ++ rest ++ y)) := by simpa using heq
    obtain ⟨-, -, rfl⟩ := h.eq_name hne hname htail hz hcut
    refine absurd ?_ hdot
    rw [opening_append hs, opening_cons (by decide)]

end CommandLink.Toml
