import CommandLink.Proofs.LinkFile.Forms

namespace CommandLink.LinkFile

open Document Text Toml

theorem void_of_isVoid {r : List Char} (h : isVoid r = true) : Void r ∧ '\n' ∉ r := by
  have hskip : r = r.takeWhile isSpace ++ skip r := List.takeWhile_append_dropWhile.symm
  have hs : Inline (r.takeWhile isSpace) :=
    inline_of_spaces fun _ hc => List.mem_takeWhile_imp hc
  rw [isVoid] at h
  generalize r.takeWhile isSpace = s at hskip hs
  generalize skip r = t at hskip h
  subst hskip
  split at h
  · rw [List.append_nil]
    exact ⟨.blank hs.blank, hs.newline⟩
  · rename_i cs
    refine ⟨.comment hs.blank cs, ?_⟩
    have hcs : '\n' ∉ cs := fun hc => by
      rw [Bool.not_eq_true', List.any_eq_false] at h
      exact h _ hc (by decide)
    simp [hs.newline, hcs]
  · cases h

theorem Void.start {a n : List Char} (ha : Void a) (hline : '\n' ∉ a) (hn : Ends n) :
    start (a ++ n) = .void := by
  cases ha with
  | blank hb =>
    rw [start_append (inline_of_blank hb hline)]
    exact hn.start
  | comment hb cs =>
    rw [List.mem_append, not_or] at hline
    rw [List.append_assoc, start_append (inline_of_blank hb hline.1), List.cons_append]
    exact start_cons (by decide) _

theorem Void.stop {a n : List Char} (ha : Void a) (hn : Ends n) : Stop (a ++ n) := by
  cases ha with
  | blank hb =>
    cases a with
    | nil => exact hn.stop
    | cons d a => exact fun c hc => .inl (Option.some.inj hc ▸ hb d List.mem_cons_self)
  | @comment b hb cs =>
    cases b with
    | nil => exact fun c hc => .inr (Option.some.inj hc).symm
    | cons d b => exact fun c hc => .inl (Option.some.inj hc ▸ hb d List.mem_cons_self)

/-- Entries that cannot be taken for anything else. -/
inductive Regular : Entry → Prop
  | blank : Regular .blank
  | heading {name : List Char} (hne : name ≠ []) (h : ∀ c ∈ name, isBare c = true) :
      Regular (.heading name)
  | assignment {key value : List Char} (hne : key ≠ []) (hkey : ∀ c ∈ key, isBare c = true)
      (hvalue : Token value) : Regular (.assignment key value)

/-- An entry and an expression that say the same. -/
inductive Same : Entry → Expression → Prop
  | blank : Same .blank .blank
  | heading (name : List Char) : Same (.heading name) (.table ⟨[], name⟩)
  | assignment (key : List Char) {value : List Char} {v : Value} (h : Val value v) :
      Same (.assignment key value) (.assign ⟨[], key⟩ v)

/-- Inside a header both readers find the same name. -/
theorem heading_eq_table {b b' name b'' s s' k s'' x y : List Char} {p : Path} (hb : Inline b)
    (hb' : Inline b') (hb'' : Inline b'') (hne : name ≠ []) (hname : ∀ c ∈ name, isBare c = true)
    (hs : Spaces s) (hs' : Spaces s') (hk : FullKey k p) (hs'' : Spaces s'')
    (heq : b ++ '[' :: (b' ++ (name ++ (b'' ++ ']' :: x))) =
      s ++ '[' :: (s' ++ (k ++ (s'' ++ ']' :: y)))) :
    k = name ∧ p = ⟨[], name⟩ := by
  obtain ⟨c, name, rfl⟩ := List.exists_cons_of_ne_nil hne
  obtain ⟨d, k, rfl, hd⟩ := hk.first
  obtain ⟨-, -, hinner⟩ := inline_unique hb (inline_of_spaces hs) (by decide) (by decide) heq
  obtain ⟨-, rfl, htail⟩ := inline_unique hb' (inline_of_spaces hs')
    (not_inline_of_keyStart (keyStart_of_bare (hname c List.mem_cons_self)))
    (not_inline_of_keyStart hd) hinner
  have hopening : opening (b'' ++ ']' :: x) ≠ some '.' := by
    rw [opening_append hb'', opening_cons (by decide)]
    decide
  obtain ⟨hk, hp, -⟩ := hk.eq_name hne hname
    (head_not_bare (inline_of_spaces hs'') (by decide) y) (head_not_bare hb'' (by decide) x)
    hopening (congrArg (c :: ·) htail)
  exact ⟨hk, hp⟩

/-- In an assignment both readers find the same key and the same value. -/
theorem assignment_eq_assign {b key b' b'' value s k s' s'' cs x y : List Char} {p : Path}
    {v : Value} (hb : Inline b) (hb' : Inline b') (hb'' : Inline b'') (hne : key ≠ [])
    (hkey : ∀ c ∈ key, isBare c = true) (hvalue : Token value) (hs : Spaces s)
    (hk : FullKey k p) (hs' : Spaces s') (hs'' : Spaces s'') (hcs : Val cs v) (hx : Stop x)
    (hy : Stop y)
    (heq : b ++ (key ++ (b' ++ '=' :: (b'' ++ (value ++ x)))) =
      s ++ (k ++ (s' ++ '=' :: (s'' ++ (cs ++ y))))) :
    k = key ∧ p = ⟨[], key⟩ ∧ cs = value := by
  obtain ⟨c, key, rfl⟩ := List.exists_cons_of_ne_nil hne
  obtain ⟨d, k, rfl, hd⟩ := hk.first
  obtain ⟨-, rfl, hrest⟩ := inline_unique hb (inline_of_spaces hs)
    (not_inline_of_keyStart (keyStart_of_bare (hkey c List.mem_cons_self)))
    (not_inline_of_keyStart hd) heq
  have hopening : opening (b' ++ '=' :: (b'' ++ (value ++ x))) ≠ some '.' := by
    rw [opening_append hb', opening_cons (by decide)]
    decide
  obtain ⟨hk, hp, hrest⟩ := hk.eq_name hne hkey
    (head_not_bare (inline_of_spaces hs') (by decide) _) (head_not_bare hb' (by decide) _)
    hopening (congrArg (c :: ·) hrest)
  obtain ⟨-, -, hrest⟩ := inline_unique hb' (inline_of_spaces hs') (by decide) (by decide) hrest
  obtain ⟨htrim, hvalueNe⟩ := hvalue.trimmed
  obtain ⟨e, value, rfl⟩ := List.exists_cons_of_ne_nil hvalueNe
  obtain ⟨f, cs, rfl, hf⟩ := hcs.first
  obtain ⟨-, rfl, htail⟩ := inline_unique hb'' (inline_of_spaces hs'')
    (by rw [isInline, htrim.head e rfl, Bool.false_and]) (by rw [isInline, hf, Bool.false_and])
    hrest
  exact ⟨hk, hp, hcs.eq_token hvalue hx hy (congrArg (e :: ·) htail)⟩

def Entry.start : Entry → Start
  | .blank => .void
  | .heading _ => .bracket
  | .assignment .. => .key
  | .malformed => .other

theorem Form.start {line m : List Char} {x : Entry} (hform : Form Void line x) (hx : Regular x)
    (hline : '\n' ∉ line) (hm : Ends m) : start (line ++ m) = x.start := by
  cases hform with
  | blank ha => exact ha.start hline hm
  | heading hb =>
    simp only [List.append_assoc, List.cons_append, List.mem_append, not_or] at hline ⊢
    rw [start_append (inline_of_blank hb hline.1)]
    exact start_bracket _
  | assignment hb =>
    cases hx with
    | assignment hne hkey =>
      obtain ⟨c, key, rfl⟩ := List.exists_cons_of_ne_nil hne
      simp only [List.append_assoc, List.cons_append, List.mem_append, not_or] at hline ⊢
      rw [start_append (inline_of_blank hb hline.1)]
      exact start_key (keyStart_of_bare (hkey c List.mem_cons_self)) _

def startOf : Expression → Start
  | .blank => .void
  | .table _ | .element _ => .bracket
  | .assign .. => .key

theorem start_of_spells {cs n : List Char} {e : Expression} (h : Spells cs e) (hn : Ends n) :
    start (cs ++ n) = startOf e := by
  cases h with
  | blank hr =>
    obtain ⟨hvoid, hline⟩ := void_of_isVoid hr
    exact hvoid.start hline hn
  | assign hs h =>
    obtain ⟨hk, -, -, -⟩ := h
    obtain ⟨c, k, rfl, hc⟩ := hk.first
    simp only [List.append_assoc, List.cons_append]
    rw [start_append (inline_of_spaces hs)]
    exact start_key hc _
  | table hs =>
    simp only [List.append_assoc, List.cons_append]
    rw [start_append (inline_of_spaces hs)]
    exact start_bracket _
  | element hs =>
    simp only [List.append_assoc, List.cons_append]
    rw [start_append (inline_of_spaces hs)]
    exact start_bracket _

theorem newline_not_mem_of_bare {cs : List Char} (h : ∀ c ∈ cs, isBare c = true) : '\n' ∉ cs :=
  fun hc => absurd (h _ hc) (by decide)

theorem newline_not_mem_of_spaces {cs : List Char} (h : Spaces cs) : '\n' ∉ cs :=
  (inline_of_spaces h).newline

/-- Behind the first bracket there is a name on one side only. -/
theorem heading_ne_element {b b' name s x y : List Char} (hb : Inline b) (hb' : Inline b')
    (hne : name ≠ []) (hname : ∀ c ∈ name, isBare c = true) (hs : Spaces s) :
    b ++ '[' :: (b' ++ (name ++ x)) ≠ s ++ '[' :: '[' :: y := by
  intro heq
  obtain ⟨-, -, hinner⟩ := inline_unique hb (inline_of_spaces hs) (by decide) (by decide) heq
  obtain ⟨c, name, rfl⟩ := List.exists_cons_of_ne_nil hne
  have hstart := congrArg Toml.start hinner
  rw [start_append hb', List.cons_append,
    start_key (keyStart_of_bare (hname c List.mem_cons_self)), start_bracket] at hstart
  cases hstart

/-- An expression where a line has a header is a header of the same name. -/
theorem heading_same {b b' name b'' x cs n : List Char} {e : Expression} (hb : Inline b)
    (hb' : Inline b') (hb'' : Inline b'') (hne : name ≠ []) (hname : ∀ c ∈ name, isBare c = true)
    (hspells : Spells cs e) (hstart : startOf e = .bracket)
    (heq : b ++ '[' :: (b' ++ (name ++ (b'' ++ ']' :: x))) = cs ++ n) :
    '\n' ∉ cs ∧ e = .table ⟨[], name⟩ := by
  cases hspells with
  | blank => cases hstart
  | assign => cases hstart
  | table hs hs' hk hs'' hr =>
    simp only [List.append_assoc, List.cons_append] at heq
    obtain ⟨rfl, rfl⟩ := heading_eq_table hb hb' hb'' hne hname hs hs' hk hs'' heq
    refine ⟨?_, rfl⟩
    simp [newline_not_mem_of_spaces hs, newline_not_mem_of_spaces hs',
      newline_not_mem_of_spaces hs'', newline_not_mem_of_bare hname, (void_of_isVoid hr).2]
  | element hs =>
    simp only [List.append_assoc, List.cons_append] at heq
    exact absurd heq (heading_ne_element hb hb' hne hname hs)

/-- An expression where a line has an assignment sets the same key to the same value. -/
theorem assignment_same {b key b' b'' value x cs n : List Char} {e : Expression} (hb : Inline b)
    (hb' : Inline b') (hb'' : Inline b'') (hne : key ≠ []) (hkey : ∀ c ∈ key, isBare c = true)
    (hvalue : Token value) (hline : '\n' ∉ value) (hx : Stop x) (hspells : Spells cs e)
    (hn : Ends n) (hstart : startOf e = .key)
    (heq : b ++ (key ++ (b' ++ '=' :: (b'' ++ (value ++ x)))) = cs ++ n) :
    '\n' ∉ cs ∧ ∃ v, Val value v ∧ e = .assign ⟨[], key⟩ v := by
  cases hspells with
  | blank => cases hstart
  | table => cases hstart
  | element => cases hstart
  | assign hs h hr =>
    obtain ⟨hk, hs', hs'', hval⟩ := h
    obtain ⟨hvoid, hr⟩ := void_of_isVoid hr
    simp only [List.append_assoc, List.cons_append] at heq
    obtain ⟨rfl, rfl, rfl⟩ := assignment_eq_assign hb hb' hb'' hne hkey hvalue hs hk hs' hs''
      hval hx (hvoid.stop hn) heq
    refine ⟨?_, _, hval, rfl⟩
    simp [newline_not_mem_of_spaces hs, newline_not_mem_of_spaces hs',
      newline_not_mem_of_spaces hs'', newline_not_mem_of_bare hkey, hline, hr]

/-- A line of a regular entry and an expression at the same place are of the
same extent and say the same. -/
theorem Form.same {line m cs n : List Char} {x : Entry} {e : Expression}
    (hform : Form Void line x) (hx : Regular x) (hline : '\n' ∉ line) (hm : Ends m)
    (hspells : Spells cs e) (hn : Ends n) (heq : line ++ m = cs ++ n) :
    '\n' ∉ cs ∧ Same x e := by
  have hstart : x.start = startOf e := by
    rw [← hform.start hx hline hm, heq, start_of_spells hspells hn]
  cases hform with
  | blank ha =>
    cases hspells with
    | blank hr => exact ⟨(void_of_isVoid hr).2, .blank⟩
    | assign => cases hstart
    | table => cases hstart
    | element => cases hstart
  | heading hb hb' hb'' ha =>
    cases hx with
    | heading hne hname =>
      simp only [List.append_assoc, List.cons_append, List.mem_append, List.mem_cons,
        not_or] at heq hline
      obtain ⟨hcs, rfl⟩ := heading_same (inline_of_blank hb hline.1)
        (inline_of_blank hb' hline.2.2.1) (inline_of_blank hb'' hline.2.2.2.2.1) hne hname hspells
        hstart.symm heq
      exact ⟨hcs, .heading _⟩
  | assignment hb hb' hb'' ha =>
    cases hx with
    | assignment hne hkey hvalue =>
      simp only [List.append_assoc, List.cons_append, List.mem_append, List.mem_cons,
        not_or] at heq hline
      obtain ⟨hcs, v, hval, rfl⟩ := assignment_same (inline_of_blank hb hline.1)
        (inline_of_blank hb' hline.2.2.1) (inline_of_blank hb'' hline.2.2.2.2.1) hne hkey hvalue
        hline.2.2.2.2.2.1 (ha.stop hm) hspells hn hstart.symm heq
      exact ⟨hcs, .assignment _ hval⟩

theorem Form.append_blank {line d : List Char} {x : Entry} (h : Form Void line x) (hd : Blank d) :
    Form Void (line ++ d) x := by
  cases h with
  | blank ha => exact .blank (ha.append_blank hd)
  | heading hb hb' hb'' ha =>
    rw [List.append_assoc, List.cons_append]
    exact .heading hb hb' hb'' (ha.append_blank hd)
  | assignment hb hb' hb'' ha =>
    rw [List.append_assoc]
    exact .assignment hb hb' hb'' (ha.append_blank hd)

/-- A text that is not empty has a first line, blanks at its end included. -/
theorem exists_first_line {text : List Char} (hne : text ≠ []) :
    ∃ line d m rest, Blank d ∧ '\n' ∉ line ++ d ∧ Ends m ∧ text = line ++ d ++ m ∧
      lines text = line :: rest := by
  by_cases h : '\n' ∈ text
  · obtain ⟨line, rest, hline, rfl⟩ := exists_newline h
    obtain ⟨d, hd, heq⟩ := exists_closeLine line
    have hblank : Blank d := by
      obtain rfl | rfl := hd
      · exact blank_nil
      · exact List.forall_mem_singleton.mpr (by decide)
    exact ⟨_, d, '\n' :: rest, _, hblank, heq ▸ hline, .inr ⟨_, rest, .lf, rfl⟩, by rw [← heq],
      lines_append hline rest⟩
  · exact ⟨text, [], [], [], blank_nil, by simpa using h, .inl rfl, by simp, lines_last h hne⟩

theorem lines_lineEnd {line e : List Char} (hline : '\n' ∉ line) (he : LineEnd e)
    (rest : List Char) : ∃ first, lines (line ++ e ++ rest) = first :: lines rest := by
  cases he with
  | lf =>
    rw [List.append_assoc, List.singleton_append, lines_append hline]
    exact ⟨_, rfl⟩
  | crlf =>
    have hline : '\n' ∉ line ++ ['\r'] := by simpa using hline
    have hsplit : line ++ ['\r', '\n'] ++ rest = line ++ ['\r'] ++ '\n' :: rest := by simp
    rw [hsplit, lines_append hline]
    exact ⟨_, rfl⟩

/-- Entries and expressions that say the same. There is no line for the
nothing behind the last line end. -/
inductive Alike : List Entry → List Expression → Prop
  | nil : Alike [] []
  | blank : Alike [] [.blank]
  | cons {x : Entry} {e : Expression} {xs : List Entry} {es : List Expression} (h : Same x e)
      (hrest : Alike xs es) : Alike (x :: xs) (e :: es)

theorem exists_first_form {text : List Char} {xs : List Entry} (hne : text ≠ [])
    (hforms : List.Forall₂ (Form Void) (lines text) xs) :
    ∃ line m x xs', Form Void line x ∧ '\n' ∉ line ∧ Ends m ∧ text = line ++ m ∧ xs = x :: xs' := by
  obtain ⟨line, d, m, rest, hd, hline, hm, htext, hlines⟩ := exists_first_line hne
  rw [hlines] at hforms
  cases hforms with
  | cons hform => exact ⟨_, m, _, _, hform.append_blank hd, hline, hm, htext, rfl⟩

theorem first_same {text cs n : List Char} {xs : List Entry} {e : Expression} (hne : text ≠ [])
    (hforms : List.Forall₂ (Form Void) (lines text) xs) (hxs : ∀ x ∈ xs, Regular x)
    (hspells : Spells cs e) (hn : Ends n) (heq : text = cs ++ n) :
    '\n' ∉ cs ∧ ∃ x xs', xs = x :: xs' ∧ Same x e := by
  obtain ⟨line, m, x, xs, hform, hline, hm, htext, rfl⟩ := exists_first_form hne hforms
  obtain ⟨hcs, hsame⟩ :=
    hform.same (hxs x List.mem_cons_self) hline hm hspells hn (htext ▸ heq)
  exact ⟨hcs, x, xs, rfl, hsame⟩

/-- Where every line has the form of a regular entry, the expressions of a text
are its lines. -/
theorem alike_of_forms {text : List Char} {xs : List Entry} {es : List Expression}
    (h : Lists text es) (hforms : List.Forall₂ (Form Void) (lines text) xs)
    (hxs : ∀ x ∈ xs, Regular x) : Alike xs es := by
  induction h generalizing xs with
  | @last cs e h =>
    by_cases hne : cs = []
    · subst hne
      cases hforms
      have hstart := start_of_spells h (.inl rfl)
      cases e <;> first | exact .blank | cases hstart
    · obtain ⟨hcs, x, xs, rfl, hsame⟩ :=
        first_same hne hforms hxs h (.inl rfl) (List.append_nil cs).symm
      rw [lines_last hcs hne] at hforms
      cases hforms with
      | cons hform hrest =>
        cases hrest
        exact .cons hsame .nil
  | @more cs e rest x es h he hrest ih =>
    have hne : cs ++ e ++ rest ≠ [] := by cases he <;> simp
    obtain ⟨hcs, x, xs, rfl, hsame⟩ := first_same hne hforms hxs h (.inr ⟨e, rest, he, rfl⟩)
      (List.append_assoc cs e rest)
    obtain ⟨first, hlines⟩ := lines_lineEnd hcs he rest
    rw [hlines] at hforms
    cases hforms with
    | cons hform hforms =>
      exact .cons hsame (ih hforms fun x hx => hxs x (List.mem_cons_of_mem _ hx))

/-- No regular entry begins with a byte order mark. -/
theorem dropMark_of_forms {text : List Char} {xs : List Entry}
    (hforms : List.Forall₂ (Form Void) (lines text) xs) (hxs : ∀ x ∈ xs, Regular x) :
    dropMark text = text := by
  unfold dropMark
  split
  · rename_i cs
    obtain ⟨line, m, x, xs, hform, hline, hm, htext, rfl⟩ :=
      exists_first_form (List.cons_ne_nil _ _) hforms
    have hx := hxs x List.mem_cons_self
    have hstart := hform.start hx hline hm
    have hmark : Start.of '\uFEFF' = .other := by decide
    rw [← htext, start_cons (by decide), hmark] at hstart
    cases hx <;> cases hstart
  · rfl

end CommandLink.LinkFile
