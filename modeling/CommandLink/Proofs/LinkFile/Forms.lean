import CommandLink.LinkFile.Reader
import CommandLink.Proofs.Toml.Tokens

namespace CommandLink.LinkFile

open Document Text Toml

/-- Blanks, and perhaps a comment behind them. -/
inductive Void : List Char → Prop
  | blank {b : List Char} (hb : Blank b) : Void b
  | comment {b : List Char} (hb : Blank b) (cs : List Char) : Void (b ++ '#' :: cs)

/-- The lines that make an entry, with `behind` for what may follow a heading. -/
inductive Form (behind : List Char → Prop) : List Char → Entry → Prop
  | blank {a : List Char} (ha : Void a) : Form behind a .blank
  | heading {b b' name b'' a : List Char} (hb : Blank b) (hb' : Blank b') (hb'' : Blank b'')
      (ha : behind a) : Form behind (b ++ '[' :: b' ++ name ++ b'' ++ ']' :: a) (.heading name)
  | assignment {b key b' b'' value a : List Char} (hb : Blank b) (hb' : Blank b')
      (hb'' : Blank b'') (ha : Void a) :
      Form behind (b ++ key ++ b' ++ '=' :: b'' ++ value ++ a) (.assignment key value)

theorem Void.append_blank {a d : List Char} (ha : Void a) (hd : Blank d) : Void (a ++ d) := by
  cases ha with
  | blank hb => exact .blank (hb.append hd)
  | comment hb cs =>
    rw [List.append_assoc, List.cons_append]
    exact .comment hb (cs ++ d)

theorem Form.mono {behind behind' : List Char → Prop} (h : ∀ a, behind a → behind' a)
    {line : List Char} {x : Entry} (hform : Form behind line x) : Form behind' line x := by
  cases hform with
  | blank ha => exact .blank ha
  | heading hb hb' hb'' ha => exact .heading hb hb' hb'' (h _ ha)
  | assignment hb hb' hb'' ha => exact .assignment hb hb' hb'' ha

theorem dropComment_of_not_mem {value : List Char} (h : '#' ∉ value) :
    dropComment value = value := by
  rw [dropComment, span_ne_self h]

theorem dropComment_append {before : List Char} (h : '#' ∉ before) (rest : List Char) :
    dropComment (before ++ '#' :: rest) =
      if before.count '"' % 2 = 0 then trim before else before ++ '#' :: rest := by
  rw [dropComment, span_ne_append h]

theorem forms_void {ls : List (List Char)} {xs : List Entry}
    (h : List.Forall₂ (Form Blank) ls xs) : List.Forall₂ (Form Void) ls xs :=
  h.imp fun _ _ hform => hform.mono fun _ => .blank

theorem exists_dropComment (value : List Char) :
    ∃ b a, Blank b ∧ Void a ∧ value = b ++ dropComment value ++ a := by
  have hwhole : ∃ b a, Blank b ∧ Void a ∧ value = b ++ value ++ a :=
    ⟨[], [], blank_nil, .blank blank_nil, by simp⟩
  by_cases h : '#' ∈ value
  · obtain ⟨before, rest, rfl, hbefore⟩ := List.eq_append_cons_of_mem h
    rw [dropComment_append hbefore]
    split
    · obtain ⟨b, b', hb, hb', heq⟩ := exists_trim before
      refine ⟨b, b' ++ '#' :: rest, hb, .comment hb' rest, ?_⟩
      conv => lhs; rw [heq]
      simp only [List.append_assoc]
    · exact hwhole
  · rwa [dropComment_of_not_mem h]

theorem assignmentOf_of_not_mem {t : List Char} (h : '=' ∉ t) : assignmentOf t = .malformed := by
  rw [assignmentOf, span_ne_self h]

theorem assignmentOf_append {before : List Char} (h : '=' ∉ before) (after : List Char) :
    assignmentOf (before ++ '=' :: after) =
      if (trim before).isEmpty || (dropComment (trim after)).isEmpty then .malformed
      else .assignment (trim before) (dropComment (trim after)) := by
  rw [assignmentOf, span_ne_append h]

theorem form_assignmentOf {t : List Char} (h : assignmentOf t ≠ .malformed) {b b' : List Char}
    (hb : Blank b) (hb' : Blank b') : Form Blank (b ++ t ++ b') (assignmentOf t) := by
  by_cases ht : '=' ∈ t
  · obtain ⟨before, after, rfl, hbefore⟩ := List.eq_append_cons_of_mem ht
    rw [assignmentOf_append hbefore] at h ⊢
    split at h
    · exact absurd rfl h
    · rename_i hempty
      rw [if_neg hempty]
      obtain ⟨d, d', hd, hd', hkey⟩ := exists_trim before
      obtain ⟨e, e', he, he', hvalue⟩ := exists_trim after
      obtain ⟨f, a, hf, ha, hcomment⟩ := exists_dropComment (trim after)
      have hform : Form Blank (b ++ d ++ trim before ++ d' ++ '=' :: (e ++ f) ++
          dropComment (trim after) ++ (a ++ (e' ++ b')))
          (.assignment (trim before) (dropComment (trim after))) :=
        .assignment (hb.append hd) hd' (he.append hf) (ha.append_blank (he'.append hb'))
      convert hform using 1
      conv => lhs; rw [hkey, hvalue, hcomment]
      simp only [List.append_assoc, List.cons_append]
  · exact absurd (assignmentOf_of_not_mem ht) h

theorem ofTrimmed_heading (middle : List Char) :
    Entry.ofTrimmed ('[' :: middle ++ [']']) = .heading (trim middle) := by
  rw [List.cons_append, Entry.ofTrimmed, if_pos List.getLast?_concat, List.dropLast_concat]

theorem ofTrimmed_bracket {inner : List Char} (h : inner.getLast? ≠ some ']') :
    Entry.ofTrimmed ('[' :: inner) = assignmentOf ('[' :: inner) := if_neg h

theorem ofTrimmed_cons {c : Char} {t : List Char} (hmark : c ≠ '#') (hbracket : c ≠ '[') :
    Entry.ofTrimmed (c :: t) = assignmentOf (c :: t) := by
  unfold Entry.ofTrimmed
  split
  · rename_i heq
    cases heq
  · rename_i heq
    exact absurd (List.cons.inj heq).1 hmark
  · rename_i heq
    exact absurd (List.cons.inj heq).1 hbracket
  · rfl

/-- Every line that makes sense has the form of its entry. -/
theorem form_ofLine {line : List Char} (h : Entry.ofLine line ≠ .malformed) :
    Form Blank line (Entry.ofLine line) := by
  obtain ⟨b, b', hb, hb', heq⟩ := exists_trim line
  rw [Entry.ofLine] at h ⊢
  generalize trim line = t at heq h ⊢
  subst heq
  match t with
  | [] =>
    rw [List.append_nil]
    exact .blank (.blank (hb.append hb'))
  | c :: t =>
    by_cases hmark : c = '#'
    · subst hmark
      rw [List.append_assoc]
      exact .blank (.comment hb _)
    · by_cases hbracket : c = '['
      · subst hbracket
        by_cases hlast : t.getLast? = some ']'
        · obtain ⟨middle, rfl⟩ := List.getLast?_eq_some_iff.mp hlast
          obtain ⟨d, d', hd, hd', hname⟩ := exists_trim middle
          have hform : Form Blank (b ++ '[' :: d ++ trim middle ++ d' ++ ']' :: b')
              (.heading (trim middle)) := .heading hb hd hd' hb'
          rw [← List.cons_append, ofTrimmed_heading]
          convert hform using 1
          conv => lhs; rw [hname]
          simp only [List.append_assoc, List.cons_append, List.nil_append]
        · rw [ofTrimmed_bracket hlast] at h ⊢
          exact form_assignmentOf h hb hb'
      · rw [ofTrimmed_cons hmark hbracket] at h ⊢
        exact form_assignmentOf h hb hb'

/-- A comment that ends the line, and the blanks at the end. -/
theorem Void.cut {a : List Char} (ha : Void a) :
    ∃ tail e, Blank e ∧ a = tail ++ e ∧
      (tail = [] ∨ ∃ d u, Blank d ∧ tail = d ++ '#' :: u ∧ Trimmed ('#' :: u)) := by
  cases ha with
  | blank hb => exact ⟨[], a, hb, rfl, .inl rfl⟩
  | @comment d hd cs =>
    have hmark : isBlank '#' = false := by decide
    obtain ⟨b, e, hb, he, heq⟩ := exists_trim ('#' :: cs)
    have htrim := trimmed_trim ('#' :: cs)
    generalize trim ('#' :: cs) = r at heq htrim
    match b, r with
    | c :: b, r =>
      have hc := (List.cons.inj heq).1 ▸ hb c List.mem_cons_self
      rw [hmark] at hc
      cases hc
    | [], [] =>
      obtain rfl : e = '#' :: cs := heq.symm
      have hc := he '#' List.mem_cons_self
      rw [hmark] at hc
      cases hc
    | [], c :: u =>
      obtain ⟨rfl, rfl⟩ := List.cons.inj heq
      refine ⟨d ++ '#' :: u, e, he, ?_, .inr ⟨d, u, hd, rfl, htrim⟩⟩
      simp

theorem ofLine_of_void {line : List Char} (h : Void line) : Entry.ofLine line = .blank := by
  obtain ⟨tail, e, he, rfl, rfl | ⟨d, u, hd, rfl, hu⟩⟩ := h.cut
  · have hnil : trim ([] ++ [] ++ e) = [] := trim_append blank_nil he (trimmed_of_all (by simp))
    rw [List.nil_append] at hnil
    rw [Entry.ofLine, hnil]
    rfl
  · rw [Entry.ofLine, trim_append hd he hu]
    rfl

theorem ofLine_brackets {b b' : List Char} (hb : Blank b) (hb' : Blank b') (middle : List Char) :
    Entry.ofLine (b ++ '[' :: middle ++ ']' :: b') = .heading (trim middle) := by
  have hbracket : Trimmed ['['] := trimmed_singleton rfl
  have hbracket' : Trimmed [']'] := trimmed_singleton rfl
  have htrim := trim_append hb hb' (hbracket.append hbracket' (by simp) (by simp) middle)
  have hline : b ++ '[' :: middle ++ ']' :: b' = b ++ (['['] ++ middle ++ [']']) ++ b' := by simp
  rw [Entry.ofLine, hline, htrim, List.singleton_append, ofTrimmed_heading]

theorem ofLine_heading {b b' name b'' a : List Char} (hb : Blank b) (hb' : Blank b')
    (hb'' : Blank b'') (ha : Blank a) (hname : Trimmed name) :
    Entry.ofLine (b ++ '[' :: b' ++ name ++ b'' ++ ']' :: a) = .heading name := by
  have hline : b ++ '[' :: b' ++ name ++ b'' ++ ']' :: a =
      b ++ '[' :: (b' ++ name ++ b'') ++ ']' :: a := by simp
  rw [hline, ofLine_brackets hb ha, trim_append hb' hb'' hname]

theorem dropComment_token {value tail : List Char} (hvalue : Token value) (hmark : '#' ∉ value)
    (htail : tail = [] ∨ ∃ d u, Blank d ∧ tail = d ++ '#' :: u ∧ Trimmed ('#' :: u)) :
    dropComment (value ++ tail) = value := by
  obtain rfl | ⟨d, u, hd, rfl, -⟩ := htail
  · rw [List.append_nil]
    exact dropComment_of_not_mem hmark
  · have hmark' : '#' ∉ d := hd.not_mem rfl
    have hquote : '"' ∉ d := hd.not_mem rfl
    have hbefore : '#' ∉ value ++ d := by simp [hmark, hmark']
    have hcount : (value ++ d).count '"' % 2 = 0 := by
      rw [List.count_append, List.count_eq_zero.mpr hquote, Nat.add_zero]
      exact hvalue.count_quotes
    have htrim := trim_append blank_nil hd hvalue.trimmed.1
    rw [List.nil_append] at htrim
    rw [← List.append_assoc, dropComment_append hbefore, if_pos hcount, htrim]

theorem ofLine_assignment {b key b' b'' value a : List Char} (hb : Blank b) (hb' : Blank b')
    (hb'' : Blank b'') (ha : Void a) (hne : key ≠ []) (hkey : ∀ c ∈ key, isBare c = true)
    (hvalue : Token value) (hmark : '#' ∉ value) :
    Entry.ofLine (b ++ key ++ b' ++ '=' :: b'' ++ value ++ a) = .assignment key value := by
  obtain ⟨tail, e, he, rfl, htail⟩ := ha.cut
  have hkeyTrimmed : Trimmed key :=
    trimmed_of_all fun c hc => not_blank_of_tight (tight_of_bare (.inl (hkey c hc)))
  have hafter : Trimmed (value ++ tail) := by
    obtain rfl | ⟨d, u, hd, rfl, hu⟩ := htail
    · rw [List.append_nil]
      exact hvalue.trimmed.1
    · rw [← List.append_assoc]
      exact hvalue.trimmed.1.append hu hvalue.trimmed.2 (by simp) d
  have hafterNe : value ++ tail ≠ [] := by simp [hvalue.trimmed.2]
  have hline : b ++ key ++ b' ++ '=' :: b'' ++ value ++ (tail ++ e) =
      b ++ (key ++ (b' ++ '=' :: b'') ++ (value ++ tail)) ++ e := by simp
  have hsplit : key ++ (b' ++ '=' :: b'') ++ (value ++ tail) =
      key ++ b' ++ '=' :: (b'' ++ (value ++ tail)) := by simp
  have hbefore : '=' ∉ key ++ b' := by
    rw [List.mem_append, not_or]
    exact ⟨fun hm => absurd (hkey _ hm) (by decide), fun hm => absurd (hb' _ hm) (by decide)⟩
  have htrimKey := trim_append blank_nil hb' hkeyTrimmed
  have htrimValue := trim_append hb'' blank_nil hafter
  rw [List.nil_append] at htrimKey
  rw [List.append_nil] at htrimValue
  have hassign : assignmentOf (key ++ b' ++ '=' :: (b'' ++ (value ++ tail))) =
      .assignment key value := by
    rw [assignmentOf_append hbefore, htrimKey, htrimValue, dropComment_token hvalue hmark htail]
    simp [hne, hvalue.trimmed.2]
  rw [Entry.ofLine, hline, trim_append hb he (hkeyTrimmed.append hafter hne hafterNe _), hsplit,
    ← hassign]
  obtain ⟨c, key, rfl⟩ := List.exists_cons_of_ne_nil hne
  have hc : ∀ d ∈ ['#', '['], ¬isBare d = true := List.all_iff_forall_prop.mp (by decide)
  exact ofTrimmed_cons (fun h => hc c (by simp [h]) (hkey c List.mem_cons_self))
    (fun h => hc c (by simp [h]) (hkey c List.mem_cons_self))

end CommandLink.LinkFile
