import CommandLink.Text.Blank
import CommandLink.Text.Lines
import Mathlib.Data.List.Basic
import Mathlib.Data.List.TakeDrop
import Mathlib.Data.List.TakeWhile

namespace CommandLink.Text

/-- A text can be cut in only one way into characters of a kind and a rest that
does not go on with one. -/
theorem append_unique {P : Char → Prop} {a b x y : List Char} (ha : ∀ c ∈ a, P c)
    (hb : ∀ c ∈ b, P c) (hx : ∀ c, x.head? = some c → ¬P c)
    (hy : ∀ c, y.head? = some c → ¬P c) (h : a ++ x = b ++ y) : a = b ∧ x = y := by
  induction a generalizing b with
  | nil =>
    cases b with
    | nil => exact ⟨rfl, h⟩
    | cons d b =>
      subst h
      exact absurd (hb d List.mem_cons_self) (hx d rfl)
  | cons c a ih =>
    cases b with
    | nil =>
      rw [List.nil_append] at h
      subst h
      exact absurd (ha c List.mem_cons_self) (hy c rfl)
    | cons d b =>
      rw [List.cons_append, List.cons_append, List.cons.injEq] at h
      obtain ⟨rfl, h⟩ := h
      obtain ⟨rfl, rfl⟩ := ih (fun e he => ha e (List.mem_cons_of_mem c he))
        (fun e he => hb e (List.mem_cons_of_mem c he)) h
      exact ⟨rfl, rfl⟩

theorem span_self {p : Char → Bool} {cs : List Char} (h : ∀ c ∈ cs, p c = true) :
    cs.span p = (cs, []) := by
  rw [List.span_eq_takeWhile_dropWhile, List.takeWhile_eq_self_iff.mpr h,
    List.dropWhile_eq_nil_iff.mpr h]

theorem span_append {p : Char → Bool} {a : List Char} {c : Char} (ha : ∀ d ∈ a, p d = true)
    (hc : p c = false) (b : List Char) : (a ++ c :: b).span p = (a, c :: b) := by
  have hc' : ¬p c = true := by simp [hc]
  rw [List.span_eq_takeWhile_dropWhile, List.takeWhile_append_of_pos ha,
    List.dropWhile_append_of_pos ha, List.takeWhile_cons_of_neg hc',
    List.dropWhile_cons_of_neg hc', List.append_nil]

theorem span_ne_self {mark : Char} {cs : List Char} (h : mark ∉ cs) :
    cs.span (· ≠ mark) = (cs, []) :=
  span_self fun _ hc => decide_eq_true (ne_of_mem_of_not_mem hc h)

theorem span_ne_append {mark : Char} {a : List Char} (h : mark ∉ a) (b : List Char) :
    (a ++ mark :: b).span (· ≠ mark) = (a, mark :: b) :=
  span_append (fun _ hc => decide_eq_true (ne_of_mem_of_not_mem hc h)) (by simp) b

def Blank (cs : List Char) : Prop := ∀ c ∈ cs, isBlank c = true

theorem Blank.not_mem {cs : List Char} (h : Blank cs) {c : Char} (hc : isBlank c = false) :
    c ∉ cs := fun hm => by
  rw [h c hm] at hc
  cases hc

/-- No blank at either end. -/
structure Trimmed (cs : List Char) : Prop where
  head : ∀ c, cs.head? = some c → isBlank c = false
  last : ∀ c, cs.getLast? = some c → isBlank c = false

theorem blank_nil : Blank [] := fun _ h => absurd h List.not_mem_nil

theorem Blank.append {cs ds : List Char} (h : Blank cs) (h' : Blank ds) : Blank (cs ++ ds) :=
  List.forall_mem_append.mpr ⟨h, h'⟩

theorem Blank.reverse {cs : List Char} (h : Blank cs) : Blank cs.reverse :=
  fun c hc => h c (List.mem_reverse.mp hc)

theorem trimmed_of_all {cs : List Char} (h : ∀ c ∈ cs, isBlank c = false) : Trimmed cs :=
  ⟨fun c hc => h c (List.mem_of_mem_head? hc), fun c hc => h c (List.mem_of_getLast? hc)⟩

theorem trimmed_singleton {c : Char} (h : isBlank c = false) : Trimmed [c] :=
  trimmed_of_all (List.forall_mem_singleton.mpr h)

theorem Trimmed.append {cs ds : List Char} (hcs : Trimmed cs) (hds : Trimmed ds) (hne : cs ≠ [])
    (hne' : ds ≠ []) (between : List Char) : Trimmed (cs ++ between ++ ds) := by
  obtain ⟨c, cs, rfl⟩ := List.exists_cons_of_ne_nil hne
  refine ⟨hcs.head, fun d hd => hds.last d ?_⟩
  rwa [List.getLast?_append_of_ne_nil _ hne'] at hd

theorem exists_trimStart (cs : List Char) : ∃ b, Blank b ∧ cs = b ++ trimStart cs :=
  ⟨cs.takeWhile isBlank, fun _ hc => List.mem_takeWhile_imp hc,
    List.takeWhile_append_dropWhile.symm⟩

theorem exists_trimEnd (cs : List Char) : ∃ b, Blank b ∧ cs = trimEnd cs ++ b := by
  obtain ⟨b, hb, h⟩ := exists_trimStart cs.reverse
  refine ⟨b.reverse, hb.reverse, ?_⟩
  have hr := congrArg List.reverse h
  rwa [List.reverse_reverse, List.reverse_append] at hr

theorem exists_trim (cs : List Char) :
    ∃ b b', Blank b ∧ Blank b' ∧ cs = b ++ trim cs ++ b' := by
  obtain ⟨b, hb, h⟩ := exists_trimStart cs
  obtain ⟨b', hb', h'⟩ := exists_trimEnd (trimStart cs)
  refine ⟨b, b', hb, hb', ?_⟩
  rw [trim, List.append_assoc, ← h', ← h]

theorem trimStart_append {b cs : List Char} (hb : Blank b)
    (hcs : ∀ c, cs.head? = some c → isBlank c = false) : trimStart (b ++ cs) = cs := by
  rw [trimStart, List.dropWhile_append_of_pos hb]
  cases cs with
  | nil => rfl
  | cons c cs => exact List.dropWhile_cons_of_neg (by simp [hcs c rfl])

theorem trimEnd_append {b cs : List Char} (hb : Blank b)
    (hcs : ∀ c, cs.getLast? = some c → isBlank c = false) : trimEnd (cs ++ b) = cs := by
  have h : trimStart (b.reverse ++ cs.reverse) = cs.reverse :=
    trimStart_append hb.reverse fun c hc => hcs c (by rwa [List.head?_reverse] at hc)
  rw [trimEnd, List.reverse_append]
  exact (congrArg List.reverse h).trans (List.reverse_reverse cs)

theorem trim_append {b b' cs : List Char} (hb : Blank b) (hb' : Blank b') (hcs : Trimmed cs) :
    trim (b ++ cs ++ b') = cs := by
  cases cs with
  | nil =>
    have hnil : trimStart (b ++ b') = [] := List.dropWhile_eq_nil_iff.mpr (hb.append hb')
    rw [trim, List.append_nil, hnil]
    rfl
  | cons c cs =>
    have hstart : trimStart (b ++ (c :: cs ++ b')) = c :: cs ++ b' := trimStart_append hb hcs.head
    rw [trim, List.append_assoc, hstart, trimEnd_append hb' hcs.last]

theorem head_trimStart {cs : List Char} {c : Char} (h : (trimStart cs).head? = some c) :
    isBlank c = false := by
  have hnot := List.head?_dropWhile_not isBlank cs
  rw [show (cs.dropWhile isBlank).head? = some c from h] at hnot
  exact hnot

theorem trimmed_trim (cs : List Char) : Trimmed (trim cs) := by
  constructor
  · intro c hc
    have hstart : (trimStart cs).head? = some c := by
      obtain ⟨b, -, h⟩ := exists_trimEnd (trimStart cs)
      rw [h, List.head?_append, show (trimEnd (trimStart cs)).head? = some c from hc]
      rfl
    exact head_trimStart hstart
  · intro c hc
    have hend : (trimStart (trimStart cs).reverse).head? = some c := by
      rw [← List.getLast?_reverse]
      exact hc
    exact head_trimStart hend

/-- A blank that does not end the line. -/
def isInline (c : Char) : Bool := isBlank c && c ≠ '\n'

def Inline (cs : List Char) : Prop := ∀ c ∈ cs, isInline c = true

theorem inline_of_blank {cs : List Char} (h : Blank cs) (hline : '\n' ∉ cs) : Inline cs := by
  intro c hc
  rw [isInline, h c hc, Bool.true_and]
  exact decide_eq_true (ne_of_mem_of_not_mem hc hline)

theorem Inline.blank {cs : List Char} (h : Inline cs) : Blank cs :=
  fun c hc => (Bool.and_eq_true_iff.mp (h c hc)).1

theorem Inline.newline {cs : List Char} (h : Inline cs) : '\n' ∉ cs :=
  fun hc => absurd (h _ hc) (by decide)

/-- The first character behind the blanks of the line. -/
def opening (cs : List Char) : Option Char := (cs.dropWhile isInline).head?

theorem opening_append {b : List Char} (hb : Inline b) (cs : List Char) :
    opening (b ++ cs) = opening cs := by
  rw [opening, List.dropWhile_append_of_pos hb, opening]

theorem opening_cons {c : Char} (hc : isInline c = false) (cs : List Char) :
    opening (c :: cs) = some c := by
  rw [opening, List.dropWhile_cons_of_neg (by simp [hc])]
  rfl

theorem inline_unique {b b' x y : List Char} {c c' : Char} (hb : Inline b) (hb' : Inline b')
    (hc : isInline c = false) (hc' : isInline c' = false) (h : b ++ c :: x = b' ++ c' :: y) :
    b = b' ∧ c = c' ∧ x = y := by
  obtain ⟨rfl, hrest⟩ := append_unique (P := fun d => isInline d = true) hb hb'
    (fun d hd => by simp [← Option.some.inj hd, hc])
    (fun d hd => by simp [← Option.some.inj hd, hc']) h
  rw [List.cons.injEq] at hrest
  exact ⟨rfl, hrest⟩

/-- Closing a line drops nothing but a carriage return at its end. -/
theorem exists_closeLine (line : List Char) :
    ∃ b, (b = [] ∨ b = ['\r']) ∧ line = closeLine line.reverse ++ b := by
  obtain ⟨rest, rfl⟩ : ∃ rest, line = rest.reverse := ⟨line.reverse, by simp⟩
  rw [List.reverse_reverse]
  unfold closeLine
  split
  · exact ⟨['\r'], .inr rfl, by simp⟩
  · exact ⟨[], .inl rfl, by simp⟩

theorem linesFrom_append {acc cs : List Char} (hcs : '\n' ∉ cs) (rest : List Char) :
    linesFrom acc (cs ++ '\n' :: rest) = closeLine (cs.reverse ++ acc) :: linesFrom [] rest := by
  induction cs generalizing acc with
  | nil => rfl
  | cons c cs ih =>
    rw [List.mem_cons, not_or] at hcs
    rw [List.cons_append, linesFrom, if_neg (Ne.symm hcs.1), ih hcs.2, List.reverse_cons,
      List.append_assoc, List.singleton_append]

theorem linesFrom_self {acc cs : List Char} (hcs : '\n' ∉ cs) (hne : acc ++ cs ≠ []) :
    linesFrom acc cs = [(cs.reverse ++ acc).reverse] := by
  induction cs generalizing acc with
  | nil =>
    have hacc : acc.isEmpty = false := by simpa using hne
    rw [linesFrom, hacc]
    rfl
  | cons c cs ih =>
    rw [List.mem_cons, not_or] at hcs
    rw [linesFrom, if_neg (Ne.symm hcs.1), ih hcs.2 (by simp), List.reverse_cons,
      List.append_assoc, List.singleton_append]

theorem lines_last {line : List Char} (h : '\n' ∉ line) (hne : line ≠ []) :
    lines line = [line] := by
  rw [lines, linesFrom_self h (by simpa using hne), List.append_nil, List.reverse_reverse]

theorem lines_append {line : List Char} (h : '\n' ∉ line) (rest : List Char) :
    lines (line ++ '\n' :: rest) = closeLine line.reverse :: lines rest := by
  rw [lines, linesFrom_append h, List.append_nil]
  rfl

theorem mem_of_mem_closeLine {acc : List Char} {c : Char} (h : c ∈ closeLine acc) : c ∈ acc := by
  obtain ⟨b, -, hclose⟩ := exists_closeLine acc.reverse
  rw [List.reverse_reverse] at hclose
  rw [← List.mem_reverse, hclose]
  exact List.mem_append_left b h

theorem newline_not_mem_linesFrom {acc cs line : List Char} (hacc : '\n' ∉ acc)
    (h : line ∈ linesFrom acc cs) : '\n' ∉ line := by
  induction cs generalizing acc with
  | nil =>
    rw [linesFrom] at h
    split at h
    · cases h
    · obtain rfl := List.mem_singleton.mp h
      simpa using hacc
  | cons c cs ih =>
    rw [linesFrom] at h
    split at h
    · obtain rfl | h := List.mem_cons.mp h
      · exact fun hline => hacc (mem_of_mem_closeLine hline)
      · exact ih List.not_mem_nil h
    · rename_i hc
      exact ih (by simp [Ne.symm hc, hacc]) h

theorem newline_not_mem_lines {cs line : List Char} (h : line ∈ lines cs) : '\n' ∉ line :=
  newline_not_mem_linesFrom List.not_mem_nil h

theorem mem_of_mem_linesFrom {acc cs line : List Char} (h : line ∈ linesFrom acc cs) {c : Char}
    (hc : c ∈ line) : c ∈ acc ∨ c ∈ cs := by
  induction cs generalizing acc with
  | nil =>
    rw [linesFrom] at h
    split at h
    · cases h
    · obtain rfl := List.mem_singleton.mp h
      exact .inl (List.mem_reverse.mp hc)
  | cons d cs ih =>
    rw [linesFrom] at h
    split at h
    · obtain rfl | h := List.mem_cons.mp h
      · exact .inl (mem_of_mem_closeLine hc)
      · exact .inr (List.mem_cons_of_mem d ((ih h).resolve_left List.not_mem_nil))
    · obtain hmem | hmem := ih h
      · obtain rfl | hmem := List.mem_cons.mp hmem
        · exact .inr List.mem_cons_self
        · exact .inl hmem
      · exact .inr (List.mem_cons_of_mem d hmem)

theorem mem_of_mem_lines {cs line : List Char} (h : line ∈ lines cs) {c : Char} (hc : c ∈ line) :
    c ∈ cs := (mem_of_mem_linesFrom h hc).resolve_left List.not_mem_nil

theorem closeLine_concat {c : Char} (hc : c ≠ '\r') (front : List Char) :
    closeLine (front ++ [c]).reverse = front ++ [c] := by
  rw [List.reverse_append, List.reverse_singleton, List.singleton_append]
  unfold closeLine
  split
  · next heq => exact absurd (List.cons.inj heq).1 hc
  · simp

/-- Lines that end in a character of their own are found again in their text. -/
theorem lines_intercalate {ls : List (List Char)}
    (h : ∀ line ∈ ls, '\n' ∉ line ∧ ∃ front c, c ≠ '\r' ∧ line = front ++ [c]) :
    lines (['\n'].intercalate ls) = ls := by
  induction ls with
  | nil => rfl
  | cons line ls ih =>
    obtain ⟨hline, front, c, hc, rfl⟩ := h line List.mem_cons_self
    cases ls with
    | nil =>
      rw [List.intercalate_singleton]
      exact lines_last hline (by simp)
    | cons line' ls =>
      rw [List.intercalate_cons_cons, List.append_assoc, List.singleton_append,
        lines_append hline, closeLine_concat hc, ih fun l hl => h l (List.mem_cons_of_mem _ hl)]

theorem exists_newline {cs : List Char} (h : '\n' ∈ cs) :
    ∃ line rest, '\n' ∉ line ∧ cs = line ++ '\n' :: rest := by
  obtain ⟨line, rest, hcs, hline⟩ := List.eq_append_cons_of_mem h
  exact ⟨line, rest, hline, hcs⟩

end CommandLink.Text
