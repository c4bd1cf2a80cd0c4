import CommandLink.LinkFile.Report
import CommandLink.Proofs.Text.Lines
import CommandLink.Proofs.Text.Slices
import Mathlib.Data.List.Forall2

namespace CommandLink.LinkFile.Report

open Text

/-- What a row shows of a line. -/
inductive Shows (line : List Char) : List Char → Prop
  | whole (h : utf8Len line ≤ 64) : Shows line line
  | front {a b : List Char} (hline : line = a ++ b) (ha : utf8Len a = 61)
    (hlong : 64 < utf8Len line) : Shows line (a ++ "...".toList)

/-- A long line that has no character across the end of its first 61 octets. -/
def Severable (line : List Char) : Prop :=
  64 < utf8Len line → ∃ a b, line = a ++ b ∧ utf8Len a = 61

/-- A row of the box, with a line in it. -/
def Boxed (line boxed : List Char) : Prop := ∃ shown, Shows line shown ∧ row lineWidth shown = boxed

variable {line shown boxed message text : List Char} {rows : List (List Char)} {width : Nat}

theorem clip?_eq_some_iff : clip? line = some shown ↔ Shows line shown := by
  rw [clip?, lineWidth]
  by_cases hlong : 64 < utf8Len line
  · rw [if_pos hlong, Option.map_eq_some_iff]
    constructor
    · rintro ⟨a, ha, rfl⟩
      obtain ⟨b, hline, hlen⟩ := takeUtf8?_eq_some_iff.mp ha
      exact .front hline hlen hlong
    · intro h
      cases h with
      | whole hshort => exact absurd hlong (Nat.not_lt.mpr hshort)
      | front hline hlen => exact ⟨_, takeUtf8?_eq_some_iff.mpr ⟨_, hline, hlen⟩, rfl⟩
  · rw [if_neg hlong, Option.some_inj]
    constructor
    · rintro rfl
      exact .whole (Nat.not_lt.mp hlong)
    · intro h
      cases h with
      | whole => rfl
      | front _ _ hlong' => exact absurd hlong' hlong

theorem exists_shows_iff : (∃ shown, Shows line shown) ↔ Severable line := by
  constructor
  · rintro ⟨shown, h⟩ hlong
    cases h with
    | whole hshort => exact absurd hlong (Nat.not_lt.mpr hshort)
    | front hline hlen => exact ⟨_, _, hline, hlen⟩
  · intro h
    by_cases hlong : 64 < utf8Len line
    · obtain ⟨a, b, hline, hlen⟩ := h hlong
      exact ⟨_, .front hline hlen hlong⟩
    · exact ⟨line, .whole (Nat.not_lt.mp hlong)⟩

theorem Shows.length_le (h : Shows line shown) : shown.length ≤ lineWidth := by
  cases h with
  | whole hshort => exact Nat.le_trans (length_le_utf8Len line) hshort
  | @front a b hline hlen =>
    have hle := length_le_utf8Len a
    have hpoints : "...".toList.length = 3 := rfl
    rw [List.length_append, hpoints, lineWidth]
    omega

theorem Shows.newline (h : Shows line shown) (hline : '\n' ∉ line) : '\n' ∉ shown := by
  cases h with
  | whole => exact hline
  | @front a b hsplit =>
    rw [hsplit, List.mem_append, not_or] at hline
    have hpoints : '\n' ∉ "...".toList := by decide
    simp only [List.mem_append, hline.1, hpoints, or_self, not_false_eq_true]

theorem length_row {cs : List Char} (h : cs.length ≤ width) : (row width cs).length = width + 5 := by
  simp only [row, padRight, List.length_append, List.length_cons, List.length_replicate,
    List.length_nil]
  omega

theorem row_eq (width : Nat) (cs : List Char) : ∃ front, row width cs = front ++ ['║'] :=
  ⟨'║' :: ' ' :: ' ' :: padRight width cs ++ [' '], by simp [row]⟩

theorem newline_not_mem_row {cs : List Char} (h : '\n' ∉ cs) : '\n' ∉ row width cs := by
  simp [row, padRight, h]

theorem Boxed.row_of_lines (h : Boxed line boxed) (hline : '\n' ∉ line) :
    boxed.length = 69 ∧ '\n' ∉ boxed ∧ ∃ front c, c ≠ '\r' ∧ boxed = front ++ [c] := by
  obtain ⟨shown, hshown, rfl⟩ := h
  obtain ⟨front, hrow⟩ := row_eq lineWidth shown
  exact ⟨length_row hshown.length_le, newline_not_mem_row (hshown.newline hline), front, '║',
    by decide, hrow⟩

theorem exists_boxed_iff : (∃ boxed, Boxed line boxed) ↔ Severable line := by
  rw [← exists_shows_iff]
  constructor
  · rintro ⟨_, shown, hshown, -⟩
    exact ⟨shown, hshown⟩
  · rintro ⟨shown, hshown⟩
    exact ⟨_, shown, hshown, rfl⟩

section

variable {α β : Type} {f : α → Option β} {R : α → β → Prop} {xs : List α} {ys : List β}

theorem mapM_eq_some_iff :
    xs.mapM f = some ys ↔ List.Forall₂ (fun x y => f x = some y) xs ys := by
  induction xs generalizing ys with
  | nil => simp [eq_comm]
  | cons x xs ih =>
    rw [List.mapM_cons, Option.bind_eq_bind, Option.bind_eq_some_iff, List.forall₂_cons_left_iff]
    constructor
    · rintro ⟨y, hy, hrest⟩
      obtain ⟨ys', hys', heq⟩ := Option.bind_eq_some_iff.mp hrest
      exact ⟨y, ys', hy, ih.mp hys', (Option.some.inj heq).symm⟩
    · rintro ⟨y, ys', hy, hys', rfl⟩
      exact ⟨y, hy, Option.bind_eq_some_iff.mpr ⟨ys', ih.mpr hys', rfl⟩⟩

theorem exists_forall₂_iff : (∃ ys, List.Forall₂ R xs ys) ↔ ∀ x ∈ xs, ∃ y, R x y := by
  induction xs with
  | nil => simp
  | cons x xs ih =>
    rw [List.forall_mem_cons, ← ih]
    constructor
    · rintro ⟨_, h⟩
      obtain ⟨y, ys, hy, hys, -⟩ := List.forall₂_cons_left_iff.mp h
      exact ⟨⟨y, hy⟩, ys, hys⟩
    · rintro ⟨⟨y, hy⟩, ys, hys⟩
      exact ⟨y :: ys, .cons hy hys⟩

theorem exists_mem_left {y : β} (h : List.Forall₂ R xs ys) (hy : y ∈ ys) : ∃ x ∈ xs, R x y := by
  induction h with
  | nil => cases hy
  | cons hr _ ih =>
    obtain rfl | hy := List.mem_cons.mp hy
    · exact ⟨_, List.mem_cons_self, hr⟩
    · obtain ⟨x, hx, hxy⟩ := ih hy
      exact ⟨x, List.mem_cons_of_mem _ hx, hxy⟩

end

theorem messageRows?_eq_some_iff :
    messageRows? message = some rows ↔ List.Forall₂ Boxed (lines message) rows := by
  have hrow (line boxed : List Char) :
      (clip? line).map (row lineWidth) = some boxed ↔ Boxed line boxed := by
    rw [Option.map_eq_some_iff, Boxed]
    simp only [clip?_eq_some_iff]
  rw [messageRows?, mapM_eq_some_iff]
  simp only [hrow]

theorem errorLines?_eq_some_iff :
    errorLines? message = some text ↔
      ∃ rows, List.Forall₂ Boxed (lines message) rows ∧ joinLines rows = text := by
  rw [errorLines?, Option.map_eq_some_iff]
  simp only [messageRows?_eq_some_iff]

theorem row_of_message (h : List.Forall₂ Boxed (lines message) rows) (hboxed : boxed ∈ rows) :
    boxed.length = 69 ∧ '\n' ∉ boxed ∧ ∃ front c, c ≠ '\r' ∧ boxed = front ++ [c] := by
  obtain ⟨line, hline, hrow⟩ := exists_mem_left h hboxed
  exact hrow.row_of_lines (newline_not_mem_lines hline)

theorem exists_errorLines?_iff :
    (∃ text, errorLines? message = some text) ↔ ∀ line ∈ lines message, Severable line := by
  have hrows : (∃ rows, List.Forall₂ Boxed (lines message) rows) ↔
      ∀ line ∈ lines message, ∃ boxed, Boxed line boxed := exists_forall₂_iff
  simp only [exists_boxed_iff] at hrows
  rw [← hrows]
  constructor
  · rintro ⟨text, htext⟩
    obtain ⟨rows, h, -⟩ := errorLines?_eq_some_iff.mp htext
    exact ⟨rows, h⟩
  · rintro ⟨rows, h⟩
    exact ⟨joinLines rows, errorLines?_eq_some_iff.mpr ⟨rows, h, rfl⟩⟩

/-- Where every character has one octet, a message is reported. -/
theorem exists_errorLines?_of_narrow (h : ∀ c ∈ message, c.utf8Size = 1) :
    ∃ text, errorLines? message = some text := by
  apply exists_errorLines?_iff.mpr
  intro line hline hlong
  have hnarrow : ∀ c ∈ line, c.utf8Size = 1 := fun c hc => h c (mem_of_mem_lines hline hc)
  rw [utf8Len_eq_length hnarrow] at hlong
  refine ⟨line.take 61, line.drop 61, (List.take_append_drop 61 line).symm, ?_⟩
  rw [utf8Len_eq_length fun c hc => hnarrow c (List.mem_of_mem_take hc), List.length_take]
  omega

/-- A message is reported exactly if each of its long lines can be cut behind 61 octets.
Its report has one row for each line, all of one length. -/
theorem reported_iff (message : List Char) :
    ((∃ text, errorLines? message = some text) ↔ ∀ line ∈ lines message, Severable line) ∧
      ∀ text, errorLines? message = some text ↔
        ∃ rows, List.Forall₂ Boxed (lines message) rows ∧ joinLines rows = text ∧
          lines text = rows ∧ ∀ boxed ∈ rows, boxed.length = 69 := by
  refine ⟨exists_errorLines?_iff, fun text => ?_⟩
  rw [errorLines?_eq_some_iff]
  constructor
  · rintro ⟨rows, h, rfl⟩
    refine ⟨rows, h, rfl, ?_, fun boxed hboxed => (row_of_message h hboxed).1⟩
    exact lines_intercalate fun boxed hboxed => (row_of_message h hboxed).2
  · rintro ⟨rows, h, htext, -, -⟩
    exact ⟨rows, h, htext⟩

/-- A letter of two octets that ends with the 61st. -/
theorem reported_iff_accent :
    let long := List.replicate 59 'a' ++ "éaaaa".toList
    let message := long ++ "\r\nb".toList
    lines message = [long, ['b']] ∧ utf8Len long = 65 ∧ Severable long ∧ Severable ['b'] ∧
      ∃ text, errorLines? message = some text ∧ (lines text).length = 2 ∧
        ∀ boxed ∈ lines text, boxed.length = 69 := by
  intro long message
  have hlines : lines message = [long, ['b']] := by decide
  have hlong : Severable long := fun _ =>
    ⟨List.replicate 59 'a' ++ ['é'], "aaaa".toList, by decide, by decide⟩
  have hshort : Severable ['b'] := fun h => absurd h (by decide)
  obtain ⟨hreported, hrows⟩ := reported_iff message
  rw [hlines, List.forall_mem_cons, List.forall_mem_singleton] at hreported
  obtain ⟨text, htext⟩ := hreported.mpr ⟨hlong, hshort⟩
  obtain ⟨rows, hboxed, -, hfound, hlength⟩ := (hrows text).mp htext
  rw [hlines] at hboxed
  refine ⟨hlines, by decide, hlong, hshort, text, htext, ?_, ?_⟩
  · rw [hfound]
    exact hboxed.length_eq.symm
  · rwa [hfound]

/-- A letter of two octets that begins with the 61st. -/
theorem unreported_accent :
    let message := List.replicate 60 'a' ++ "éaaa".toList
    lines message = [message] ∧ utf8Len message = 65 ∧ errorLines? message = none := by
  decide

end CommandLink.LinkFile.Report
