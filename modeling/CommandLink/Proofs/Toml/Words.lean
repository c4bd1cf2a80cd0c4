import CommandLink.Proofs.Text.Lines
import CommandLink.Proofs.Toml.Grammar
import Mathlib.Data.Bool.AllAny
import Mathlib.Data.List.TakeDrop

namespace CommandLink.Toml

open LinkFile Document Text

/-- The characters of words without the space in a date and time. -/
def isTight (c : Char) : Bool := isBare c || c = '+' || c = '.' || c = ':'

theorem bare_of_part {c : Char} (h : isDigitPart c = true) : isBare c = true := by
  rw [isDigitPart, Bool.or_eq_true, decide_eq_true_eq] at h
  obtain h | rfl := h
  · simp [isBare, Char.isAlphanum, h]
  · decide

theorem tight_of_part {c : Char} (h : isDigitPart c = true) : isTight c = true := by
  simp [isTight, bare_of_part h]

theorem tight_of_digit {c : Char} (h : c.isDigit = true) : isTight c = true :=
  tight_of_part (by simp [isDigitPart, h])

/-- What may stand behind a value, if anything does. -/
def Stop (cs : List Char) : Prop := ∀ c, cs.head? = some c → isBlank c = true ∨ c = '#'

theorem not_tight_of_stop {cs : List Char} (h : Stop cs) (c : Char) (hc : cs.head? = some c) :
    ¬isTight c = true := by
  have hall : ∀ d ∈ '#' :: blanks, ¬isTight d = true := List.all_iff_forall_prop.mp (by decide)
  apply hall
  obtain hb | rfl := h c hc
  · exact List.mem_cons_of_mem _ (List.contains_iff_mem.mp hb)
  · exact List.mem_cons_self

theorem not_blank_of_tight {c : Char} (h : isTight c = true) : isBlank c = false := by
  by_contra hb
  have hstop : Stop [c] := by
    intro d hd
    obtain rfl := Option.some.inj hd
    exact .inl (Bool.not_eq_false _ ▸ hb)
  exact not_tight_of_stop hstop c rfl h

/-- Digits and underscores, a digit first. -/
structure Run (cs : List Char) : Prop where
  all : ∀ c ∈ cs, isDigitPart c = true
  head : ∃ c rest, cs = c :: rest ∧ c.isDigit = true

theorem Run.tight {cs : List Char} (h : Run cs) : ∀ c ∈ cs, isTight c = true :=
  fun c hc => tight_of_part (h.all c hc)

theorem spaced_all {last : Bool} {cs : List Char} (h : digits?.spaced last cs = true) :
    ∀ c ∈ cs, isDigitPart c = true := by
  fun_induction digits?.spaced last cs with
  | case1 => exact fun _ hc => absurd hc List.not_mem_nil
  | case2 last rest ih =>
    rw [Bool.and_eq_true] at h
    exact List.forall_mem_cons.mpr ⟨by decide, ih h.2⟩
  | case3 last c rest hc ih =>
    rw [Bool.and_eq_true] at h
    exact List.forall_mem_cons.mpr ⟨by simp [isDigitPart, h.1], ih h.2⟩

theorem spaced_head {cs : List Char} (h : digits?.spaced false cs = true) :
    ∃ c rest, cs = c :: rest ∧ c.isDigit = true := by
  fun_cases digits?.spaced false cs with
  | case1 => cases h
  | case2 => cases h
  | case3 last c rest hc =>
    rw [digits?.spaced, Bool.and_eq_true] at h
    · exact ⟨c, rest, rfl, h.1⟩
    · exact hc

theorem digits?_eq_some {cs ds : List Char} (h : digits? cs = some ds) :
    Run cs ∧ ds = cs.filter (· ≠ '_') := by
  unfold digits? at h
  split at h
  · rename_i hspaced
    exact ⟨⟨spaced_all hspaced, spaced_head hspaced⟩, (Option.some.inj h).symm⟩
  · cases h

theorem natural?_eq_some {cs ds : List Char} (h : natural? cs = some ds) :
    digits? cs = some ds ∧ ∀ c rest, cs ≠ '0' :: c :: rest := by
  unfold natural? at h
  split at h
  · cases h
  · rename_i hzero
    exact ⟨h, fun c rest => hzero c rest⟩

theorem run_of_natural? {cs ds : List Char} (h : natural? cs = some ds) : Run cs :=
  (digits?_eq_some (natural?_eq_some h).1).1

theorem splitSign_cases (cs : List Char) :
    splitSign cs = (false, cs) ∨
      ∃ c rest, c ∈ ['+', '-'] ∧ cs = c :: rest ∧ splitSign cs = (decide (c = '-'), rest) := by
  unfold splitSign
  split
  · exact .inr ⟨'-', _, by decide, rfl, rfl⟩
  · exact .inr ⟨'+', _, by decide, rfl, rfl⟩
  · exact .inl rfl

theorem mem_of_splitSign {cs : List Char} {c : Char} (h : c ∈ (splitSign cs).2) : c ∈ cs := by
  obtain hs | ⟨sign, rest, -, rfl, hs⟩ := splitSign_cases cs
  · rwa [hs] at h
  · rw [hs] at h
    exact List.mem_cons_of_mem _ h

/-- A sign does not matter for the characters of a word. -/
theorem tight_of_splitSign {cs : List Char} (h : ∀ c ∈ (splitSign cs).2, isTight c = true) :
    ∀ c ∈ cs, isTight c = true := by
  obtain hs | ⟨sign, rest, hsign, rfl, hs⟩ := splitSign_cases cs
  · rwa [hs] at h
  · have hall : ∀ d ∈ ['+', '-'], isTight d = true := List.all_iff_forall_prop.mp (by decide)
    rw [hs] at h
    exact List.forall_mem_cons.mpr ⟨hall sign hsign, h⟩

theorem integer?_eq_some {cs : List Char} {i : Int} (h : Document.integer? cs = some i) :
    ∃ ds, natural? (splitSign cs).2 = some ds ∧ i = signed (splitSign cs).1 ds := by
  rw [Document.integer?, Option.filter_eq_some_iff, Option.map_eq_some_iff] at h
  obtain ⟨⟨ds, hds, rfl⟩, -⟩ := h
  exact ⟨ds, hds, rfl⟩

theorem run_of_integer? {cs : List Char} {i : Int} (h : Document.integer? cs = some i) :
    Run (splitSign cs).2 := by
  obtain ⟨ds, hds, -⟩ := integer?_eq_some h
  exact run_of_natural? hds

theorem exponent?_isSome {cs : List Char} (h : (exponent? cs).isSome = true) :
    cs = [] ∨ ∃ e rest, cs = e :: rest ∧ e ∈ ['e', 'E'] ∧ ∀ c ∈ rest, isTight c = true := by
  unfold exponent? at h
  split at h
  · exact .inl rfl
  · rename_i e cs
    split at h
    rename_i negative digits hsplit
    split at h
    · rename_i he
      rw [Option.isSome_map] at h
      obtain ⟨ds, hds⟩ := Option.isSome_iff_exists.mp h
      refine .inr ⟨e, cs, rfl, by simpa using he, tight_of_splitSign ?_⟩
      rw [hsplit]
      exact (digits?_eq_some hds).1.tight
    · cases h

theorem exponent?_tight {cs : List Char} (h : (exponent? cs).isSome = true) :
    ∀ c ∈ cs, isTight c = true := by
  obtain rfl | ⟨e, rest, rfl, he, hrest⟩ := exponent?_isSome h
  · exact fun _ hc => absurd hc List.not_mem_nil
  · have hmark : ∀ e ∈ ['e', 'E'], isTight e = true := List.all_iff_forall_prop.mp (by decide)
    exact List.forall_mem_cons.mpr ⟨hmark e he, hrest⟩

/-- A literal with a fraction or an exponent. -/
theorem decimal?_isSome {cs : List Char} (h : (Document.decimal? cs).isSome = true) :
    ∃ whole mark rest, cs = whole ++ mark :: rest ∧ Run whole ∧ mark ∈ ['.', 'e', 'E'] ∧
      ∀ c ∈ rest, isTight c = true := by
  have hcs : cs = cs.takeWhile isDigitPart ++ cs.dropWhile isDigitPart :=
    List.takeWhile_append_dropWhile.symm
  rw [Document.decimal?, List.span_eq_takeWhile_dropWhile] at h
  generalize cs.takeWhile isDigitPart = whole at hcs h
  generalize cs.dropWhile isDigitPart = rest at hcs h
  subst hcs
  dsimp only at h
  split at h
  · cases h
  · rename_i rest
    have hrest : rest = rest.takeWhile isDigitPart ++ rest.dropWhile isDigitPart :=
      List.takeWhile_append_dropWhile.symm
    simp only [List.span_eq_takeWhile_dropWhile, Option.isSome_bind, Option.any_eq_true,
      Option.isSome_map] at h
    obtain ⟨w, hw, f, hf, he⟩ := h
    refine ⟨whole, '.', rest, rfl, run_of_natural? hw, by decide, ?_⟩
    rw [hrest]
    exact List.forall_mem_append.mpr ⟨(digits?_eq_some hf).1.tight, exponent?_tight he⟩
  · rename_i hne hmark
    simp only [Option.isSome_bind, Option.any_eq_true, Option.isSome_map] at h
    obtain ⟨w, hw, he⟩ := h
    obtain rfl | ⟨e, rest, rfl, he, hrest⟩ := exponent?_isSome he
    · exact absurd rfl hne
    · exact ⟨whole, e, rest, rfl, run_of_natural? hw,
        List.mem_cons_of_mem _ he, hrest⟩

theorem numeral?_digits {base n : Nat} {cs : List Char} (h : numeral? base cs = some n) :
    ∀ c ∈ cs, (digit? c).isSome = true := by
  rw [numeral?] at h
  generalize 0 = start at h
  induction cs generalizing start with
  | nil => exact fun _ hc => absurd hc List.not_mem_nil
  | cons c cs ih =>
    rw [List.foldlM_cons, Option.bind_eq_bind, Option.bind_eq_some_iff] at h
    obtain ⟨m, hm, h⟩ := h
    rw [Option.map_eq_some_iff] at hm
    obtain ⟨d, hd, -⟩ := hm
    rw [Option.filter_eq_some_iff] at hd
    exact List.forall_mem_cons.mpr ⟨Option.isSome_of_eq_some hd.1, ih m h⟩

theorem tight_of_digit? {c : Char} (h : (digit? c).isSome = true) : isTight c = true := by
  unfold digit? at h
  split at h
  · exact tight_of_digit ‹_›
  · have hletter : c.isAlpha = true := by
      split at h
      · rename_i hc
        have h1 : 'a'.val ≤ c.val := hc.1
        have h2 : c.val ≤ 'f'.val := hc.2
        have hlower : c.isLower = true := Bool.and_eq_true_iff.mpr
          ⟨decide_eq_true h1, decide_eq_true (Nat.le_trans h2 (by decide))⟩
        exact Bool.or_eq_true_iff.mpr (.inr hlower)
      · split at h
        · rename_i hc
          have h1 : 'A'.val ≤ c.val := hc.1
          have h2 : c.val ≤ 'F'.val := hc.2
          have hupper : c.isUpper = true :=
            decide_eq_true ⟨h1, Nat.le_trans h2 (by decide)⟩
          exact Bool.or_eq_true_iff.mpr (.inl hupper)
        · cases h
    simp [isTight, isBare, Char.isAlphanum, hletter]

theorem Digits.tight {k : Nat} {cs : List Char} (h : Digits k cs) : ∀ c ∈ cs, isTight c = true :=
  fun c hc => tight_of_digit (h.2 c hc)

theorem Digits.head {k : Nat} {cs : List Char} (h : Digits (k + 1) cs) :
    ∃ c rest, cs = c :: rest ∧ c.isDigit = true := by
  match cs, h with
  | [], h => cases h.1
  | c :: rest, h => exact ⟨c, rest, rfl, h.2 c List.mem_cons_self⟩

theorem Date.tight {cs : List Char} (h : Date cs) : ∀ c ∈ cs, isTight c = true := by
  obtain ⟨hy, hm, hd⟩ := h
  have hdash : isTight '-' = true := by decide
  simp only [List.forall_mem_append, List.forall_mem_cons]
  exact ⟨⟨hy.tight, hdash, hm.tight⟩, hdash, hd.tight⟩

theorem Time.tight {cs : List Char} (h : Time cs) : ∀ c ∈ cs, isTight c = true := by
  have hcolon : isTight ':' = true := by decide
  have hpoint : isTight '.' = true := by decide
  cases h with
  | whole hh hm hs =>
    simp only [List.forall_mem_append, List.forall_mem_cons]
    exact ⟨⟨hh.tight, hcolon, hm.tight⟩, hcolon, hs.tight⟩
  | split hh hm hs hf =>
    simp only [List.forall_mem_append, List.forall_mem_cons]
    exact ⟨⟨⟨hh.tight, hcolon, hm.tight⟩, hcolon, hs.tight⟩, hpoint, hf.tight⟩

theorem Zone.tight {cs : List Char} (h : Zone cs) : ∀ c ∈ cs, isTight c = true := by
  cases h with
  | none => exact fun _ hc => absurd hc List.not_mem_nil
  | utc hc =>
    have hall : ∀ c ∈ ['Z', 'z'], isTight c = true := List.all_iff_forall_prop.mp (by decide)
    exact List.forall_mem_singleton.mpr (hall _ hc)
  | shifted hc hh hm =>
    have hall : ∀ c ∈ ['+', '-'], isTight c = true := List.all_iff_forall_prop.mp (by decide)
    simp only [List.forall_mem_append, List.forall_mem_cons]
    exact ⟨⟨hall _ hc, hh.tight⟩, by decide, hm.tight⟩

/-- Only a date and time may have a space inside, behind the date. -/
theorem Word.tight {cs : List Char} {v : Value} (h : Word cs v) :
    (∀ c ∈ cs, isTight c = true) ∨ ∃ d rest, Date d ∧ cs = d ++ ' ' :: rest := by
  cases h with
  | boolean b => exact .inl (List.all_eq_true.mp (by cases b <;> decide))
  | integer h => exact .inl (tight_of_splitSign (run_of_integer? h).tight)
  | @based mark base n cs h hcs hn =>
    have hmark : ∀ m ∈ [('x', 16), ('o', 8), ('b', 2)], isTight m.1 = true := by decide
    refine .inl (List.forall_mem_cons.mpr
      ⟨by decide, List.forall_mem_cons.mpr ⟨hmark (mark, base) h, fun c hc => ?_⟩⟩)
    by_cases hline : c = '_'
    · rw [hline]
      decide
    · exact tight_of_digit? (numeral?_digits hn c (List.mem_filter.mpr ⟨hc, by simpa using hline⟩))
  | float h =>
    obtain ⟨whole, mark, rest, hcs, hwhole, hmark, hrest⟩ := decimal?_isSome h
    have hall : ∀ m ∈ ['.', 'e', 'E'], isTight m = true := List.all_iff_forall_prop.mp (by decide)
    refine .inl (tight_of_splitSign ?_)
    rw [hcs]
    exact List.forall_mem_append.mpr
      ⟨hwhole.tight, List.forall_mem_cons.mpr ⟨hall mark hmark, hrest⟩⟩
  | special h =>
    have hall : ∀ w ∈ ["inf".toList, "nan".toList], w.all isTight = true := by decide
    exact .inl (tight_of_splitSign (List.all_eq_true.mp (hall _ h)))
  | date h => exact .inl h.tight
  | time h => exact .inl h.tight
  | @dateTime c d t z hd hc ht hz =>
    by_cases hspace : c = ' '
    · rw [hspace]
      exact .inr ⟨d, t ++ z, hd, by simp⟩
    · have hall : ∀ c ∈ ['T', 't', ' '], c ≠ ' ' → isTight c = true :=
        List.all_iff_forall_prop.mp (by decide)
      simp only [List.forall_mem_append, List.forall_mem_cons]
      exact .inl ⟨⟨hd.tight, hall c hc hspace, ht.tight⟩, hz.tight⟩

/-- How a number begins. -/
def Leads (cs : List Char) : Prop := ∃ c rest, cs = c :: rest ∧ (c.isDigit = true ∨ c ∈ ['+', '-'])

theorem Leads.append {cs : List Char} (h : Leads cs) (ds : List Char) : Leads (cs ++ ds) := by
  obtain ⟨c, rest, rfl, hc⟩ := h
  exact ⟨c, rest ++ ds, rfl, hc⟩

theorem leads_of_digit {cs : List Char} (h : ∃ c rest, cs = c :: rest ∧ c.isDigit = true) :
    Leads cs := by
  obtain ⟨c, rest, rfl, hc⟩ := h
  exact ⟨c, rest, rfl, .inl hc⟩

theorem leads_of_splitSign {cs : List Char} (h : Leads (splitSign cs).2) : Leads cs := by
  obtain hs | ⟨sign, rest, hsign, rfl, -⟩ := splitSign_cases cs
  · rwa [hs] at h
  · exact ⟨sign, rest, rfl, .inr hsign⟩

theorem leads_of_integer? {cs : List Char} {i : Int} (h : Document.integer? cs = some i) :
    Leads cs :=
  leads_of_splitSign (leads_of_digit (run_of_integer? h).head)

theorem Date.head {cs : List Char} (h : Date cs) :
    ∃ c rest, cs = c :: rest ∧ c.isDigit = true := by
  obtain ⟨hy, -, -⟩ := h
  obtain ⟨c, rest, rfl, hc⟩ := hy.head
  exact ⟨c, _, rfl, hc⟩

theorem Date.dash {cs : List Char} (h : Date cs) : '-' ∈ cs := by
  obtain ⟨-, -, -⟩ := h
  simp

theorem Time.leads {cs : List Char} (h : Time cs) : Leads cs := by
  cases h with
  | whole hh hm hs => exact ((leads_of_digit hh.head).append _).append _
  | split hh hm hs hf => exact (((leads_of_digit hh.head).append _).append _).append _

/-- Words that begin with a letter. -/
theorem Word.head {cs : List Char} {v : Value} (h : Word cs v) :
    (∃ b, cs = (toString b).toList ∧ v = .boolean b) ∨ cs ∈ ["inf".toList, "nan".toList] ∨
      Leads cs := by
  cases h with
  | boolean b => exact .inl ⟨b, rfl, rfl⟩
  | integer h => exact .inr (.inr (leads_of_integer? h))
  | based => exact .inr (.inr ⟨'0', _, rfl, .inl (by decide)⟩)
  | float h =>
    obtain ⟨whole, mark, rest, hcs, hwhole, -, -⟩ := decimal?_isSome h
    refine .inr (.inr (leads_of_splitSign ?_))
    rw [hcs]
    exact (leads_of_digit hwhole.head).append _
  | special h =>
    obtain hs | ⟨sign, rest, hsign, rfl, -⟩ := splitSign_cases cs
    · rw [hs] at h
      exact .inr (.inl h)
    · exact .inr (.inr ⟨sign, rest, rfl, .inr hsign⟩)
  | date h => exact .inr (.inr (leads_of_digit h.head))
  | time h => exact .inr (.inr h.leads)
  | dateTime hd => exact .inr (.inr (((leads_of_digit hd.head).append _).append _))

/-- Digits, underscores and a plus sign make an integer or nothing. -/
theorem Word.integer_of_digits {cs : List Char} {v : Value} (h : Word cs v)
    (hcs : ∀ c ∈ cs, isDigitPart c = true ∨ c = '+') :
    ∃ i, Document.integer? cs = some i ∧ v = .integer i := by
  have hno {c : Char} (hpart : isDigitPart c = false) (hplus : c ≠ '+') : c ∉ cs := by
    intro hc
    obtain hp | hp := hcs c hc
    · rw [hpart] at hp
      cases hp
    · exact hplus hp
  cases h with
  | boolean b => exact absurd (by cases b <;> decide) (hno (c := 'e') (by decide) (by decide))
  | integer h => exact ⟨_, h, rfl⟩
  | @based mark base n cs h =>
    have hmark : ∀ m ∈ [('x', 16), ('o', 8), ('b', 2)], isDigitPart m.1 = false ∧ m.1 ≠ '+' := by
      decide
    have hx := hmark (mark, base) h
    exact absurd (by simp) (hno hx.1 hx.2)
  | float h =>
    obtain ⟨whole, mark, rest, hsplit, -, hmark, -⟩ := decimal?_isSome h
    have hall : ∀ m ∈ ['.', 'e', 'E'], isDigitPart m = false ∧ m ≠ '+' :=
      List.all_iff_forall_prop.mp (by decide)
    have hin : mark ∈ cs := mem_of_splitSign (by simp [hsplit])
    exact absurd hin (hno (hall mark hmark).1 (hall mark hmark).2)
  | special h =>
    have hall : ∀ w ∈ ["inf".toList, "nan".toList], 'n' ∈ w := by decide
    exact absurd (mem_of_splitSign (hall _ h)) (hno (by decide) (by decide))
  | date h => exact absurd h.dash (hno (by decide) (by decide))
  | time h => cases h <;> exact absurd (by simp) (hno (c := ':') (by decide) (by decide))
  | dateTime hd => exact absurd (by simp [hd.dash]) (hno (c := '-') (by decide) (by decide))

end CommandLink.Toml
