import CommandLink.Text.Width
import Mathlib.Data.List.Basic

namespace CommandLink.Text

theorem utf8Len_append (a b : List Char) : utf8Len (a ++ b) = utf8Len a + utf8Len b := by
  induction a with
  | nil => exact (Nat.zero_add _).symm
  | cons c a ih => rw [List.cons_append, utf8Len, utf8Len, ih, Nat.add_assoc]

theorem utf8Len_eq_zero_iff {cs : List Char} : utf8Len cs = 0 ↔ cs = [] := by
  cases cs with
  | nil => simp [utf8Len]
  | cons c cs =>
    have hpos := c.utf8Size_pos
    simp [utf8Len]
    omega

theorem length_le_utf8Len (cs : List Char) : cs.length ≤ utf8Len cs := by
  induction cs with
  | nil => exact Nat.zero_le _
  | cons c cs ih =>
    have hpos := c.utf8Size_pos
    rw [List.length_cons, utf8Len]
    omega

theorem utf8Len_eq_length {cs : List Char} (h : ∀ c ∈ cs, c.utf8Size = 1) :
    utf8Len cs = cs.length := by
  induction cs with
  | nil => rfl
  | cons c cs ih =>
    rw [utf8Len, h c List.mem_cons_self, ih fun d hd => h d (List.mem_cons_of_mem c hd),
      List.length_cons, Nat.add_comm]

/-- A text can be cut only where one of its characters ends. -/
theorem takeUtf8?_eq_some_iff {n : Nat} {cs a : List Char} :
    takeUtf8? n cs = some a ↔ ∃ b, cs = a ++ b ∧ utf8Len a = n := by
  induction n, cs using takeUtf8?.induct generalizing a with
  | case1 cs =>
    rw [takeUtf8?, Option.some_inj]
    constructor
    · rintro rfl
      exact ⟨cs, rfl, rfl⟩
    · rintro ⟨b, -, hlen⟩
      exact (utf8Len_eq_zero_iff.mp hlen).symm
  | case2 n =>
    rw [takeUtf8?]
    constructor
    · intro h
      cases h
    · rintro ⟨b, hnil, hlen⟩
      obtain rfl := (List.append_eq_nil_iff.mp hnil.symm).1
      cases hlen
  | case3 n c cs hfits ih =>
    rw [takeUtf8?, if_pos hfits, Option.map_eq_some_iff]
    constructor
    · rintro ⟨a, ha, rfl⟩
      obtain ⟨b, rfl, hlen⟩ := ih.mp ha
      refine ⟨b, rfl, ?_⟩
      rw [utf8Len, hlen]
      exact Nat.add_sub_cancel' hfits
    · rintro ⟨b, hcs, hlen⟩
      cases a with
      | nil => cases hlen
      | cons d a =>
        obtain ⟨rfl, rfl⟩ := List.cons.inj hcs
        exact ⟨a, ih.mpr ⟨b, rfl, (Nat.sub_eq_of_eq_add' hlen.symm).symm⟩, rfl⟩
  | case4 n c cs hwide =>
    rw [takeUtf8?, if_neg hwide]
    constructor
    · intro h
      cases h
    · rintro ⟨b, hcs, hlen⟩
      cases a with
      | nil => cases hlen
      | cons d a =>
        obtain ⟨rfl, -⟩ := List.cons.inj hcs
        exact absurd (Nat.le_trans (Nat.le_add_right _ _) (Nat.le_of_eq hlen)) hwide

/-- The octets in front of the first mark. -/
def offset? (mark : Char) : List Char → Option Nat
  | [] => none
  | c :: cs => if c = mark then some 0 else (offset? mark cs).map (c.utf8Size + ·)

/-- The text between two offsets in octets, unless one of them lies outside of
the text or inside a character. -/
def slice? (i j : Nat) (cs : List Char) : Option (List Char) :=
  if i ≤ j then
    (takeUtf8? j cs).bind fun front =>
      (takeUtf8? i front).map fun skipped => front.drop skipped.length
  else none

/-- The text without its first octet and its last one. -/
def inner? (cs : List Char) : Option (List Char) :=
  match utf8Len cs with
  | 0 => none
  | n + 1 => slice? 1 n cs

theorem offset?_of_not_mem {mark : Char} {cs : List Char} (h : mark ∉ cs) :
    offset? mark cs = none := by
  induction cs with
  | nil => rfl
  | cons c cs ih =>
    rw [List.mem_cons, not_or] at h
    rw [offset?, if_neg (Ne.symm h.1), ih h.2]
    rfl

theorem offset?_append {mark : Char} {a : List Char} (h : mark ∉ a) (b : List Char) :
    offset? mark (a ++ mark :: b) = some (utf8Len a) := by
  induction a with
  | nil => exact if_pos rfl
  | cons c a ih =>
    rw [List.mem_cons, not_or] at h
    rw [List.cons_append, offset?, if_neg (Ne.symm h.1), ih h.2]
    rfl

theorem slice?_eq_some_iff {i j : Nat} {cs b : List Char} :
    slice? i j cs = some b ↔ ∃ a c, cs = a ++ b ++ c ∧ utf8Len a = i ∧ utf8Len (a ++ b) = j := by
  rw [slice?]
  constructor
  · intro h
    split at h
    · obtain ⟨front, hfront, h⟩ := Option.bind_eq_some_iff.mp h
      obtain ⟨a, ha, rfl⟩ := Option.map_eq_some_iff.mp h
      obtain ⟨c, rfl, hj⟩ := takeUtf8?_eq_some_iff.mp hfront
      obtain ⟨b, rfl, hi⟩ := takeUtf8?_eq_some_iff.mp ha
      refine ⟨a, c, ?_, hi, ?_⟩
      · rw [List.drop_left]
      · rwa [List.drop_left]
    · cases h
  · rintro ⟨a, c, rfl, rfl, rfl⟩
    have hfront : takeUtf8? (utf8Len (a ++ b)) (a ++ b ++ c) = some (a ++ b) :=
      takeUtf8?_eq_some_iff.mpr ⟨c, rfl, rfl⟩
    have hskipped : takeUtf8? (utf8Len a) (a ++ b) = some a :=
      takeUtf8?_eq_some_iff.mpr ⟨b, rfl, rfl⟩
    have hle : utf8Len a ≤ utf8Len (a ++ b) := by
      rw [utf8Len_append]
      exact Nat.le_add_right _ _
    rw [if_pos hle, hfront, Option.bind_some, hskipped, Option.map_some, List.drop_left]

theorem slice?_front (a b : List Char) : slice? 0 (utf8Len a) (a ++ b) = some a :=
  slice?_eq_some_iff.mpr ⟨[], b, rfl, rfl, rfl⟩

/-- Behind a mark of one octet the text goes on with a character. -/
theorem slice?_behind {mark : Char} (hmark : mark.utf8Size = 1) (a b : List Char) :
    slice? (utf8Len a + 1) (utf8Len (a ++ mark :: b)) (a ++ mark :: b) = some b := by
  have hfront : utf8Len (a ++ [mark]) = utf8Len a + 1 := by
    rw [utf8Len_append, utf8Len, hmark]
    rfl
  rw [slice?_eq_some_iff]
  exact ⟨a ++ [mark], [], by simp, hfront, by simp⟩

theorem inner?_eq {first last : Char} (hfirst : first.utf8Size = 1) (hlast : last.utf8Size = 1)
    (middle : List Char) : inner? (first :: middle ++ [last]) = some middle := by
  have hlen : utf8Len (first :: middle ++ [last]) = utf8Len (first :: middle) + 1 := by
    rw [utf8Len_append]
    exact congrArg _ hlast
  rw [inner?, hlen]
  exact slice?_eq_some_iff.mpr ⟨[first], [last], rfl, hfirst, rfl⟩

end CommandLink.Text
