import CommandLink.Proofs.LinkFile.Values
import Mathlib.Data.Nat.Digits.Defs

namespace CommandLink

theorem Coverage.ofName?_name (c : Coverage) : ofName? c.name.toList = some c := by
  cases c <;> decide

theorem Parity.ofName?_name (p : Parity) : ofName? p.name.toList = some p := by
  cases p <;> decide

theorem DataBits.ofCount?_count (d : DataBits) : ofCount? d.count = some d := by
  cases d <;> rfl

theorem StopBits.ofCount?_count (d : StopBits) : ofCount? d.count = some d := by
  cases d <;> rfl

namespace LinkFile

open Text

/-- Decimal digits with underscores anywhere among them, and perhaps a plus sign in
front. Without the underscores they are sixteen characters at most. -/
inductive Numeral : List Char → Nat → Prop
  | mk {cs sign ds : List Char} (hkept : cs.filter (· ≠ '_') = sign ++ ds)
      (hsign : sign = [] ∨ sign = ['+']) (hne : ds ≠ []) (hdigits : ∀ c ∈ ds, c.isDigit = true)
      (hlen : (sign ++ ds).length ≤ 16) :
      Numeral cs (Nat.ofDigits 10 (ds.map digitValue).reverse)

namespace Key

/-- The numbers that a key takes. -/
def takes : Key → Nat → Bool
  | .idleTimeout, n | .baudrate, n => n < 2 ^ 32
  | .dataBits, n => n ∈ [7, 8, 9]
  | .stopBits, n => n ∈ [1, 2]
  | .rxOverwrite, _ | .zeroSync, _ | .errorReplies, _ | .checksum, _ | .parity, _ => false

def isSwitch : Key → Bool
  | .rxOverwrite | .zeroSync | .errorReplies => true
  | .idleTimeout | .checksum | .baudrate | .dataBits | .parity | .stopBits => false

def words : Key → List String
  | .checksum => ["tag-and-payload", "payload-only"]
  | .parity => ["none", "even", "odd"]
  | .idleTimeout | .rxOverwrite | .zeroSync | .errorReplies | .baudrate | .dataBits
  | .stopBits => []

/-- What can be written for a value of a key. -/
inductive Spells (k : Key) : List Char → Value → Prop
  | number {cs : List Char} {n : Nat} (h : Numeral cs n) (hn : k.takes n = true) :
    Spells k cs (.integer n)
  | switch (hk : k.isSwitch = true) (b : Bool) : Spells k (toString b).toList (.boolean b)
  | word {w : String} (hw : w ∈ k.words) : Spells k w.toList (.text w.toList)
  | quoted {w : String} (hw : w ∈ k.words) : Spells k ('"' :: w.toList ++ ['"']) (.text w.toList)

end Key

theorem digitsValue_eq (ds : List Char) :
    digitsValue ds = Nat.ofDigits 10 (ds.map digitValue).reverse := by
  rw [Nat.ofDigits_eq_foldr, List.foldr_reverse, List.foldl_map, digitsValue]
  congr 1
  funext n c
  exact Nat.add_comm _ _

/-- A sign and digits take one octet each. -/
theorem utf8Len_numeral {sign ds : List Char} (hsign : sign = [] ∨ sign = ['+'])
    (hdigits : ∀ c ∈ ds, c.isDigit = true) : utf8Len (sign ++ ds) = (sign ++ ds).length := by
  refine utf8Len_eq_length (List.forall_mem_append.mpr ⟨?_, fun c hc => ?_⟩)
  · obtain rfl | rfl := hsign
    · exact fun c hc => absurd hc List.not_mem_nil
    · exact List.forall_mem_singleton.mpr rfl
  · exact utf8Size_of_digit (hdigits c hc)

theorem readNumber?_eq_some_iff {bound n : Nat} {cs : List Char} :
    readNumber? bound cs = some n ↔ Numeral cs n ∧ n < bound := by
  constructor
  · intro h
    obtain ⟨hbound, hlen, hdecimal⟩ := readNumber?_eq_some h
    obtain ⟨hne, hdigits, rfl⟩ := decimal?_eq_some hdecimal
    obtain ⟨sign, hsign, hkept⟩ : ∃ sign, (sign = [] ∨ sign = ['+']) ∧
        cs.filter (· ≠ '_') = sign ++ dropPlus (cs.filter (· ≠ '_')) := by
      obtain heq | heq := dropPlus_cases (cs.filter (· ≠ '_'))
      · exact ⟨[], .inl rfl, heq.symm⟩
      · exact ⟨['+'], .inr rfl, heq⟩
    rw [hkept, utf8Len_numeral hsign hdigits] at hlen
    rw [digitsValue_eq] at hbound ⊢
    exact ⟨.mk hkept hsign hne hdigits hlen, hbound⟩
  · rintro ⟨⟨hkept, hsign, hne, hdigits, hlen⟩, hbound⟩
    rename_i sign ds
    have hplus : dropPlus (sign ++ ds) = ds := by
      obtain rfl | rfl := hsign
      · exact dropPlus_of_digits hdigits
      · rfl
    have hfits : ¬16 < utf8Len (sign ++ ds) := by
      rw [utf8Len_numeral hsign hdigits]
      exact Nat.not_lt.mpr hlen
    rw [← digitsValue_eq] at hbound ⊢
    unfold readNumber?
    dsimp only
    rw [hkept, if_neg hfits, hplus, decimal?_of_digits hne hdigits, Option.filter_some, if_pos]
    exact decide_eq_true hbound

theorem readWord?_eq_some_iff {cs : List Char} {w : UInt32} :
    readWord? cs = some w ↔ Numeral cs w.toNat := by
  rw [readWord?, Option.map_eq_some_iff]
  constructor
  · rintro ⟨n, hn, rfl⟩
    obtain ⟨hnumeral, hbound⟩ := readNumber?_eq_some_iff.mp hn
    rwa [UInt32.toNat_ofNat_of_lt' hbound]
  · intro h
    exact ⟨w.toNat, readNumber?_eq_some_iff.mpr ⟨h, w.toNat_lt⟩, UInt32.ofNat_toNat⟩

theorem readBool?_toString (b : Bool) : readBool? (toString b).toList = some b := by
  cases b <;> decide

namespace Key

theorem takes_dataBits {n : Nat} : dataBits.takes n = true ↔ ∃ d : DataBits, d.count = n := by
  simp only [takes, decide_eq_true_eq, List.mem_cons, List.not_mem_nil, or_false]
  constructor
  · rintro (rfl | rfl | rfl)
    · exact ⟨.seven, rfl⟩
    · exact ⟨.eight, rfl⟩
    · exact ⟨.nine, rfl⟩
  · rintro ⟨d, rfl⟩
    cases d <;> decide

theorem takes_stopBits {n : Nat} : stopBits.takes n = true ↔ ∃ d : StopBits, d.count = n := by
  simp only [takes, decide_eq_true_eq, List.mem_cons, List.not_mem_nil, or_false]
  constructor
  · rintro (rfl | rfl)
    · exact ⟨.one, rfl⟩
    · exact ⟨.two, rfl⟩
  · rintro ⟨d, rfl⟩
    cases d <;> decide

theorem mem_words_checksum {w : String} : w ∈ checksum.words ↔ ∃ c : Coverage, c.name = w := by
  simp only [words, List.mem_cons, List.not_mem_nil, or_false]
  constructor
  · rintro (rfl | rfl)
    · exact ⟨.tagAndPayload, rfl⟩
    · exact ⟨.payloadOnly, rfl⟩
  · rintro ⟨c, rfl⟩
    cases c <;> decide

theorem mem_words_parity {w : String} : w ∈ parity.words ↔ ∃ p : Parity, p.name = w := by
  simp only [words, List.mem_cons, List.not_mem_nil, or_false]
  constructor
  · rintro (rfl | rfl | rfl)
    · exact ⟨.none, rfl⟩
    · exact ⟨.even, rfl⟩
    · exact ⟨.odd, rfl⟩
  · rintro ⟨p, rfl⟩
    cases p <;> decide

end Key

theorem Key.words_bare {k : Key} {w : String} (hw : w ∈ k.words) : w.toList ∈ names := by
  have hall : ∀ k ∈ Key.all, ∀ w ∈ k.words, w.toList ∈ names := by decide
  exact hall k (by cases k <;> decide) w hw

/-- A word stands for itself, with quotes or without. -/
theorem unquote_eq_iff {k : Key} {w : String} (hw : w ∈ k.words) {cs : List Char} :
    unquote cs = w.toList ↔ cs = w.toList ∨ cs = '"' :: w.toList ++ ['"'] := by
  constructor
  · intro h
    obtain heq | heq := unquote_cases cs
    · exact .inl (heq.symm.trans h)
    · exact .inr (h ▸ heq)
  · rintro (rfl | rfl)
    · obtain heq | heq := unquote_cases w.toList
      · exact heq
      · have hquote : '"' ∈ w.toList := heq ▸ List.mem_cons_self
        exact absurd rfl (plain_of_bare (names_spec (Key.words_bare hw)).2.1 _ hquote).1
    · exact unquote_quoted _

theorem spells_of_unquote {k : Key} {w : String} (hw : w ∈ k.words) {cs : List Char}
    (h : unquote cs = w.toList) : k.Spells cs (.text w.toList) := by
  obtain rfl | rfl := (unquote_eq_iff hw).mp h
  · exact .word hw
  · exact .quoted hw

/-- A setting is read only from what spells its value. -/
theorem spells_of_assign? {c c' : Configuration} {cs : List Char} {k : Key}
    (h : assign? c cs k = some c') : k.Spells cs (c'.value k) := by
  cases k with
  | idleTimeout | baudrate =>
    obtain ⟨w, hw, rfl⟩ := Option.map_eq_some_iff.mp h
    exact .number (readWord?_eq_some_iff.mp hw) (decide_eq_true w.toNat_lt)
  | rxOverwrite | zeroSync | errorReplies =>
    obtain ⟨b, hb, rfl⟩ := Option.map_eq_some_iff.mp h
    rw [readBool?_eq_some hb]
    exact .switch rfl b
  | checksum =>
    obtain ⟨coverage, hcoverage, rfl⟩ := Option.map_eq_some_iff.mp h
    exact spells_of_unquote (Key.mem_words_checksum.mpr ⟨coverage, rfl⟩)
      (coverage_of_name? hcoverage).1
  | parity =>
    obtain ⟨parity, hparity, rfl⟩ := Option.map_eq_some_iff.mp h
    exact spells_of_unquote (Key.mem_words_parity.mpr ⟨parity, rfl⟩) (parity_of_name? hparity).1
  | dataBits =>
    obtain ⟨d, hd, rfl⟩ := Option.map_eq_some_iff.mp h
    obtain ⟨n, hn, hcount⟩ := Option.bind_eq_some_iff.mp hd
    obtain rfl := count_of_dataBits? hcount
    exact .number (readNumber?_eq_some_iff.mp hn).1 (Key.takes_dataBits.mpr ⟨d, rfl⟩)
  | stopBits =>
    obtain ⟨d, hd, rfl⟩ := Option.map_eq_some_iff.mp h
    obtain ⟨n, hn, hcount⟩ := Option.bind_eq_some_iff.mp hd
    obtain rfl := count_of_stopBits? hcount
    exact .number (readNumber?_eq_some_iff.mp hn).1 (Key.takes_stopBits.mpr ⟨d, rfl⟩)

theorem assign?_of_numeral {cs : List Char} {n : Nat} (h : Numeral cs n) {k : Key}
    (hn : k.takes n = true) (c : Configuration) :
    ∃ c', assign? c cs k = some c' ∧ c'.value k = .integer n := by
  cases k with
  | idleTimeout | baudrate =>
    have hvalue : (UInt32.ofNat n).toNat = n := UInt32.toNat_ofNat_of_lt' (of_decide_eq_true hn)
    have hw := readWord?_eq_some_iff.mpr (hvalue.symm ▸ h)
    exact ⟨_, Option.map_eq_some_iff.mpr ⟨_, hw, rfl⟩, by rw [Configuration.value, hvalue]⟩
  | dataBits =>
    obtain ⟨d, rfl⟩ := Key.takes_dataBits.mp hn
    have hsmall : readSmall? cs = some d.count :=
      readNumber?_eq_some_iff.mpr ⟨h, by cases d <;> decide⟩
    exact ⟨_, by rw [assign?, hsmall, Option.bind_some, d.ofCount?_count]; rfl, rfl⟩
  | stopBits =>
    obtain ⟨d, rfl⟩ := Key.takes_stopBits.mp hn
    have hsmall : readSmall? cs = some d.count :=
      readNumber?_eq_some_iff.mpr ⟨h, by cases d <;> decide⟩
    exact ⟨_, by rw [assign?, hsmall, Option.bind_some, d.ofCount?_count]; rfl, rfl⟩
  | rxOverwrite | zeroSync | errorReplies | checksum | parity => cases hn

theorem assign?_of_unquote {cs : List Char} {k : Key} {w : String} (hw : w ∈ k.words)
    (h : unquote cs = w.toList) (c : Configuration) :
    ∃ c', assign? c cs k = some c' ∧ c'.value k = .text w.toList := by
  cases k with
  | checksum =>
    obtain ⟨coverage, rfl⟩ := Key.mem_words_checksum.mp hw
    exact ⟨_, by rw [assign?, h, coverage.ofName?_name]; rfl, rfl⟩
  | parity =>
    obtain ⟨parity, rfl⟩ := Key.mem_words_parity.mp hw
    exact ⟨_, by rw [assign?, h, parity.ofName?_name]; rfl, rfl⟩
  | idleTimeout | rxOverwrite | zeroSync | errorReplies | baudrate | dataBits | stopBits =>
    exact absurd hw List.not_mem_nil

/-- Whatever spells a value of a key sets it. -/
theorem assign?_of_spells {cs : List Char} {k : Key} {v : Value} (h : k.Spells cs v)
    (c : Configuration) : ∃ c', assign? c cs k = some c' ∧ c'.value k = v := by
  cases h with
  | number h hn => exact assign?_of_numeral h hn c
  | switch hk b =>
    cases k with
    | rxOverwrite | zeroSync | errorReplies =>
      exact ⟨_, by rw [assign?, readBool?_toString]; rfl, rfl⟩
    | idleTimeout | checksum | baudrate | dataBits | parity | stopBits => cases hk
  | word hw => exact assign?_of_unquote hw ((unquote_eq_iff hw).mpr (.inl rfl)) c
  | quoted hw => exact assign?_of_unquote hw ((unquote_eq_iff hw).mpr (.inr rfl)) c

end LinkFile

end CommandLink
