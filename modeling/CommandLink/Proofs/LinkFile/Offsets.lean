import CommandLink.Proofs.LinkFile.Values
import CommandLink.Proofs.LinkFile.Forms
import CommandLink.Proofs.Text.Slices

namespace CommandLink.LinkFile

open Text

/-! The reader once more, over offsets in octets at which it cuts its lines. A cut
outside of a line or inside a character has no answer. -/

def dropCommentInside? (value : List Char) : Option (List Char) :=
  match offset? '#' value with
  | none => some value
  | some i =>
    (slice? 0 i value).map fun before =>
      if before.count '"' % 2 = 0 then trim before else value

def assignmentInside? (line : List Char) : Option Entry :=
  match offset? '=' line with
  | none => some .malformed
  | some i =>
    (slice? 0 i line).bind fun before =>
      (slice? (i + 1) (utf8Len line) line).bind fun after =>
        (dropCommentInside? (trim after)).map fun value =>
          if (trim before).isEmpty || value.isEmpty then .malformed
          else .assignment (trim before) value

namespace Entry

def ofTrimmedInside? (line : List Char) : Option Entry :=
  if line = [] ∨ line.head? = some '#' then some .blank
  else if line.head? = some '[' ∧ line.getLast? = some ']' then
    (inner? line).map fun name => .heading (trim name)
  else assignmentInside? line

def ofLineInside? (line : List Char) : Option Entry := ofTrimmedInside? (trim line)

end Entry

def unquoteInside? (value : List Char) : Option (List Char) :=
  if value.head? = some '"' ∧ value.getLast? = some '"' ∧ 2 ≤ utf8Len value then inner? value
  else some value

def assignInside? (c : Configuration) (value : List Char) : Key → Option (Option Configuration)
  | .checksum => (unquoteInside? value).map fun word =>
      (Coverage.ofName? word).map fun v => { c with settings.coverage := v }
  | .parity => (unquoteInside? value).map fun word =>
      (Parity.ofName? word).map fun v => { c with line.parity := v }
  | k => some (assign? c value k)

namespace State

def nextInside? (s : State) : Entry → Option (Except ReadError State)
  | .assignment key value =>
    match s.heading.bind fun h => Key.ofName? h key with
    | none => some (.error .unknownKey)
    | some k => (assignInside? s.configuration value k).map fun
        | none => .error .invalidValue
        | some c => .ok { s with configuration := c }
  | e => some (s.next e)

def runInside? (s : State) : List (List Char) → Option (Except ReadError State)
  | [] => some (.ok s)
  | line :: ls =>
    ((Entry.ofLineInside? line).bind s.nextInside?).bind fun
      | .error err => some (.error err)
      | .ok s' => s'.runInside? ls

end State

def readInside? (text : List Char) : Option (Except ReadError Configuration) :=
  (State.runInside? {} (lines text)).map fun result => result.map State.configuration

theorem dropCommentInside?_eq (value : List Char) :
    dropCommentInside? value = some (dropComment value) := by
  rw [dropCommentInside?]
  by_cases h : '#' ∈ value
  · obtain ⟨before, rest, rfl, hbefore⟩ := List.eq_append_cons_of_mem h
    rw [offset?_append hbefore, dropComment_append hbefore]
    dsimp only
    rw [slice?_front, Option.map_some]
  · rw [offset?_of_not_mem h, dropComment_of_not_mem h]

theorem assignmentInside?_eq (line : List Char) :
    assignmentInside? line = some (assignmentOf line) := by
  rw [assignmentInside?]
  by_cases h : '=' ∈ line
  · obtain ⟨before, after, rfl, hbefore⟩ := List.eq_append_cons_of_mem h
    rw [offset?_append hbefore, assignmentOf_append hbefore]
    dsimp only
    rw [slice?_front, Option.bind_some, slice?_behind rfl, Option.bind_some,
      dropCommentInside?_eq, Option.map_some]
  · rw [offset?_of_not_mem h, assignmentOf_of_not_mem h]

/-- A text between two different marks, or one that is as long as two. -/
theorem exists_middle {first last : Char} {cs : List Char} (hfirst : cs.head? = some first)
    (hlast : cs.getLast? = some last) (h : first ≠ last ∨ cs ≠ [first]) :
    ∃ middle, cs = first :: middle ++ [last] := by
  obtain ⟨rest, rfl⟩ := List.head?_eq_some_iff.mp hfirst
  cases rest with
  | nil =>
    obtain rfl := Option.some.inj hlast
    simp at h
  | cons d rest =>
    rw [List.getLast?_cons_cons] at hlast
    obtain ⟨middle, hmiddle⟩ := List.getLast?_eq_some_iff.mp hlast
    exact ⟨middle, congrArg (first :: ·) hmiddle⟩

theorem Entry.ofTrimmedInside?_eq (line : List Char) :
    ofTrimmedInside? line = some (ofTrimmed line) := by
  rw [ofTrimmedInside?]
  split
  · next hblank =>
    obtain rfl | hmark := hblank
    · rfl
    · obtain ⟨rest, rfl⟩ := List.head?_eq_some_iff.mp hmark
      rfl
  · next hblank =>
    rw [not_or] at hblank
    split
    · next hheading =>
      obtain ⟨middle, rfl⟩ := exists_middle hheading.1 hheading.2 (.inl (by decide))
      rw [inner?_eq rfl rfl, ofTrimmed_heading]
      rfl
    · next hheading =>
      rw [assignmentInside?_eq]
      obtain ⟨c, rest, rfl⟩ := List.exists_cons_of_ne_nil hblank.1
      by_cases hbracket : c = '['
      · subst hbracket
        rw [ofTrimmed_bracket]
        intro hlast
        refine hheading ⟨rfl, ?_⟩
        rw [List.getLast?_cons, hlast]
        rfl
      · rw [ofTrimmed_cons (fun heq => hblank.2 (congrArg some heq)) hbracket]

theorem Entry.ofLineInside?_eq (line : List Char) : ofLineInside? line = some (ofLine line) :=
  ofTrimmedInside?_eq (trim line)

theorem unquoteInside?_eq (value : List Char) : unquoteInside? value = some (unquote value) := by
  rw [unquoteInside?]
  split
  · next h =>
    obtain ⟨hfirst, hlast, hlen⟩ := h
    have hne : value ≠ ['"'] := by
      rintro rfl
      exact absurd hlen (by decide)
    obtain ⟨middle, rfl⟩ := exists_middle hfirst hlast (.inr hne)
    rw [inner?_eq rfl rfl, unquote_quoted]
  · next h =>
    unfold unquote
    split
    · next inner =>
      split
      · next hlast =>
        refine absurd ⟨rfl, ?_, ?_⟩ h
        · rw [List.getLast?_cons, hlast]
          rfl
        · have hquote : '"'.utf8Size = 1 := rfl
          have hinner : utf8Len inner ≠ 0 := fun hzero => by
            rw [utf8Len_eq_zero_iff.mp hzero] at hlast
            cases hlast
          rw [utf8Len]
          omega
      · rfl
    · rfl

theorem assignInside?_eq (c : Configuration) (value : List Char) (k : Key) :
    assignInside? c value k = some (assign? c value k) := by
  cases k with
  | checksum | parity =>
    rw [assignInside?, unquoteInside?_eq]
    rfl
  | idleTimeout | rxOverwrite | zeroSync | errorReplies | baudrate | dataBits | stopBits => rfl

namespace State

theorem nextInside?_eq (s : State) (x : Entry) : s.nextInside? x = some (s.next x) := by
  cases x with
  | blank | heading name | malformed => rfl
  | assignment key value =>
    cases hk : s.heading.bind fun h => Key.ofName? h key with
    | none => simp only [nextInside?, next, hk]
    | some k =>
      cases hc : assign? s.configuration value k with
      | none => simp only [nextInside?, next, hk, assignInside?_eq, hc, Option.map_some]
      | some c => simp only [nextInside?, next, hk, assignInside?_eq, hc, Option.map_some]

theorem runInside?_eq (s : State) (ls : List (List Char)) :
    s.runInside? ls = some (s.run (ls.map Entry.ofLine)) := by
  induction ls generalizing s with
  | nil => rfl
  | cons line ls ih =>
    rw [runInside?, Entry.ofLineInside?_eq, Option.bind_some, nextInside?_eq, Option.bind_some,
      List.map_cons, run]
    cases s.next (Entry.ofLine line) with
    | error err => rfl
    | ok s' => exact ih s'

end State

/-- No text makes the reader cut a line outside of its bounds or inside of a character. -/
theorem readInside?_eq (text : List Char) : readInside? text = some (read text) := by
  rw [readInside?, State.runInside?_eq]
  rfl

end CommandLink.LinkFile
