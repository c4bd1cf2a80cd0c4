namespace CommandLink.Text

def utf8Len : List Char → Nat
  | [] => 0
  | c :: cs => c.utf8Size + utf8Len cs

/-- The text in the first `n` octets, unless a character lies across the end. -/
def takeUtf8? : Nat → List Char → Option (List Char)
  | 0, _ => some []
  | _ + 1, [] => none
  | n + 1, c :: cs =>
    if c.utf8Size ≤ n + 1 then (takeUtf8? (n + 1 - c.utf8Size) cs).map (c :: ·) else none

/-- Spaces behind a text up to `n` characters. -/
def padRight (n : Nat) (cs : List Char) : List Char := cs ++ List.replicate (n - cs.length) ' '

end CommandLink.Text
