namespace CommandLink.Text

/-- A line from its characters in reverse, without one carriage return at its
end. -/
def closeLine : List Char → List Char
  | '\r' :: line => line.reverse
  | line => line.reverse

def linesFrom (line : List Char) : List Char → List (List Char)
  | [] => if line.isEmpty then [] else [line.reverse]
  | c :: cs => if c = '\n' then closeLine line :: linesFrom [] cs else linesFrom (c :: line) cs

/-- The lines of a text, each ended by a line feed or a carriage return and a
line feed. An end is not needed behind the last line. -/
def lines (cs : List Char) : List (List Char) := linesFrom [] cs

end CommandLink.Text
