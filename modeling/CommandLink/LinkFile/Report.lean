import CommandLink.Text.Lines
import CommandLink.Text.Width

namespace CommandLink.LinkFile.Report

/-- A text inside the sides of a box, filled up to `width` characters. -/
def row (width : Nat) (cs : List Char) : List Char :=
  '║' :: ' ' :: ' ' :: Text.padRight width cs ++ [' ', '║']

def titleWidth : Nat := 63

def lineWidth : Nat := 64

def title (s : String) : List Char := row titleWidth s.toList

def bar (left right : Char) : List Char := left :: List.replicate 66 '═' ++ [right]

def top : List Char := bar '╔' '╗'

def middle : List Char := bar '╠' '╣'

def bottom : List Char := bar '╚' '╝'

def joinLines (ls : List (List Char)) : List Char := ['\n'].intercalate ls

/-- A line of more than 64 octets keeps 61 of them and gets three points. -/
def clip? (line : List Char) : Option (List Char) :=
  if lineWidth < Text.utf8Len line then
    (Text.takeUtf8? 61 line).map (· ++ "...".toList)
  else some line

/-- A message as rows of a box. There is no answer for a line whose cut falls
inside a character. -/
def messageRows? (message : List Char) : Option (List (List Char)) :=
  (Text.lines message).mapM fun line => (clip? line).map (row lineWidth)

def errorLines? (message : List Char) : Option (List Char) :=
  (messageRows? message).map joinLines

def box (rows : List (List Char)) : List Char :=
  joinLines ([[]] ++ rows ++ [[]])

end CommandLink.LinkFile.Report
