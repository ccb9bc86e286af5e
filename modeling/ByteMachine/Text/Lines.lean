/-!
The lines of a text. A line ends at a line feed, together with a carriage return right before it;
what follows the last line feed is a line unless it is empty.
-/
namespace ByteMachine.Text

/-- The characters of a line, given last first with the line feed already removed. -/
def finishLine : List Char → List Char
  | '\r' :: cs => cs.reverse
  | cs => cs.reverse

/-- The lines of a text, of whose first line `begun` has been read, last character first. -/
def linesFrom (begun : List Char) : List Char → List (List Char)
  | [] => if begun.isEmpty then [] else [begun.reverse]
  | '\n' :: cs => finishLine begun :: linesFrom [] cs
  | c :: cs => linesFrom (c :: begun) cs

def lines (text : String) : List (List Char) :=
  linesFrom [] text.toList

end ByteMachine.Text
