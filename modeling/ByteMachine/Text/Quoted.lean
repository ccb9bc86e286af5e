import ByteMachine.Text.Hidden
import ByteMachine.Text.Numeral

/-!
Texts and characters quoted for a message. The quote, the backslash and a few controls have short
escapes, every other hidden character is written as its code point in braces.
-/
namespace ByteMachine.Text

/-- One character inside quotes of the kind `quote`. -/
def escapeChar (quote c : Char) : List Char :=
  if c = quote ∨ c = '\\' then ['\\', c]
  else if c = '\n' then ['\\', 'n']
  else if c = '\r' then ['\\', 'r']
  else if c = '\t' then ['\\', 't']
  else if c.toNat = 0 then ['\\', '0']
  else if isHidden c then
    '\\' :: 'u' :: '\x7b' :: (Numeral.hexadecimal c.toNat).toList ++ ['\x7d']
  else [c]

/-- A text in double quotes. -/
def quoted (text : String) : String :=
  String.ofList ('"' :: text.toList.flatMap (escapeChar '"') ++ ['"'])

/-- A character in single quotes. -/
def quotedChar (c : Char) : String :=
  String.ofList ('\'' :: escapeChar '\'' c ++ ['\''])

end ByteMachine.Text
