import ByteMachine.Assembly.Token

/-!
How a line of assembly text is read as tokens. Blanks and tabs stand between tokens, and a semicolon
begins a comment. A quote that opens a text commits the scanner to it; anything else that does not
match is left for the next kind of token.
-/
namespace ByteMachine.Assembly

/-- Why a line has no tokens, with the part of the line where reading stopped. -/
inductive ScanError where
  /-- No token begins here. -/
  | stuck (rest : List Char)
  /-- The text that opens here is never closed. -/
  | unclosed (rest : List Char)
  /-- A backslash in a text that no escape begins with. -/
  | badEscape (rest : List Char)
  deriving DecidableEq, Repr

def ScanError.rest : ScanError → List Char
  | stuck rest | unclosed rest | badEscape rest => rest

def isNameStart (c : Char) : Bool :=
  c.isAlpha || c == '_'

def isNameChar (c : Char) : Bool :=
  c.isAlphanum || c == '_' || c == '.'

/-- The character that a letter after a backslash stands for. -/
def unescape (c : Char) : Option Char :=
  if c = 'n' then some '\n'
  else if c = 't' then some '\t'
  else if c = 'r' then some '\r'
  else if c = '0' then some '\x00'
  else if c = '\\' ∨ c = '\'' ∨ c = '"' then some c
  else none

/-- The longest name that the text begins with. -/
def name? : List Char → Option (String × List Char)
  | [] => none
  | c :: cs =>
    if isNameStart c then
      some (String.ofList (c :: cs.takeWhile isNameChar), cs.dropWhile isNameChar)
    else none

def label? (cs : List Char) : Option (Token × List Char) :=
  match name? cs with
  | some (name, ':' :: rest) => some (.label name, rest)
  | _ => none

def word? (cs : List Char) : Option (Token × List Char) :=
  match name? cs with
  | some (name, rest) => some (.word name, rest)
  | none => none

def directive? : List Char → Option (Token × List Char)
  | '.' :: cs =>
    match name? cs with
    | some (name, rest) => some (.directive name, rest)
    | none => none
  | _ => none

def condition? : List Char → Option (Token × List Char)
  | '?' :: a :: b :: rest =>
    match Numeral.digitValue a, Numeral.digitValue b with
    | some high, some low => some (.condition (UInt8.ofNat (high * 16 + low)), rest)
    | _, _ => none
  | _ => none

/-- Digits as far as they go; a number at or above the limit is none. -/
def digits? (base : Nat) (cs : List Char) : Option (Token × List Char) :=
  match Numeral.readDigits base Numeral.wordLimit (cs.takeWhile (Numeral.isDigitOf base)) with
  | some n => some (.number n, cs.dropWhile (Numeral.isDigitOf base))
  | none => none

/-- A hexadecimal number if there is one, else a decimal one. -/
def number? (cs : List Char) : Option (Token × List Char) :=
  ((Numeral.afterHexMark cs).bind (digits? 16)).or (digits? 10 cs)

/-- The character between single quotes, and what follows it. -/
def quotedChar? : List Char → Option (Char × List Char)
  | [] => none
  | ['\\'] => some ('\\', [])
  | c :: d :: rest =>
    if c = '\\' then
      match unescape d with
      | some e => some (e, rest)
      | none => some (c, d :: rest)
    else some (c, d :: rest)
  | [c] => some (c, [])

def character? : List Char → Option (Token × List Char)
  | '\'' :: cs =>
    match quotedChar? cs with
    | some (c, '\'' :: rest) =>
      if c.toNat < 0x80 then some (.character (UInt8.ofNat c.toNat), rest) else none
    | _ => none
  | _ => none

def comma? : List Char → Option (Token × List Char)
  | ',' :: rest => some (.comma, rest)
  | _ => none

/-- The rest of a text that opened at `opening` and of which `seen` has been read, last character
first. -/
def textFrom (opening seen : List Char) : List Char → Except ScanError (String × List Char)
  | [] => .error (.unclosed opening)
  | '"' :: rest => .ok (String.ofList seen.reverse, rest)
  | ['\\'] => .error (.badEscape ['\\'])
  | '\\' :: c :: rest =>
    match unescape c with
    | some d => textFrom opening (d :: seen) rest
    | none => .error (.badEscape ('\\' :: c :: rest))
  | c :: rest => textFrom opening (c :: seen) rest

/-- The token at the beginning of a text that opens with no double quote. -/
def plainToken? (cs : List Char) : Option (Token × List Char) :=
  character? cs <|> directive? cs <|> condition? cs <|> label? cs <|> number? cs <|> word? cs <|>
    comma? cs

/-- The token at the beginning of a text, if there is one. -/
def scanToken : List Char → Except ScanError (Option (Token × List Char))
  | '"' :: cs => do
    let (text, rest) ← textFrom ('"' :: cs) [] cs
    return some (.text text, rest)
  | cs => .ok (plainToken? cs)

def isGap (c : Char) : Bool :=
  c == ' ' || c == '\t'

/-- Whether nothing but a comment is left. -/
def isFinished : List Char → Bool
  | [] => true
  | c :: _ => c == ';'

/-- Scans on with the tokens in `seen` already read, last first. The first argument bounds the
number of tokens. -/
def scanFrom : Nat → List Token → List Char → Except ScanError (List Token)
  | 0, _, cs => .error (.stuck cs)
  | fuel + 1, seen, cs => do
    let cs := cs.dropWhile isGap
    match ← scanToken cs with
    | some (token, rest) => scanFrom fuel (token :: seen) rest
    | none => if isFinished cs then return seen.reverse else throw (.stuck cs)

/-- The tokens of a line. -/
def scan (line : List Char) : Except ScanError (List Token) :=
  scanFrom (line.length + 1) [] line

end ByteMachine.Assembly
