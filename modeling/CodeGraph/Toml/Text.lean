import CodeGraph.Text.Chars
import CodeGraph.Text.Reader

/-!
Reading TOML strings and keys. Strings in double quotes have escapes, strings in single quotes have
none; three quotes delimit strings that may span lines. No string holds a control character other
than a tab and, between three quotes, a line break.
-/

namespace CodeGraph.Toml

open Reader

/-- Characters that can stand in a string or a comment. -/
def isPlain (c : Char) : Bool :=
  c == '\t' || (0x20 ≤ c.toNat && c.toNat != 0x7f)

def isBlank (c : Char) : Bool :=
  c == ' ' || c == '\t'

/-- A line break, which is a line feed with or without a carriage return in front. -/
def newline : Reader Unit := do
  let _ ← optional (char '\r')
  let _ ← char '\n'

def blanks : Reader Unit := do
  let _ ← run isBlank

/-- A code point of so many hexadecimal digits. -/
def codePoint (count : Nat) : Reader Char := do
  let ds ← (List.replicate count ()).mapM fun _ => next Digits.isHex
  let n := Digits.number 16 ds
  if n.isValidChar then return Char.ofNat n else failure

def escape : Reader Char := do
  let _ ← char '\\'
  match ← next fun _ => true with
  | 'b' => return '\x08'
  | 'f' => return '\x0c'
  | 'n' => return '\n'
  | 'r' => return '\r'
  | 't' => return '\t'
  | 'u' => codePoint 4
  | 'U' => codePoint 8
  | '\\' => return '\\'
  | '"' => return '"'
  | _ => failure

/-- Plain characters other than the given delimiter and the backslash, which is plain in single
quotes. -/
def isContent (quote : Char) (c : Char) : Bool :=
  isPlain c && c != quote && (quote == '\'' || c != '\\')

/-- A string on one line. -/
def oneLine (quote : Char) : Reader String := do
  let _ ← char quote
  let plain := run1 (isContent quote)
  let escaped := do return [← escape]
  let pieces ← many (if quote = '"' then plain <|> escaped else plain)
  let _ ← char quote
  return String.ofList pieces.flatten

/-- A backslash at the end of a line, with the blanks and line breaks that follow. -/
def continuation : Reader (List Char) := do
  let _ ← char '\\'
  blanks
  newline
  let _ ← many (newline <|> (do let _ ← run1 isBlank))
  return []

/-- One or two quotes that no third one follows. -/
def fewQuotes (quote : Char) : Reader (List Char) := do
  let qs ← run1 (· == quote)
  if qs.length < 3 then return qs else failure

/-- A string between three quotes. A line break right after the opening quotes is dropped, and the
closing quotes may have one or two quotes of the content in front of them. -/
def manyLines (quote : Char) : Reader String := do
  text (String.ofList [quote, quote, quote])
  let _ ← optional newline
  let plain := run1 (isContent quote)
  let break_ := do newline; return ['\n']
  let escaped := continuation <|> (do return [← escape])
  let pieces ← many (plain <|> (if quote = '"' then escaped else failure) <|> break_
    <|> fewQuotes quote)
  let closing ← run (· == quote)
  if 3 ≤ closing.length ∧ closing.length ≤ 5 then
    return String.ofList (pieces.flatten ++ closing.drop 3)
  else failure

def stringText : Reader String :=
  manyLines '"' <|> oneLine '"' <|> manyLines '\'' <|> oneLine '\''

def isBare (c : Char) : Bool :=
  Text.isAsciiLetter c || Text.isAsciiDigit c || c == '-' || c == '_'

def simpleKey : Reader String :=
  oneLine '"' <|> oneLine '\'' <|> (do return String.ofList (← run1 isBare))

/-- The bound on how deep keys and values are nested. -/
def depthLimit : Nat := 80

def dottedKey : Reader (List String) := do
  let parts ← separated (do blanks; let k ← simpleKey; blanks; return k)
    (do let _ ← char '.')
  if parts.length < depthLimit then return parts else failure

def comment : Reader Unit := do
  let _ ← char '#'
  let _ ← run isPlain

end CodeGraph.Toml
