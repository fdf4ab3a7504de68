import CodeGraph.Text.Chars

/-!
The operations on character lists, for strings, and texts in quotes, for descriptions of values:
quotes, backslashes and common control characters are escaped by a letter, and everything that
cannot be printed on its own by its code point.
-/

namespace CodeGraph.Text

def onChars (f : List Char → List Char) (s : String) : String :=
  String.ofList (f s.toList)

def lower : String → String := onChars Chars.lower

def trim : String → String := onChars Chars.trim

def trimStart : String → String := onChars Chars.trimStart

def trimEnd : String → String := onChars Chars.trimEnd

def trimWhere (drop : Char → Bool) : String → String := onChars (Chars.trimWhere drop)

def squeeze : String → String := onChars Chars.squeeze

def sameIgnoringCase (a b : String) : Bool :=
  lower a == lower b

def startsWith (lead s : String) : Bool :=
  Seq.startsWith lead.toList s.toList

def endsWith (tail s : String) : Bool :=
  Seq.endsWith tail.toList s.toList

def contains (needle s : String) : Bool :=
  Seq.contains needle.toList s.toList

def stripStart? (lead s : String) : Option String :=
  (Seq.stripStart? lead.toList s.toList).map String.ofList

def stripEnd? (tail s : String) : Option String :=
  (Seq.stripEnd? tail.toList s.toList).map String.ofList

/-- The text on either side of the first `needle`. -/
def cut? (needle s : String) : Option (String × String) :=
  (Seq.cut? needle.toList s.toList).map fun (a, b) => (String.ofList a, String.ofList b)

/-- The text on either side of the last character that satisfies `sep`. -/
def cutLast? (sep : Char → Bool) (s : String) : Option (String × String) :=
  (Seq.cutLast? sep s.toList).map fun (a, b) => (String.ofList a, String.ofList b)

/-- The text on either side of the last `needle`. -/
def cutLastOn? (needle s : String) : Option (String × String) :=
  (Seq.cutLastOn? needle.toList s.toList).map fun (a, b) => (String.ofList a, String.ofList b)

/-- What precedes the first `needle`, or everything. -/
def before (needle s : String) : String :=
  onChars (Chars.before needle.toList) s

/-- What follows the last `needle`, or everything. -/
def afterLast (needle s : String) : String :=
  onChars (Chars.afterLast needle.toList) s

def splitOn (sep : Char → Bool) (s : String) : List String :=
  (Seq.splitOn sep s.toList).map String.ofList

def lastPiece (sep : Char → Bool) (s : String) : String :=
  onChars (Seq.lastPiece sep) s

def lines (s : String) : List String :=
  (Chars.lines s.toList).map String.ofList

def join (sep : String) (parts : List String) : String :=
  String.ofList (sep.toList.intercalate (parts.map String.toList))

/-! ### Quotes -/

/-- A code point in hexadecimal between braces. -/
def codePoint (c : Char) : List Char :=
  '\\' :: 'u' :: '{' :: Nat.toDigits 16 c.toNat ++ ['}']

def quotedChar (c : Char) : List Char :=
  if c == '"' then ['\\', '"']
  else if c == '\\' then ['\\', '\\']
  else if c == '\n' then ['\\', 'n']
  else if c == '\r' then ['\\', 'r']
  else if c == '\t' then ['\\', 't']
  else if c.toNat == 0 then ['\\', '0']
  else if isUnprintable c then codePoint c
  else [c]

def quoted (s : String) : String :=
  String.ofList ('"' :: s.toList.flatMap quotedChar ++ ['"'])

end CodeGraph.Text
