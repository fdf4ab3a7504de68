import CodeGraph.Text.AlphanumericTable
import CodeGraph.Text.UnprintableTable
import CodeGraph.Text.WordTable

/-!
Character classes: white space, word characters, alphanumeric and unprintable characters of the
whole Unicode range, and letter case in the ASCII range.
-/

namespace CodeGraph.Text

def inIntervals (table : List (Nat × Nat)) (n : Nat) : Bool :=
  table.any fun (lo, hi) => lo ≤ n && n ≤ hi

/-- White space in the sense of the Unicode property of that name. -/
def isSpace (c : Char) : Bool :=
  let n := c.toNat
  (9 ≤ n && n ≤ 13) || n == 0x20 || n == 0x85 || n == 0xa0 || n == 0x1680
    || (0x2000 ≤ n && n ≤ 0x200a) || n == 0x2028 || n == 0x2029 || n == 0x202f
    || n == 0x205f || n == 0x3000

def isAsciiLetter (c : Char) : Bool :=
  ('a' ≤ c && c ≤ 'z') || ('A' ≤ c && c ≤ 'Z')

def isAsciiUpper (c : Char) : Bool :=
  'A' ≤ c && c ≤ 'Z'

def isAsciiDigit (c : Char) : Bool :=
  '0' ≤ c && c ≤ '9'

/-- A character that a word can hold: a letter, mark, digit or connector. -/
def isWord (c : Char) : Bool :=
  isAsciiLetter c || isAsciiDigit c || c == '_'
    || (0x80 ≤ c.toNat && inIntervals wordIntervals c.toNat)

/-- A letter or a number of any script. -/
def isAlphanumeric (c : Char) : Bool :=
  isAsciiLetter c || isAsciiDigit c
    || (0x80 ≤ c.toNat && inIntervals alphanumericIntervals c.toNat)

/-- The small letter of an ASCII capital; every other character is kept. -/
def lowerChar (c : Char) : Char :=
  if isAsciiUpper c then Char.ofNat (c.toNat + 32) else c

/-- Two characters are one letter when they agree up to case. The long s and the Kelvin sign
are the only characters outside ASCII that fold onto an ASCII letter. -/
def sameLetter (letter c : Char) : Bool :=
  lowerChar letter == lowerChar c
    || (lowerChar letter == 's' && c.toNat == 0x17f)
    || (lowerChar letter == 'k' && c.toNat == 0x212a)

def isUnprintable (c : Char) : Bool :=
  c.toNat < 0x20 || inIntervals unprintableIntervals c.toNat

end CodeGraph.Text
