import CodeGraph.Text.Class
import CodeGraph.Text.Seq

/-!
Operations on character lists: trimming, lines and words, and the numbers that digits write.
-/

namespace CodeGraph.Chars

open Text

def lower (s : List Char) : List Char :=
  s.map lowerChar

def trimStart (s : List Char) : List Char :=
  s.dropWhile isSpace

def trimEnd (s : List Char) : List Char :=
  (s.reverse.dropWhile isSpace).reverse

def trim (s : List Char) : List Char :=
  trimEnd (trimStart s)

/-- Removes the characters that satisfy `drop` from both ends. -/
def trimWhere (drop : Char → Bool) (s : List Char) : List Char :=
  ((s.dropWhile drop).reverse.dropWhile drop).reverse

/-- The maximal runs without white space. -/
def words (s : List Char) : List (List Char) :=
  (Seq.splitOn isSpace s).filter (· ≠ [])

/-- White space runs become one blank, and none is left at either end. -/
def squeeze (s : List Char) : List Char :=
  [' '].intercalate (words s)

/-- A carriage return at the end of a line belongs to its line break. -/
def dropReturn (line : List Char) : List Char :=
  match line.getLast? with
  | some '\r' => line.dropLast
  | _ => line

/-- The lines of a text: cut at line feeds, each without the carriage return before the line
feed; nothing follows a final line feed. -/
def lines (s : List Char) : List (List Char) :=
  let pieces := Seq.splitOn (· == '\n') s
  let closed := pieces.dropLast.map dropReturn
  match pieces.getLast? with
  | none | some [] => closed
  | some last => closed ++ [last]

/-- What precedes the first `needle`, or everything. -/
def before (needle s : List Char) : List Char :=
  match Seq.cut? needle s with
  | some (head, _) => head
  | none => s

/-- What follows the last `needle`, or everything. -/
def afterLast (needle s : List Char) : List Char :=
  (Seq.afterLast? needle s).getD s

end CodeGraph.Chars

namespace CodeGraph.Digits

/-- The value of a digit; letters continue the digits after 9 in either case. -/
def value (c : Char) : Nat :=
  if '0' ≤ c && c ≤ '9' then c.toNat - '0'.toNat
  else if 'a' ≤ c && c ≤ 'z' then c.toNat - 'a'.toNat + 10
  else if 'A' ≤ c && c ≤ 'Z' then c.toNat - 'A'.toNat + 10
  else 0

/-- The number that digits write in a base. -/
def number (base : Nat) (digits : List Char) : Nat :=
  digits.foldl (fun n c => n * base + value c) 0

def isHex (c : Char) : Bool :=
  ('0' ≤ c && c ≤ '9') || ('a' ≤ c && c ≤ 'f') || ('A' ≤ c && c ≤ 'F')

/-- A number of at most 64 bits: decimal digits, possibly after a plus sign. -/
def word64? (s : String) : Option Nat :=
  let digits :=
    match s.toList with
    | '+' :: rest => rest
    | rest => rest
  if digits.isEmpty || !digits.all Text.isAsciiDigit then none
  else
    let n := number 10 digits
    if n < Nat.pow 2 64 then some n else none

end CodeGraph.Digits
