import CodeGraph.Text.Chars
import CodeGraph.Text.Reader
import CodeGraph.Toml.Basic

/-!
Reading TOML numbers, dates and times. Underscores may stand between two digits.
-/

namespace CodeGraph.Toml

open Reader

/-- Digits of a class, possibly with underscores between them, which are dropped. -/
def digits (p : Char → Bool) : Reader (List Char) := do
  let first ← next p
  return first :: (← many (next p <|> (do let _ ← char '_'; next p)))

def sign : Reader (Option Char) :=
  optional (char '+' <|> char '-')

/-- Decimal digits of a number that has no superfluous zero in front. -/
def wholeDigits : Reader (List Char) :=
  (do let _ ← char '0'; return ['0']) <|> digits Text.isAsciiDigit

/-- The least and the greatest integer. -/
def isInRange (n : Int) : Bool :=
  -Int.pow 2 63 ≤ n && n < Int.pow 2 63

def bounded (n : Int) : Reader Toml :=
  if isInRange n then return integer n else failure

/-- An integer in the base that its first two characters announce. -/
def based (lead : String) (base : Nat) (p : Char → Bool) : Reader Toml := do
  text lead
  bounded (Digits.number base (← digits p))

def decimal : Reader Toml := do
  let s ← sign
  let n := Digits.number 10 (← wholeDigits)
  bounded (if s = some '-' then -n else n)

def integerValue : Reader Toml :=
  based "0x" 16 Digits.isHex <|> based "0o" 8 (fun c => '0' ≤ c && c ≤ '7')
    <|> based "0b" 2 (fun c => c == '0' || c == '1') <|> decimal

def exponent : Reader (Option Char × List Char) := do
  let _ ← char 'e' <|> char 'E'
  let s ← sign
  return (s, ← digits Text.isAsciiDigit)

/-- Whether a decimal `digits · 10 ^ exponent` is too large for a double. From half a unit above the
largest double on, numbers are. The number of digits settles it where the exponent is far away. -/
def overflows (ds : List Char) (exponent : Int) : Bool :=
  let ds := ds.dropWhile (· == '0')
  let magnitude := ds.length + exponent
  if ds.isEmpty || magnitude < 300 then false
  else if 400 < magnitude then true
  else
    let limit := Nat.pow 2 1024 - Nat.pow 2 970
    let n := Digits.number 10 ds
    if 0 ≤ exponent then limit ≤ n * Nat.pow 10 exponent.toNat
    else limit * Nat.pow 10 (-exponent).toNat ≤ n

/-- Takes what a reader recognizes, as it is written. -/
def written (r : Reader Unit) : Reader String :=
  fun s => (r s).map fun (_, rest) => (String.ofList (s.take (s.length - rest.length)), rest)

/-- A number with a fraction or an exponent. One that is too large is refused, unless it is
negative. -/
def realNumber : Reader Unit := do
  let s ← sign
  let whole ← wholeDigits
  let fraction ← optional (do let _ ← char '.'; digits Text.isAsciiDigit)
  let power ← if fraction.isNone then (do return some (← exponent)) else optional exponent
  let frac := fraction.getD []
  let (powerSign, powerDigits) := power.getD (none, ['0'])
  let n : Int := Digits.number 10 powerDigits
  let scale := (if powerSign = some '-' then -n else n) - frac.length
  if s ≠ some '-' && overflows (whole ++ frac) scale then failure

/-- An infinity, or no number at all. -/
def special : Reader Unit := do
  let _ ← sign
  text "inf" <|> text "nan"

def realValue : Reader Toml := do
  return real (← written (realNumber <|> special))

/-- A number of exactly so many digits between two bounds. -/
def field (count lo hi : Nat) : Reader Nat := do
  let ds ← (List.replicate count ()).mapM fun _ => next Text.isAsciiDigit
  let n := Digits.number 10 ds
  if lo ≤ n ∧ n ≤ hi then return n else failure

def isLeap (year : Nat) : Bool :=
  year % 4 == 0 && (year % 100 != 0 || year % 400 == 0)

def daysIn (year month : Nat) : Nat :=
  if month = 2 then (if isLeap year then 29 else 28)
  else if month ∈ [4, 6, 9, 11] then 30
  else 31

def date : Reader Unit := do
  let year ← field 4 0 9999
  let _ ← char '-'
  let month ← field 2 1 12
  let _ ← char '-'
  let day ← field 2 1 31
  if daysIn year month < day then failure

/-- A time of day; the second 60 is a leap second. -/
def time : Reader Unit := do
  let _ ← field 2 0 23
  let _ ← char ':'
  let _ ← field 2 0 59
  let _ ← char ':'
  let _ ← field 2 0 60
  let _ ← optional (do let _ ← char '.'; run1 Text.isAsciiDigit)

def offset : Reader Unit :=
  (do let _ ← char 'Z' <|> char 'z') <|>
    (do
      let _ ← char '+' <|> char '-'
      let _ ← field 2 0 23
      let _ ← char ':'
      let _ ← field 2 0 59)

def momentValue : Reader Toml := do
  let s ← written ((do
    date
    let _ ← optional (do
      let _ ← char 'T' <|> char 't' <|> char ' '
      time
      let _ ← optional offset)) <|> time)
  return moment s

def booleanValue : Reader Toml :=
  (do text "true"; return boolean true) <|> (do text "false"; return boolean false)

/-- A value without parts, other than a string. -/
def scalar : Reader Toml :=
  momentValue <|> realValue <|> integerValue <|> booleanValue

end CodeGraph.Toml
