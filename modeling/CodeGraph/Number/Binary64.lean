/-!
Binary floating-point numbers of 64 bits and their shortest decimal form, computed in exact
integer arithmetic.
-/

namespace CodeGraph

/-- A number in the 64-bit binary interchange format, given by its bits. -/
structure Binary64 where
  bits : UInt64
  deriving DecidableEq, Repr, Inhabited

namespace Binary64

def zero : Binary64 := ⟨0⟩

def isNegative (x : Binary64) : Bool :=
  x.bits.toNat / Nat.pow 2 63 == 1

def exponentBits (x : Binary64) : Nat :=
  x.bits.toNat / Nat.pow 2 52 % Nat.pow 2 11

def fractionBits (x : Binary64) : Nat :=
  x.bits.toNat % Nat.pow 2 52

/-- Neither infinite nor not a number. -/
def isFinite (x : Binary64) : Bool :=
  x.exponentBits != 2047

/-- The magnitude of a finite number is `mantissa * 2 ^ scale / 2 ^ 1076`. -/
def mantissa (x : Binary64) : Nat :=
  if x.exponentBits == 0 then x.fractionBits else x.fractionBits + Nat.pow 2 52

def scale (x : Binary64) : Nat :=
  if x.exponentBits == 0 then 2 else x.exponentBits + 1

/-- The magnitudes that round to a number, in quarter units of its last place: everything
between `lo` and `hi`, and the ends as well when the mantissa is even. -/
structure Interval where
  lo : Nat
  mid : Nat
  hi : Nat
  closed : Bool

def interval (x : Binary64) : Interval :=
  let m := x.mantissa
  let below := if x.fractionBits == 0 && x.exponentBits > 1 then 1 else 2
  ⟨4 * m - below, 4 * m, 4 * m + 2, m % 2 == 0⟩

/-- The number `digits * 10 ^ (power - 400)`. -/
structure Decimal where
  digits : Nat
  power : Nat
  deriving DecidableEq, Repr

/-- Whether `n / d` lies in the interval when a quarter unit is `u / d`. -/
def Interval.holds (i : Interval) (u n : Nat) : Bool :=
  if i.closed then i.lo * u ≤ n && n ≤ i.hi * u else i.lo * u < n && n < i.hi * u

/-- The multiple of `10 ^ (power - 400)` that reads back as the number, the nearer one if both
neighbours do and the even one if they are equally near. -/
def onGrid? (i : Interval) (scale power : Nat) : Option Nat :=
  -- everything is counted in units of `10 ^ -400 * 2 ^ -1078`
  let u := Nat.pow 2 scale * Nat.pow 10 400
  let step := Nat.pow 10 power * Nat.pow 2 1078
  let v := i.mid * u
  let down := v / step
  let up := down + 1
  match i.holds u (down * step), i.holds u (up * step) with
  | true, true =>
      let a := v - down * step
      let b := up * step - v
      if a < b || (a == b && down % 2 == 0) then some down else some up
  | true, false => some down
  | false, true => some up
  | false, false => none

/-- The first hit on the grids from `power` downwards. -/
def shortestFrom (i : Interval) (scale : Nat) : Nat → Decimal
  | 0 => ⟨0, 0⟩
  | power + 1 =>
      match onGrid? i scale power with
      | some 0 | none => shortestFrom i scale power
      | some d => ⟨d, power⟩

/-- The decimal with the fewest digits that reads back as the magnitude of `x`. -/
def shortest (x : Binary64) : Decimal :=
  if x.mantissa == 0 then ⟨0, 400⟩ else shortestFrom x.interval x.scale 710

def decimalDigits (n : Nat) : List Char :=
  Nat.toDigits 10 n

/-- Positional from `1e-5` up to `1e16`, always with a fraction; scientific outside. -/
def renderDecimal (d : Decimal) : List Char :=
  let digits := decimalDigits d.digits
  let count := digits.length
  let point : Int := count + d.power - 400
  if d.digits == 0 then ['0', '.', '0']
  else if d.power ≥ 400 && point ≤ 16 then
    digits ++ List.replicate (d.power - 400) '0' ++ ['.', '0']
  else if 0 < point && point ≤ 16 then
    digits.take point.toNat ++ ['.'] ++ digits.drop point.toNat
  else if -5 < point && point ≤ 0 then
    ['0', '.'] ++ List.replicate (-point).toNat '0' ++ digits
  else
    let exponent := (toString (point - 1)).toList
    match digits with
    | [d] => d :: 'e' :: exponent
    | d :: ds => d :: '.' :: ds ++ 'e' :: exponent
    | [] => []

def render (x : Binary64) : List Char :=
  let text := renderDecimal x.shortest
  if x.isNegative then '-' :: text else text

end Binary64

end CodeGraph
