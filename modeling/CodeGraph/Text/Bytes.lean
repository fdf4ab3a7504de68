/-!
Texts as bytes. Reading bytes as UTF-8 never fails: a maximal byte sequence that begins a character
and does not complete one is a `broken` symbol, and so is a byte that begins none. A text reading
puts the replacement character for each broken symbol, and a strict reading refuses them.

Parts of a text are blanked in place. A blanked byte becomes a space, and line breaks are kept, so a
masked text has the length and the lines of the text it was made from.
-/

namespace CodeGraph

/-- One decoded character, or bytes that are none. -/
inductive Symbol where
  | char (c : Char)
  | broken (bytes : List UInt8)
  deriving DecidableEq, Repr, Inhabited

namespace Symbol

def width : Symbol → Nat
  | .char c => c.utf8Size
  | .broken bytes => bytes.length

/-- The character, with the replacement character for broken bytes. -/
def toChar : Symbol → Char
  | .char c => c
  | .broken _ => Char.ofNat 0xfffd

def char? : Symbol → Option Char
  | .char c => some c
  | .broken _ => none

end Symbol

namespace Utf8

/-- A character of which some bytes are read and `more` are missing; the next one lies between
`lo` and `hi`. -/
structure Pending where
  got : List UInt8
  value : Nat
  more : Nat
  lo : Nat
  hi : Nat

/-- What a first byte announces. -/
inductive Lead where
  | done (s : Symbol)
  | more (p : Pending)

/-- Reads a first byte. The bounds on the second byte keep out overlong forms, surrogates and
values above the last code point. -/
def lead (b : UInt8) : Lead :=
  let n := b.toNat
  let start (bits more lo hi : Nat) : Lead := .more ⟨[b], bits, more, lo, hi⟩
  if n < 0x80 then .done (.char (Char.ofNat n))
  else if 0xc2 ≤ n && n ≤ 0xdf then start (n - 0xc0) 1 0x80 0xbf
  else if n == 0xe0 then start 0 2 0xa0 0xbf
  else if n == 0xed then start 0xd 2 0x80 0x9f
  else if 0xe1 ≤ n && n ≤ 0xef then start (n - 0xe0) 2 0x80 0xbf
  else if n == 0xf0 then start 0 3 0x90 0xbf
  else if n == 0xf4 then start 4 3 0x80 0x8f
  else if 0xf1 ≤ n && n ≤ 0xf3 then start (n - 0xf0) 3 0x80 0xbf
  else .done (.broken [b])

/-- Reads a further byte; `none` when it does not continue the character. -/
def Pending.feed (p : Pending) (b : UInt8) : Option Lead :=
  let n := b.toNat
  if p.lo ≤ n && n ≤ p.hi then
    let value := p.value * 64 + (n - 0x80)
    if p.more ≤ 1 then some (.done (.char (Char.ofNat value)))
    else some (.more ⟨p.got ++ [b], value, p.more - 1, 0x80, 0xbf⟩)
  else none

def decodeFrom : Option Pending → List UInt8 → List Symbol
  | none, [] => []
  | some p, [] => [.broken p.got]
  | none, b :: s =>
      match lead b with
      | .done sym => sym :: decodeFrom none s
      | .more p => decodeFrom (some p) s
  | some p, b :: s =>
      match p.feed b with
      | some (.done sym) => sym :: decodeFrom none s
      | some (.more q) => decodeFrom (some q) s
      | none =>
          .broken p.got ::
            match lead b with
            | .done sym => sym :: decodeFrom none s
            | .more q => decodeFrom (some q) s

def decode (bytes : List UInt8) : List Symbol :=
  decodeFrom none bytes

/-- The text of any bytes, with one replacement character for each broken sequence. -/
def lossy (bytes : List UInt8) : List Char :=
  (decode bytes).map Symbol.toChar

/-- The text of bytes that are UTF-8 throughout. -/
def strict? (bytes : List UInt8) : Option (List Char) :=
  (decode bytes).mapM Symbol.char?

def encode (s : List Char) : List UInt8 :=
  s.flatMap String.utf8EncodeChar

end Utf8

namespace Mask

def lf : UInt8 := 10

def cr : UInt8 := 13

def space : UInt8 := 32

def isBreak (b : UInt8) : Bool :=
  b == lf || b == cr

def blankByte (b : UInt8) : UInt8 :=
  if isBreak b then b else space

def blank (bytes : List UInt8) : List UInt8 :=
  bytes.map blankByte

end Mask

end CodeGraph
