import CodeGraph.Text.Bytes

/-!
Masking of SQL: comments are blanked by one pass and the contents of string literals by another.
-/

namespace CodeGraph.Sql

open Mask

def quote : UInt8 := 39

def hyphen : UInt8 := 45

def slash : UInt8 := 47

def star : UInt8 := 42

/-- Where a scan for comments stands. -/
inductive Lexis where
  | code
  | string
  | lineComment
  | blockComment
  deriving DecidableEq, Repr, Inhabited

/-- Blanks `--` comments up to the end of the line and block comments up to their end. A quote
opens a string and a second one ends it; two quotes in a string stand for one. -/
def maskCommentsFrom : Lexis → List UInt8 → List UInt8
  | _, [] => []
  | .code, b :: s =>
      if b = quote then b :: maskCommentsFrom .string s
      else
        match s with
        | c :: rest =>
            if b = hyphen ∧ c = hyphen then space :: space :: maskCommentsFrom .lineComment rest
            else if b = slash ∧ c = star then
              space :: space :: maskCommentsFrom .blockComment rest
            else b :: maskCommentsFrom .code (c :: rest)
        | [] => [b]
  | .string, b :: s =>
      if b = quote then
        match s with
        | c :: rest =>
            if c = quote then b :: c :: maskCommentsFrom .string rest
            else b :: maskCommentsFrom .code (c :: rest)
        | [] => [b]
      else b :: maskCommentsFrom .string s
  | .lineComment, b :: s =>
      if isBreak b then b :: maskCommentsFrom .code s
      else space :: maskCommentsFrom .lineComment s
  | .blockComment, b :: s =>
      match s with
      | c :: rest =>
          if b = star ∧ c = slash then space :: space :: maskCommentsFrom .code rest
          else blankByte b :: maskCommentsFrom .blockComment (c :: rest)
      | [] => [blankByte b]

def maskComments (bytes : List UInt8) : List UInt8 :=
  maskCommentsFrom .code bytes

/-- Blanks what stands in strings; `inside` says whether a string is open. -/
def blankStringsFrom (inside : Bool) : List UInt8 → List UInt8
  | [] => []
  | b :: s =>
      if b = quote then
        match s with
        | c :: rest =>
            if inside && c == quote then space :: space :: blankStringsFrom inside rest
            else b :: blankStringsFrom (!inside) (c :: rest)
        | [] => [b]
      else (if inside then blankByte b else b) :: blankStringsFrom inside s

def blankStrings (bytes : List UInt8) : List UInt8 :=
  blankStringsFrom false bytes

/-- The text that is scanned for definitions and references. -/
def masked (bytes : List UInt8) : List UInt8 :=
  blankStrings (maskComments bytes)

end CodeGraph.Sql
