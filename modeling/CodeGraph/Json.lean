import CodeGraph.Number.Binary64

/-!
JSON values and their compact text: no blanks, members in the order in which the object holds
them, and only quotes, backslashes and control characters escaped.
-/

namespace CodeGraph

inductive Json where
  | null
  | bool (b : Bool)
  | int (n : Int)
  | float (x : Binary64)
  | str (s : String)
  | list (items : List Json)
  | object (fields : List (String × Json))
  deriving Repr, Inhabited

namespace Json

def hexDigit (n : Nat) : Char :=
  if n < 10 then Char.ofNat (48 + n) else Char.ofNat (87 + n)

/-- The escape of a character inside a string, or nothing if it stands for itself. -/
def escape? (c : Char) : Option (List Char) :=
  if c == '"' then some ['\\', '"']
  else if c == '\\' then some ['\\', '\\']
  else if 0x20 ≤ c.toNat then none
  else if c.toNat == 8 then some ['\\', 'b']
  else if c.toNat == 9 then some ['\\', 't']
  else if c.toNat == 10 then some ['\\', 'n']
  else if c.toNat == 12 then some ['\\', 'f']
  else if c.toNat == 13 then some ['\\', 'r']
  else some ['\\', 'u', '0', '0', hexDigit (c.toNat / 16), hexDigit (c.toNat % 16)]

def escapeChar (c : Char) : List Char :=
  (escape? c).getD [c]

def quote (s : List Char) : List Char :=
  '"' :: s.flatMap escapeChar ++ ['"']

def renderFloat (x : Binary64) : List Char :=
  if x.isFinite then x.render else "null".toList

mutual

def chars : Json → List Char
  | null => "null".toList
  | bool true => "true".toList
  | bool false => "false".toList
  | int n => (toString n).toList
  | float x => renderFloat x
  | str s => quote s.toList
  | list items => '[' :: itemChars items ++ [']']
  | object fields => '{' :: fieldChars fields ++ ['}']

def itemChars : List Json → List Char
  | [] => []
  | [v] => chars v
  | v :: vs => chars v ++ ',' :: itemChars vs

def fieldChars : List (String × Json) → List Char
  | [] => []
  | [(k, v)] => quote k.toList ++ ':' :: chars v
  | (k, v) :: rest => quote k.toList ++ ':' :: chars v ++ ',' :: fieldChars rest

end

/-- Cuts a string into the pieces in which it is written: an escape is a piece of its own, and so
is the run of plain characters between two escapes. `run` holds the plain characters that precede
the list, the last one first. -/
def stringPieces (run : List Char) : List Char → List (List Char)
  | [] => if run.isEmpty then [] else [run.reverse]
  | c :: s =>
      match escape? c with
      | none => stringPieces (c :: run) s
      | some e =>
          let rest := e :: stringPieces [] s
          if run.isEmpty then rest else run.reverse :: rest

def quotePieces (s : String) : List (List Char) :=
  ['"'] :: stringPieces [] s.toList ++ [['"']]

mutual

/-- The text of a value, in the pieces in which it is handed to a sink. -/
def pieces : Json → List (List Char)
  | null => ["null".toList]
  | bool true => ["true".toList]
  | bool false => ["false".toList]
  | int n => [(toString n).toList]
  | float x => [renderFloat x]
  | str s => quotePieces s
  | list items => ['['] :: itemPieces items ++ [[']']]
  | object fields => ['{'] :: fieldPieces fields ++ [['}']]

def itemPieces : List Json → List (List Char)
  | [] => []
  | [v] => pieces v
  | v :: vs => pieces v ++ [','] :: itemPieces vs

def fieldPieces : List (String × Json) → List (List Char)
  | [] => []
  | [(k, v)] => quotePieces k ++ [':'] :: pieces v
  | (k, v) :: rest => quotePieces k ++ [':'] :: pieces v ++ [','] :: fieldPieces rest

end

theorem flatten_stringPieces (run s : List Char) :
    (stringPieces run s).flatten = run.reverse ++ s.flatMap escapeChar := by
  induction s generalizing run with
  | nil => cases run <;> simp [stringPieces]
  | cons c s ih =>
      rw [stringPieces, List.flatMap_cons, escapeChar]
      cases escape? c with
      | none => simp [ih]
      | some e => cases run <;> simp [ih]

theorem flatten_quotePieces (s : String) : (quotePieces s).flatten = quote s.toList := by
  simp [quotePieces, quote, flatten_stringPieces]

mutual

/-- The pieces of a value make up its text. -/
theorem flatten_pieces : (v : Json) → v.pieces.flatten = v.chars
  | null => by simp [pieces, chars]
  | bool true => by simp [pieces, chars]
  | bool false => by simp [pieces, chars]
  | int n => by simp [pieces, chars]
  | float x => by simp [pieces, chars]
  | str s => by simp [pieces, chars, flatten_quotePieces]
  | list items => by simp [pieces, chars, flatten_itemPieces items]
  | object fields => by simp [pieces, chars, flatten_fieldPieces fields]

theorem flatten_itemPieces : (vs : List Json) → (itemPieces vs).flatten = itemChars vs
  | [] => by simp [itemPieces, itemChars]
  | [v] => by simp [itemPieces, itemChars, flatten_pieces v]
  | v :: w :: vs => by
      simp [itemPieces, itemChars, flatten_pieces v, flatten_itemPieces (w :: vs)]

theorem flatten_fieldPieces :
    (fields : List (String × Json)) → (fieldPieces fields).flatten = fieldChars fields
  | [] => by simp [fieldPieces, fieldChars]
  | [(k, v)] => by simp [fieldPieces, fieldChars, flatten_pieces v, flatten_quotePieces]
  | (k, v) :: f :: rest => by
      simp [fieldPieces, fieldChars, flatten_pieces v, flatten_quotePieces,
        flatten_fieldPieces (f :: rest)]

end

def render (v : Json) : String :=
  String.ofList v.chars

def string? : Json → Option String
  | str s => some s
  | _ => none

/-- A whole number that fits in 64 bits without a sign. -/
def natural? : Json → Option Nat
  | int (.ofNat n) => some n
  | _ => none

def ofOption (f : α → Json) : Option α → Json
  | none => null
  | some a => f a

end Json

end CodeGraph
