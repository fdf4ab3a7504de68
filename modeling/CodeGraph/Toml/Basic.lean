/-!
TOML values, and tables as they grow line by line. A table remembers what brought it about, because
that decides whether a later line may add to it.
-/

namespace CodeGraph

/-- What brought a table about. -/
inductive TableOrigin where
  /-- Its own header, or the start of the document. -/
  | header
  /-- The header of a table inside it. -/
  | implied
  /-- A dotted key. -/
  | dotted
  /-- Braces on one line; nothing can be added. -/
  | inline
  deriving DecidableEq, Repr, Inhabited

inductive Toml where
  | string (s : String)
  | integer (n : Int)
  /-- A number with a fraction or an exponent, as it was written. -/
  | real (written : String)
  | boolean (b : Bool)
  /-- A date, a time or both, as it was written. -/
  | moment (written : String)
  | array (items : List Toml)
  | table (origin : TableOrigin) (entries : List (String × Toml))
  /-- Tables under one repeated header, the latest first. -/
  | tables (elements : List (List (String × Toml)))
  deriving Repr, Inhabited

namespace Toml

/-- The entries of a table. -/
abbrev Entries := List (String × Toml)

namespace Entries

def replace (key : String) (v : Toml) : Entries → Entries
  | [] => []
  | (k, old) :: rest => if k = key then (k, v) :: rest else (k, old) :: replace key v rest

def add? (key : String) (v : Toml) (entries : Entries) : Option Entries :=
  if (entries.lookup key).isSome then none else some (entries ++ [(key, v)])

/-- Changes the table to which a path leads. Tables that are missing on the way come about as
`made`, which says whether the path stands in a header or in a dotted key. A dotted key cannot
enter a table that has a header; of tables under a repeated header the latest is entered. -/
def change? (made : TableOrigin) :
    List String → (TableOrigin → Entries → Option Entries) → TableOrigin → Entries → Option Entries
  | [], f, origin, entries => f origin entries
  | key :: path, f, _, entries =>
      match entries.lookup key with
      | none => (change? made path f made []).map fun inner => entries ++ [(key, table made inner)]
      | some (table origin inner) =>
          if origin = .inline ∨ (made = .dotted ∧ origin = .header) then none
          else (change? made path f origin inner).map fun t => entries.replace key (table origin t)
      | some (tables (last :: before)) =>
          (change? made path f .header last).map fun t => entries.replace key (tables (t :: before))
      | some _ => none

/-- Adds a value under a dotted key, whose last part is `key`. The table it is added to must have
come about by dotted keys too. -/
def addDotted? (path : List String) (key : String) (v : Toml) (origin : TableOrigin)
    (entries : Entries) : Option Entries :=
  change? .dotted path
    (fun o inner => if path ≠ [] ∧ o ≠ .dotted then none else inner.add? key v) origin entries

def openTable? (path : List String) (key : String) (entries : Entries) : Option Entries :=
  change? .implied path
    (fun _ inner =>
      match inner.lookup key with
      | none => some (inner ++ [(key, table .header [])])
      | some (table .implied old) => some (inner.replace key (table .header old))
      | some _ => none) .header entries

/-- Opens one more table of a repeated header. -/
def openElement? (path : List String) (key : String) (entries : Entries) : Option Entries :=
  change? .implied path
    (fun _ inner =>
      match inner.lookup key with
      | none => some (inner ++ [(key, tables [[]])])
      | some (tables old) => some (inner.replace key (tables ([] :: old)))
      | some _ => none) .header entries

end Entries

end Toml

end CodeGraph
