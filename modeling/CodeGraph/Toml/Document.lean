import CodeGraph.Toml.Scalar
import CodeGraph.Toml.Text

/-!
Reading TOML documents. A document is a list of lines, each of which is blank, gives a key its
value, or names the table to which the keys below it belong.
-/

namespace CodeGraph.Toml

open Reader

/-- Blanks, comments and line breaks inside an array. -/
def gaps : Reader Unit := do
  let _ ← many ((do let _ ← run1 isBlank) <|> newline <|> (do comment; newline))

/-- The table that pairs in braces make up. -/
def inlineTable? (pairs : List (List String × Toml)) : Option Entries :=
  pairs.foldlM (fun entries (path, v) =>
    match path.getLast? with
    | some key => Entries.addDotted? path.dropLast key v .inline entries
    | none => none) []

def pair (value : Reader Toml) : Reader (List String × Toml) := do
  let path ← dottedKey
  let _ ← char '='
  blanks
  return (path, ← value)

def arrayOf (value : Reader Toml) : Reader Toml := do
  let _ ← char '['
  let items ← optional (separated (do gaps; let v ← value; gaps; return v)
    (do let _ ← char ','))
  if items.isSome then
    let _ ← optional (char ',')
  gaps
  let _ ← char ']'
  return array (items.getD [])

def tableOf (value : Reader Toml) : Reader Toml := do
  let _ ← char '{'
  let pairs ← optional (separated (do let p ← pair value; blanks; return p)
    (do let _ ← char ','))
  blanks
  let _ ← char '}'
  match inlineTable? (pairs.getD []) with
  | some entries => return table .inline entries
  | none => failure

/-- A value whose arrays and tables are nested at most so deep. -/
def value : (depth : Nat) → Reader Toml
  | 0 => (do return string (← stringText)) <|> scalar
  | depth + 1 =>
      (do return string (← stringText)) <|> scalar <|> arrayOf (value depth)
        <|> tableOf (value depth)

inductive Line where
  | blank
  | pair (path : List String) (v : Toml)
  | header (path : List String)
  | element (path : List String)
  deriving Inhabited

/-- What stands on a line, if it is not blank. -/
def statement : Reader Line :=
  (do text "[["; let path ← dottedKey; text "]]"; return .element path)
    <|> (do let _ ← char '['; let path ← dottedKey; let _ ← char ']'; return .header path)
    <|> (do let (path, v) ← pair (value (depthLimit - 1)); return .pair path v)

/-- A line with its comment and its line break, which the last line may lack. -/
def line : Reader Line := do
  blanks
  let l ← optional statement
  blanks
  let _ ← optional comment
  newline <|> atEnd
  return l.getD .blank

/-- A document that is being read: its tables so far, and the path of the last header. -/
structure Draft where
  root : Entries := []
  here : List String := []

def Draft.add? (d : Draft) : Line → Option Draft
  | .blank => some d
  | .pair path v =>
      match path.getLast? with
      | none => none
      | some key =>
          let add := Entries.addDotted? path.dropLast key v
          (Entries.change? .implied d.here add .header d.root).map fun root => { d with root }
  | .header path =>
      match path.getLast? with
      | none => none
      | some key => (d.root.openTable? path.dropLast key).map fun root => ⟨root, path⟩
  | .element path =>
      match path.getLast? with
      | none => none
      | some key => (d.root.openElement? path.dropLast key).map fun root => ⟨root, path⟩

/-- A byte order mark in front of a document is ignored. -/
def dropMark (s : List Char) : List Char :=
  match s with
  | '\ufeff' :: rest => rest
  | _ => s

/-- The entries of a document, or nothing if the text is not TOML. -/
def read? (s : String) : Option Entries := do
  let lines ← whole? (many line) (dropMark s.toList)
  let d ← lines.foldlM Draft.add? {}
  return d.root

end CodeGraph.Toml
