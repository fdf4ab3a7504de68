import CodeGraph.Scope.Ident
import CodeGraph.Sql.Mask
import CodeGraph.Text.Bytes
import CodeGraph.Text.Pattern

/-!
The definitions in an SQL script: procedures, functions, triggers, tables and views. A definition
lasts until the next one begins.
-/

namespace CodeGraph.Sql

open Pattern

/-- What a `CREATE` or `ALTER` statement defines. -/
inductive ObjectKind where
  | procedure
  | function
  | trigger
  | table
  | view
  deriving DecidableEq, Repr, Inhabited

namespace ObjectKind

def name : ObjectKind → String
  | procedure => "procedure"
  | function => "function"
  | trigger => "trigger"
  | table => "table"
  | view => "view"

def isRoutine : ObjectKind → Bool
  | procedure | function | trigger => true
  | table | view => false

def ofKeyword? (keyword : String) : Option ObjectKind :=
  let k := Text.lower keyword
  if k == "proc" || k == "procedure" then some procedure
  else if k == "function" then some function
  else if k == "trigger" then some trigger
  else if k == "table" then some table
  else if k == "view" then some view
  else none

end ObjectKind

def namePart : Pattern :=
  seqs [opt (char '['), word, opt (char ']')]

/-- A name behind at most two qualifying names. -/
def qualifiedName : Pattern :=
  seq (atMost 2 (seq namePart (char '.'))) namePart

/-- A definition: its kind is part 1 and its name is part 2. -/
def definitionPattern : Pattern :=
  seqs [edge,
    alt (seq (keyword "CREATE") (opt (seqs [spaces1, keyword "OR", spaces1, keyword "ALTER"])))
      (keyword "ALTER"),
    spaces1,
    group 1 (keywords ["PROCEDURE", "PROC", "FUNCTION", "TRIGGER", "TABLE", "VIEW"]),
    spaces1,
    group 2 qualifiedName]

/-- The table that fires a trigger is part 1. -/
def triggerTargetPattern : Pattern :=
  seqs [start, spaces1, keyword "ON", spaces1, group 1 qualifiedName]

/-- The last name of a qualified one, without brackets. -/
def simpleName (raw : String) : String :=
  Text.trimWhere (fun c => c == '[' || c == ']') (Text.lastPiece (· == '.') raw)

/-- A definition with its place in the text, counted in characters: it begins at `start`, its
header ends at `headerEnd`, and it ends at `stop`. -/
structure Definition where
  kind : ObjectKind
  name : String
  start : Nat
  headerEnd : Nat
  stop : Nat
  /-- The table that fires a trigger. -/
  watched : Option String
  deriving DecidableEq, Repr, Inhabited

def Definition.id (path : String) (d : Definition) : String :=
  Ident.inFile path d.name

/-- The header of a trigger includes the table that fires it. -/
def triggerTarget? (text : List Char) (headerEnd : Nat) : Option (Nat × String) :=
  match triggerTargetPattern.first? (symbolsOf (text.drop headerEnd)) with
  | none => none
  | some m => (m.group? 1).map fun g => (headerEnd + g.stop, simpleName g.string)

/-- Reads one match; the definition ends where the text does. -/
def ofMatch? (text : List Char) (m : Match) : Option Definition :=
  match m.group? 1, m.group? 2 with
  | some keyword, some name =>
      match ObjectKind.ofKeyword? keyword.string with
      | none => none
      | some kind =>
          let name := simpleName name.string
          let target := if kind == .trigger then triggerTarget? text m.stop else none
          match target with
          | some (headerEnd, watched) =>
              some ⟨kind, name, m.start, headerEnd, text.length, some watched⟩
          | none => some ⟨kind, name, m.start, m.stop, text.length, none⟩
  | _, _ => none

/-- Ends each definition where the next one begins. -/
def closeEach : List Definition → List Definition
  | [] => []
  | [d] => [d]
  | d :: e :: ds => { d with stop := e.start } :: closeEach (e :: ds)

def definitions (text : List Char) : List Definition :=
  closeEach ((definitionPattern.all (symbolsOf text)).filterMap (ofMatch? text))

end CodeGraph.Sql
