import CodeGraph.Outline
import CodeGraph.Scope.Tables
import CodeGraph.Vb.Line

/-!
The block structure of a Visual Basic file. Blocks open and close on lines of their own, so one
pass over the lines with a stack of open types and at most one open routine finds all of them. No
line inside a routine opens anything.
-/

namespace CodeGraph.Vb

/-- A routine with a body: its lines are those after `start` and before `stop`, counted
from 0. -/
structure Body where
  id : String
  owner : Option String
  start : Nat
  stop : Nat
  deriving DecidableEq, Repr, Inhabited

structure OpenType where
  id : String
  isInterface : Bool
  deriving DecidableEq, Repr, Inhabited

/-- A supertype as written, and the relation to it. -/
structure Supertype where
  type : String
  base : String
  relation : String
  deriving DecidableEq, Repr, Inhabited

/-- What a scan of the lines has found. -/
structure Blocks where
  path : String
  fragment : Fragment := {}
  /-- Types and routines of the file. -/
  symbols : SymbolTable := { ignoresCase := true }
  /-- Routines of types, by owner and name in small letters. -/
  members : Bindings (String × String) String := {}
  /-- Routines with a body, in order. -/
  bodies : List Body := []
  supertypes : List Supertype := []
  /-- The types that are open, the innermost first. -/
  types : List OpenType := []
  routine : Option Body := none

namespace Blocks

/-- Gives a block its last line. -/
def close (b : Blocks) (id : String) (line : Nat) : Blocks :=
  { b with fragment := b.fragment.setProperty id Key.endLine (.int line) }

def openType (b : Blocks) (index : Nat) (keyword name : String) : Blocks :=
  let isInterface := Text.sameIgnoringCase keyword "interface"
  let id :=
    match b.types.head? with
    | some outer => outer.id ++ "." ++ name
    | none => Ident.inFile b.path name
  let label := if isInterface then Label.interface else Label.class_
  let node := (Node.definition id label name b.path (index + 1)).set Key.kind
    (.str (Text.lower keyword))
  { b with
    fragment := b.fragment.addNode node
    symbols := b.symbols.insert name id
    types := ⟨id, isInterface⟩ :: b.types }

def closeType (b : Blocks) (index : Nat) : Blocks :=
  match b.types with
  | [] => b
  | t :: rest => { b.close t.id (index + 1) with types := rest }

/-- A class inherits from its base and implements interfaces; all supertypes of an interface are
implemented. -/
def supertypeRelation (keyword : String) (ofInterface : Bool) : String :=
  if Text.sameIgnoringCase keyword "inherits" && !ofInterface then Relation.inherits
  else Relation.implements

def addSupertypes (b : Blocks) (keyword list : String) : Blocks :=
  match b.types.head? with
  | none => b
  | some t =>
      let relation := supertypeRelation keyword t.isInterface
      let bases := ((Text.splitOn (· == ',') list).map Text.trim).filter (· != "")
      { b with supertypes := b.supertypes ++ bases.map fun base => ⟨t.id, base, relation⟩ }

/-- A routine belongs to the innermost open type, or else to the file. -/
def routineId (b : Blocks) (name : String) : String :=
  match b.types.head? with
  | some t => Ident.member t.id name
  | none => Ident.inFile b.path name

def addRoutine (b : Blocks) (index : Nat) (raw : List Char) (name : String) : Blocks :=
  let id := b.routineId name
  let label := if b.types.isEmpty then Label.function else Label.method
  let node := (Node.definition id label name b.path (index + 1)).set Key.signature
    (.str (String.ofList (Chars.trim raw)))
  let b := { b with
    fragment := b.fragment.addNode node
    symbols := b.symbols.insert name id }
  match b.types.head? with
  | some t =>
      { b with
        fragment := b.fragment.addEdge t.id id Relation.hasMethod
        members := b.members.bind (t.id, Text.lower name) id }
  | none => b

/-- Whether a routine that starts on this line has a body. -/
def startsBody (b : Blocks) (line : List Char) : Bool :=
  !(b.types.head?.any (·.isInterface))
    && !Seq.contains "mustoverride".toList (Chars.lower line)

def openRoutine (b : Blocks) (index : Nat) (raw line : List Char) (name : String) : Blocks :=
  let id := b.routineId name
  let added := b.addRoutine index raw name
  if b.startsBody line then
    { added with routine := some ⟨id, b.types.head?.map (·.id), index, index⟩ }
  else added.close id (index + 1)

/-- Reads one line inside a routine. -/
def bodyLine (b : Blocks) (index : Nat) (line : List Char) (r : Body) : Blocks :=
  if hasShape routineEnd line then
    { b.close r.id (index + 1) with
      routine := none
      bodies := b.bodies ++ [{ r with stop := index }] }
  else b

/-- Reads one line outside routines. -/
def outerLine (b : Blocks) (index : Nat) (raw line : List Char) : Blocks :=
  match shapeOf? typeStart line with
  | some m =>
      match m.group? 1, m.group? 2 with
      | some keyword, some name => b.openType index keyword.string name.string
      | _, _ => b
  | none =>
      if hasShape typeEnd line then b.closeType index
      else
        match shapeOf? supertypeLine line with
        | some m =>
            match m.group? 1, m.group? 2 with
            | some keyword, some list => b.addSupertypes keyword.string list.string
            | _, _ => b
        | none =>
            match (shapeOf? routineStart line).bind (·.group? 2) with
            | some name => b.openRoutine index raw line name.string
            | none => b

def step (b : Blocks) (raw : List Char) (index : Nat) : Blocks :=
  let line := strip raw
  match b.routine with
  | some r => b.bodyLine index line r
  | none => b.outerLine index raw line

/-- Closes what is still open after the last line. -/
def finish (b : Blocks) (count : Nat) : Blocks :=
  let b :=
    match b.routine with
    | some r =>
        { b.close r.id count with
          routine := none
          bodies := b.bodies ++ [{ r with stop := count }] }
    | none => b
  b.types.foldl (fun b t => b.close t.id count) b

/-- A supertype is a name of the file or unknown. -/
def linkSupertype (b : Blocks) (s : Supertype) : Blocks :=
  let target := (b.symbols.get? s.base).getD (Ident.unresolved s.base)
  { b with fragment := b.fragment.addEdge s.type target s.relation }

def ofLines (path : String) (lines : List (List Char)) : Blocks :=
  let scanned := lines.zipIdx.foldl (fun (b : Blocks) (raw, i) => b.step raw i) { path }
  let closed := scanned.finish lines.length
  closed.supertypes.foldl linkSupertype closed

end Blocks

end CodeGraph.Vb
