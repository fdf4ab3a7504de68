import CodeGraph.Failure
import CodeGraph.Scope.Members
import CodeGraph.Scope.Tables
import CodeGraph.Tree.Listing

/-!
The outline of a file: its types, routines, fields and globals. An analysis first lists the
declarations of a tree in order and then records them, which gives the nodes of the fragment, the
edges from a type to its members, and the tables by which references are resolved.
-/

namespace CodeGraph

structure SourceFile where
  path : String
  bytes : Bytes
  deriving Repr, Inhabited

/-- The fault of a file for which there is no tree. -/
def SourceFile.noTree (f : SourceFile) : Fault :=
  .failure (.parse f.path "Parse failed - no tree returned")

/-- One declaration of a file. The key is that of the tree node that declares it. -/
inductive Declaration where
  | type (key : Nat) (name : String) (node : Node) (isInterface : Bool)
  | routine (key : Nat) (name : String) (node : Node) (owner : Option String)
  | field (name : String) (node : Node) (owner typeText : String)
  | global (name : String) (node : Node)
  deriving Repr, Inhabited

/-- A routine to which references are attributed. -/
structure Routine where
  id : String
  owner : Option String
  deriving DecidableEq, Repr, Inhabited

structure Outline where
  fragment : Fragment := {}
  members : TypeMembers := {}
  /-- The declared types, by key. -/
  types : Tree.Owners := {}
  /-- The declared routines, by key. -/
  routines : Bindings Nat Routine := {}
  deriving Repr, Inhabited

namespace Outline

def markIf (members : TypeMembers) (isInterface : Bool) (id : String) : TypeMembers :=
  if isInterface then members.markInterface id else members

/-- Records one declaration. -/
def record (o : Outline) : Declaration → Outline
  | .type key _ node isInterface =>
      { o with
        fragment := o.fragment.addNode node
        members := markIf o.members isInterface node.id
        types := o.types.bind key node.id }
  | .routine key name node (some owner) =>
      { o with
        fragment := (o.fragment.addNode node).addEdge owner node.id Relation.hasMethod
        members := o.members.addMember owner name node.id
        routines := o.routines.bind key ⟨node.id, some owner⟩ }
  | .routine key _ node none =>
      { o with
        fragment := o.fragment.addNode node
        routines := o.routines.bind key ⟨node.id, none⟩ }
  | .field name node owner typeText =>
      { o with
        fragment := (o.fragment.addNode node).addEdge owner node.id Relation.defines
        members := o.members.addField owner name node.id typeText }
  | .global _ node => { o with fragment := o.fragment.addNode node }

def ofDeclarations (ds : List Declaration) : Outline :=
  ds.foldl record {}

def link (o : Outline) (source : String) (targets : List String) (relation : String) : Outline :=
  { o with fragment := o.fragment.addEdges source targets relation }

def addBase (o : Outline) (relation type base : String) : Outline :=
  { o with
    fragment := o.fragment.addEdge type base relation
    members := o.members.addBase type base }

/-- The entity to which a reference is attributed, and the type whose members it sees. -/
structure Context where
  source : String
  owner : Option String
  /-- The site of the routine, when the reference is in one. -/
  routine : Option Tree.Site

/-- The innermost routine around a site. -/
def routineAround? (o : Outline) (s : Tree.Site) : Option (Tree.Site × Routine) :=
  s.ancestors.findSome? fun a => (o.routines.get? a.node.key).map fun r => (a, r)

/-- A reference belongs to the innermost routine around it, or else to the innermost type. -/
def context? (o : Outline) (s : Tree.Site) : Option Context :=
  match o.routineAround? s with
  | some (site, r) => some ⟨r.id, r.owner, some site⟩
  | none => (s.enclosing? o.types).map fun id => ⟨id, some id, none⟩

inductive FieldUse where
  /-- It cannot. -/
  | none
  /-- By its bare name, unless a local hides the field. -/
  | bare
  /-- As a member of `this`. -/
  | ofThis
  deriving DecidableEq, Repr, Inhabited

/-- Links a use of a field of the type around a reference, if that type has such a field. -/
def linkField (o : Outline) (ctx : Context) (name : String) : Outline :=
  match ctx.owner with
  | none => o
  | some owner =>
      if o.members.isField owner name then
        o.link ctx.source [o.members.resolveMember owner name] Relation.uses
      else o

def linkFieldUse (o : Outline) (ctx : Context) (locals : Locals) (use : FieldUse)
    (name : String) : Outline :=
  match use with
  | .none => o
  | .bare => if locals.declares name then o else o.linkField ctx name
  | .ofThis => o.linkField ctx name

/-- A routine and the routines around it, the innermost first. -/
def routinesAt (o : Outline) (s : Tree.Site) : List Tree.Site :=
  (s :: s.ancestors).filter fun a => o.routines.contains a.node.key

end Outline

namespace Declaration

/-- The node of a type, which spans several lines. -/
def spanning (f : SourceFile) (t : Tree) (id label name : String) : Node :=
  (Node.definition id label name f.path (t.startLine f.bytes)).set Key.endLine
    (.int (t.endLine f.bytes))

/-- The kind of a declaration without the word that all of them share. -/
def shortKind (kind : String) : String :=
  (Text.stripEnd? "_declaration" kind).getD kind

/-- The node of a routine, with its head and its complexity. -/
def routineNode (f : SourceFile) (branches : List String) (t : Tree) (id label name : String) :
    Node :=
  ((spanning f t id label name).set Key.signature (.str (t.signature f.bytes))).set Key.complexity
    (.int (t.complexity f.bytes branches))

def fieldNode (f : SourceFile) (t : Tree) (id label name typeText : String) : Node :=
  (Node.definition id label name f.path (t.startLine f.bytes)).set Key.dataType (.str typeText)

def mark (n : Node) (key : String) (holds : Bool) : Node :=
  if holds then n.set key (.bool true) else n

end Declaration

end CodeGraph
