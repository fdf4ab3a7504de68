import CodeGraph.Scope.Ident
import CodeGraph.Scope.Tables

/-!
The members, field types and supertypes of the types that one file defines.
-/

namespace CodeGraph

structure TypeMembers where
  /-- IDs of members, by type and name. -/
  members : Bindings (String × String) String := {}
  /-- Declared types of fields, by type and name. -/
  fieldTypes : Bindings (String × String) String := {}
  interfaces : List String := []
  /-- Pairs of a type and one of its supertypes, each pair once. -/
  supertypes : List (String × String) := []
  deriving Repr, Inhabited

namespace TypeMembers

def addMember (t : TypeMembers) (owner name id : String) : TypeMembers :=
  { t with members := t.members.bind (owner, name) id }

/-- Records a field or property, which is also a member. -/
def addField (t : TypeMembers) (owner name id typeText : String) : TypeMembers :=
  { t.addMember owner name id with fieldTypes := t.fieldTypes.bind (owner, name) typeText }

/-- The member that a type declares itself. -/
def member? (t : TypeMembers) (owner name : String) : Option String :=
  t.members.get? (owner, name)

def fieldType? (t : TypeMembers) (owner name : String) : Option String :=
  t.fieldTypes.get? (owner, name)

def isField (t : TypeMembers) (owner name : String) : Bool :=
  (t.fieldType? owner name).isSome

def markInterface (t : TypeMembers) (type : String) : TypeMembers :=
  if t.interfaces.contains type then t else { t with interfaces := t.interfaces ++ [type] }

def isInterface (t : TypeMembers) (type : String) : Bool :=
  t.interfaces.contains type

def addBase (t : TypeMembers) (type base : String) : TypeMembers :=
  if t.supertypes.contains (type, base) then t
  else { t with supertypes := t.supertypes ++ [(type, base)] }

/-- The supertypes of a type in order of first mention. -/
def bases (t : TypeMembers) (type : String) : List String :=
  (t.supertypes.filter (·.1 == type)).map (·.2)

/-- A member of a type: its own, else that of the first supertype that declares it, else the ID
that the type itself would give it. -/
def resolveMember (t : TypeMembers) (type name : String) : String :=
  match t.member? type name with
  | some id => id
  | none => ((t.bases type).findSome? (t.member? · name)).getD (Ident.member type name)

end TypeMembers

end CodeGraph
