import CodeGraph.Outline

/-!
The items of a C or C++ file in order: classes with a body, function definitions, fields,
declarations at file level and namespaces.
-/

namespace CodeGraph.Cpp

inductive Item where
  | class_ (t : Tree) (name : String)
  | function (t : Tree) (owner : Option String)
  | fields (t : Tree) (owner : String)
  | globals (t : Tree)
  | space (name : String)
  deriving Repr, Inhabited

def classKinds : List String :=
  ["class_specifier", "struct_specifier", "union_specifier"]

def classId (f : SourceFile) (name : String) : String :=
  Ident.inFile f.path name

/-- The name of a class that has a name and a body. -/
def className? (src : Bytes) (t : Tree) : Option String :=
  match t.child? "name", t.child? "body" with
  | some name, some _ => some (Ident.baseType (name.text src))
  | _, _ => none

/-- What a node other than a class or function itself contributes. -/
def ownItems (src : Bytes) (owner : Option String) (t : Tree) : List Item :=
  if t.kind == "field_declaration" then
    match owner with
    | some owner => [.fields t owner]
    | none => []
  else if t.kind == "declaration" then
    match owner with
    | some _ => []
    | none => [.globals t]
  else if t.kind == "namespace_definition" then ((t.childText? src "name").map .space).toList
  else []

mutual

/-- The items in a tree, each before those inside it. Nothing is looked for inside a function. -/
def items (f : SourceFile) (owner : Option String) : Tree → List Item
  | .node i cs =>
      let t : Tree := .node i cs
      if classKinds.contains i.kind then
        match className? f.bytes t with
        | some name => .class_ t name :: itemsInBody f (classId f name) cs
        | none => itemsAll f owner cs
      else if i.kind == "function_definition" then [.function t owner]
      else ownItems f.bytes owner t ++ itemsAll f owner cs

def itemsAll (f : SourceFile) (owner : Option String) : List Tree → List Item
  | [] => []
  | t :: ts => items f owner t ++ itemsAll f owner ts

def itemsInBody (f : SourceFile) (owner : String) : List Tree → List Item
  | [] => []
  | .node i cs :: ts =>
      if i.field == "body" then itemsAll f (some owner) cs else itemsInBody f owner ts

end

end CodeGraph.Cpp
