import CodeGraph.Outline

/-!
The declarations of a Java file. Types are known by their qualified name, nested ones by that of
their owner and their own name, and members belong to their type.
-/

namespace CodeGraph.Java

open Declaration

def typeKinds : List String :=
  ["class_declaration", "interface_declaration", "enum_declaration", "record_declaration",
    "annotation_type_declaration"]

def methodKinds : List String :=
  ["method_declaration", "constructor_declaration", "compact_constructor_declaration"]

def fieldKinds : List String :=
  ["field_declaration", "constant_declaration"]

def branchKinds : List String :=
  ["if_statement", "for_statement", "enhanced_for_statement", "while_statement", "do_statement",
    "switch_label", "catch_clause", "ternary_expression"]

def packageName (src : Bytes) (root : Tree) : String :=
  match root.childOfKind? ["package_declaration"] with
  | none => ""
  | some declaration =>
      match declaration.namedChildren.find? (·.isKind ["scoped_identifier", "identifier"]) with
      | none => ""
      | some name => name.text src

def hasModifier (src : Bytes) (t : Tree) (modifier : String) : Bool :=
  match t.childOfKind? ["modifiers"] with
  | none => false
  | some modifiers => modifiers.children.any fun m => m.text src == modifier

def typeDeclaration (f : SourceFile) (package : String) (t : Tree) (id name : String) :
    Declaration :=
  let isInterface := t.isKind ["interface_declaration", "annotation_type_declaration"]
  let label := if isInterface then Label.interface else Label.class_
  let node := ((spanning f t id label name).set Key.kind (.str (shortKind t.kind))).set "package"
    (.str package)
  .type t.key name node isInterface

def methodDeclaration (f : SourceFile) (t : Tree) (owner name : String) : Declaration :=
  let node := routineNode f branchKinds t (Ident.member owner name) Label.method name
  let node :=
    if t.kind == "method_declaration" then node else node.set Key.kind (.str "constructor")
  .routine t.key name (mark node "static" (hasModifier f.bytes t "static")) (some owner)

def fieldDeclarations (f : SourceFile) (t : Tree) (owner : String) : List Declaration :=
  let typeText := (t.childText? f.bytes "type").getD ""
  let isStatic := hasModifier f.bytes t "static"
  (t.childrenIn "declarator").filterMap fun declarator =>
    (declarator.childText? f.bytes "name").map fun name =>
      let node := fieldNode f declarator (Ident.member owner name) Label.field name typeText
      .field name (mark node "static" isStatic) owner typeText

/-- The components of a record are its fields. -/
def componentDeclarations (f : SourceFile) (t : Tree) (owner : String) : List Declaration :=
  if t.kind == "record_declaration" then
    match t.child? "parameters" with
    | none => []
    | some parameters =>
        parameters.namedChildren.filterMap fun p =>
          match p.childText? f.bytes "name", p.childText? f.bytes "type" with
          | some name, some typeText =>
              let node := fieldNode f p (Ident.member owner name) Label.field name typeText
              some (.field name node owner typeText)
          | _, _ => none
  else []

mutual

/-- The declarations in a tree, each before those inside it. -/
def declarations (f : SourceFile) (package : String) (owner : Option String) :
    Tree → List Declaration
  | .node i cs =>
      let t : Tree := .node i cs
      if typeKinds.contains i.kind then
        match t.childText? f.bytes "name" with
        | none => []
        | some name =>
            let id := Ident.typeIn package owner name
            typeDeclaration f package t id name :: componentDeclarations f t id
              ++ declarationsInBody f package id cs
      else if methodKinds.contains i.kind then
        match owner, t.childText? f.bytes "name" with
        | some owner, some name =>
            methodDeclaration f t owner name :: declarationsOfBody f package owner cs
        | _, _ => []
      else if fieldKinds.contains i.kind then
        match owner with
        | some owner => fieldDeclarations f t owner
        | none => []
      else declarationsAll f package owner cs

def declarationsAll (f : SourceFile) (package : String) (owner : Option String) :
    List Tree → List Declaration
  | [] => []
  | t :: ts => declarations f package owner t ++ declarationsAll f package owner ts

def declarationsInBody (f : SourceFile) (package owner : String) : List Tree → List Declaration
  | [] => []
  | .node i cs :: ts =>
      if i.field == "body" then declarationsAll f package (some owner) cs
      else declarationsInBody f package owner ts

/-- The declarations in the body, such as those of local and anonymous classes. -/
def declarationsOfBody (f : SourceFile) (package owner : String) : List Tree → List Declaration
  | [] => []
  | .node i cs :: ts =>
      if i.field == "body" then declarations f package (some owner) (.node i cs)
      else declarationsOfBody f package owner ts

end

end CodeGraph.Java
