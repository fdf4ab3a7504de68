import CodeGraph.Cpp.Items
import CodeGraph.Import
import CodeGraph.Scope.Tables

/-!
The tables of a C or C++ file, filled item by item. Everything belongs to the file: functions and
globals by their name, members by their class. A definition outside its class is attached to the
class that its name is qualified with.
-/

namespace CodeGraph.Cpp

open Declaration

def branchKinds : List String :=
  ["if_statement", "for_statement", "for_range_loop", "while_statement", "do_statement",
    "case_statement", "catch_clause", "conditional_expression"]

structure Tables where
  file : SourceFile
  includes : List String := []
  fragment : Fragment := {}
  /-- Functions and globals, and members as a last resort. -/
  symbols : SymbolTable := {}
  classes : SymbolTable := {}
  classIds : List String := []
  namespaces : List String := []
  /-- IDs of members, by owner and name. -/
  members : Bindings (String × String) String := {}
  /-- Declared types of fields, by owner and name, the latest declaration first. -/
  fieldTypes : List ((String × String) × String) := []
  /-- Function definitions, by key. -/
  routines : Bindings Nat Routine := {}

/-- Of children with their answers, that of the declarator, or of the first one that is a
declarator by kind. -/
def chooseDeclarator (answers : List (Tree × Option Tree)) : Option Tree :=
  match answers.find? (·.1.field == "declarator") with
  | some (_, d) => d
  | none =>
      (answers.find? fun (t, _) => t.named && Text.endsWith "declarator" t.kind).bind (·.2)

mutual

/-- The declarator of a function under any wrapping declarators. -/
def functionDeclarator? : Tree → Option Tree
  | .node i cs =>
      if i.kind == "function_declarator" then some (.node i cs)
      else chooseDeclarator (functionDeclarators cs)

def functionDeclarators : List Tree → List (Tree × Option Tree)
  | [] => []
  | t :: ts => (t, functionDeclarator? t) :: functionDeclarators ts

end

def lastSegment (name : String) : String :=
  Text.afterLast "::" name

/-- The class or namespace that qualifies a name, without type arguments. -/
def scopeName (scope : String) : String :=
  lastSegment (Ident.baseType scope)

structure Target where
  id : String
  label : String
  name : String
  owner : Option String

namespace Tables

def addMember (tb : Tables) (owner name id : String) : Tables :=
  { tb with members := tb.members.bind (owner, name) id }

def addSymbol (tb : Tables) (name id : String) : Tables :=
  { tb with symbols := tb.symbols.insert name id }

def addNode (tb : Tables) (n : Node) : Tables :=
  { tb with fragment := tb.fragment.addNode n }

def addEdge (tb : Tables) (source target relation : String) : Tables :=
  { tb with fragment := tb.fragment.addEdge source target relation }

def recordClass (tb : Tables) (t : Tree) (name : String) : Tables :=
  let f := tb.file
  let id := classId f name
  let kind := (Text.stripEnd? "_specifier" t.kind).getD t.kind
  { tb.addNode ((spanning f t id Label.class_ name).set Key.kind (.str kind)) with
    classes := tb.classes.insert name id
    classIds := tb.classIds ++ [id] }

/-- A qualified name belongs to a namespace of the file, or else to a class; a plain name belongs
to the class around it, if any. -/
def functionTarget (tb : Tables) (owner : Option String) (full : String) : Target :=
  let path := tb.file.path
  match Text.cutLastOn? "::" full with
  | some (scope, name) =>
      let scope := scopeName scope
      if tb.namespaces.contains scope && !tb.classes.contains scope then
        ⟨Ident.inFile path full, Label.function, name, none⟩
      else
        let owner := (tb.classes.get? scope).getD (Ident.inFile path scope)
        ⟨Ident.member owner name, Label.method, name, some owner⟩
  | none =>
      match owner with
      | some owner => ⟨Ident.member owner full, Label.method, full, some owner⟩
      | none => ⟨Ident.inFile path full, Label.function, full, none⟩

def functionName? (src : Bytes) (t : Tree) : Option String :=
  ((functionDeclarator? t).bind (·.child? "declarator")).map (·.text src)

def recordFunction (tb : Tables) (t : Tree) (owner : Option String) : Tables :=
  match functionName? tb.file.bytes t with
  | none => tb
  | some full =>
      let d := tb.functionTarget owner full
      let tb := tb.addNode (routineNode tb.file branchKinds t d.id d.label d.name)
      let tb := (tb.addSymbol full d.id).addSymbol d.name d.id
      let tb :=
        match d.owner with
        | some owner => (tb.addEdge owner d.id Relation.hasMethod).addMember owner d.name d.id
        | none => tb
      { tb with routines := tb.routines.bind t.key ⟨d.id, d.owner⟩ }

/-- Records one declarator of a field declaration; that of a method is only a prototype. -/
def recordField (tb : Tables) (owner typeText : String) (declarator : Tree) : Tables :=
  match declarator.declaredName? tb.file.bytes with
  | none => tb
  | some name =>
      let id := Ident.member owner name
      if (functionDeclarator? declarator).isSome then tb.addMember owner name id
      else
        let node := fieldNode tb.file declarator id Label.field name typeText
        let tb := ((tb.addNode node).addEdge owner id Relation.defines).addMember owner name id
        { tb.addSymbol name id with
          fieldTypes := ((owner, name), typeText) :: tb.fieldTypes }

/-- Records one declarator at file level; that of a function is only a prototype. -/
def recordGlobal (tb : Tables) (typeText : String) (declarator : Tree) : Tables :=
  match declarator.declaredName? tb.file.bytes with
  | none => tb
  | some name =>
      let id := Ident.inFile tb.file.path name
      if (functionDeclarator? declarator).isSome then tb.addSymbol name id
      else
        (tb.addNode (fieldNode tb.file declarator id Label.global name typeText)).addSymbol name id

def record (tb : Tables) : Item → Tables
  | .class_ t name => tb.recordClass t name
  | .function t owner => tb.recordFunction t owner
  | .fields t owner =>
      let typeText := (t.childText? tb.file.bytes "type").getD ""
      (t.childrenIn "declarator").foldl (fun tb d => tb.recordField owner typeText d) tb
  | .globals t =>
      let typeText := (t.childText? tb.file.bytes "type").getD ""
      (t.childrenIn "declarator").foldl (fun tb d => tb.recordGlobal typeText d) tb
  | .space name => { tb with namespaces := tb.namespaces ++ [name] }

end Tables

end CodeGraph.Cpp
