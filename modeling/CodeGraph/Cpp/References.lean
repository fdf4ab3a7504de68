import CodeGraph.Cpp.Tables
import CodeGraph.Import

/-!
The references in a C or C++ file: base classes, calls, and uses of variables and fields. What the
file does not define is looked for among its headers by their base names.
-/

namespace CodeGraph.Cpp

open CodeGraph.Tree (Site)

/-! ### Locals -/

def declaredIn? (src : Bytes) (t : Tree) : Option String :=
  (t.child? "declarator").bind (·.declaredName? src)

def parameterLocals (src : Bytes) (function : Tree) : List (String × Option String) :=
  match (functionDeclarator? function).bind (·.child? "parameters") with
  | none => []
  | some parameters =>
      parameters.namedChildren.filterMap fun p =>
        (declaredIn? src p).map fun name => (name, p.childText? src "type")

def localsOfNode (src : Bytes) (t : Tree) : List (String × Option String) :=
  let type := t.childText? src "type"
  if t.kind == "declaration" then
    (t.childrenIn "declarator").filterMap fun d => (d.declaredName? src).map fun n => (n, type)
  else if t.isKind ["for_range_loop", "parameter_declaration"] then
    ((declaredIn? src t).map fun n => (n, type)).toList
  else []

/-- The parameters and local variables of a function. -/
def localsOf (src : Bytes) (function : Tree) : Locals :=
  let inBody :=
    match function.child? "body" with
    | none => []
    | some body => body.preorder.flatMap (localsOfNode src)
  Locals.ofDeclarations (parameterLocals src function ++ inBody)

/-! ### Resolution -/

namespace Tables

def memberOf? (tb : Tables) (owner name : String) : Option String :=
  tb.members.get? (owner, name)

def fieldType? (tb : Tables) (owner field : String) : Option String :=
  tb.fieldTypes.lookup (owner, field)

/-- A name that the file does not define: that of a header, or unknown. -/
def outside (tb : Tables) (name : String) : String :=
  (Include.resolve? name tb.includes tb.file.path).getD (Ident.unresolved name)

/-- A type: a class of the file by its name or last segment, or else from outside. -/
def resolveType (tb : Tables) (text : String) : String :=
  let name := Ident.baseType text
  ((tb.classes.get? name).or (tb.classes.get? (lastSegment name))).getD (tb.outside name)

/-- A member of a type; for a class of the file any symbol of that name will do. -/
def member (tb : Tables) (type name : String) : String :=
  match tb.memberOf? type name with
  | some id => id
  | none =>
      if tb.classIds.contains type then (tb.symbols.get? name).getD (Ident.member type name)
      else Ident.member type name

/-- A symbol by the scope that qualifies it. -/
def scoped? (tb : Tables) (name : String) : Option String :=
  match Text.cutLastOn? "::" name with
  | none => none
  | some (scope, member) =>
      let scope := scopeName scope
      match tb.classes.get? scope with
      | some classId => some (tb.member classId member)
      | none => if tb.namespaces.contains scope then tb.symbols.get? member else none

def resolveSymbol (tb : Tables) (owner : Option String) (name : String) : String :=
  (((owner.bind fun o => tb.memberOf? o name).or (tb.symbols.get? name)).or
    (tb.scoped? name)).getD (tb.outside name)

def isInferred (text : String) : Bool :=
  let t := Text.trim text
  t == "auto" || t == "decltype(auto)"

/-- The type of a named receiver: that of the local, else that of the field, else what the name
itself denotes. -/
def namedType? (tb : Tables) (owner : Option String) (locals : Locals) (name : String) :
    Option String :=
  match locals.find? name with
  | some declared => (declared.filter fun t => !isInferred t).map tb.resolveType
  | none =>
      match owner.bind fun o => tb.fieldType? o name with
      | some type => some (tb.resolveType type)
      | none => some (tb.resolveType name)

/-- The type of a field of what a field expression is applied to, from the answers for its
children. -/
def typeOfField? (tb : Tables) (field : Option String) (answers : List (Tree × Option String)) :
    Option String :=
  match (answers.find? (·.1.field == "argument")).bind (·.2), field with
  | some inner, some field => (tb.fieldType? inner field).map tb.resolveType
  | _, _ => none

mutual

/-- The type of the receiver of a member access, where it can be told. -/
def receiverType? (tb : Tables) (owner : Option String) (locals : Locals) : Tree → Option String
  | .node i cs =>
      let t : Tree := .node i cs
      if i.kind == "this" then owner
      else if i.kind == "identifier" then tb.namedType? owner locals (t.text tb.file.bytes)
      else if i.kind == "field_expression" then
        tb.typeOfField? (t.childText? tb.file.bytes "field") (tb.receiverTypes owner locals cs)
      else none

def receiverTypes (tb : Tables) (owner : Option String) (locals : Locals) :
    List Tree → List (Tree × Option String)
  | [] => []
  | t :: ts => (t, tb.receiverType? owner locals t) :: tb.receiverTypes owner locals ts

end

def accessTarget? (tb : Tables) (owner : Option String) (locals : Locals) (access : Tree) :
    Option String :=
  match access.childText? tb.file.bytes "field", access.child? "argument" with
  | some name, some receiver =>
      match tb.receiverType? owner locals receiver with
      | some type => some (tb.member type name)
      | none => some (tb.resolveSymbol none name)
  | _, _ => none

/-! ### Base classes -/

/-- The class and the base that a base clause at this site relates. -/
def inheritance? (src : Bytes) (s : Site) : Option (String × String) :=
  if s.node.isKind ["type_identifier", "qualified_identifier", "template_type"] then
    match s.above with
    | clause :: cls :: _ =>
        if clause.kind == "base_class_clause"
            && cls.isKind ["class_specifier", "struct_specifier"] then
          (cls.children.find? fun c => c.field == "name" && c.kind == "type_identifier").map
            fun name => (name.text src, s.node.text src)
        else none
    | _ => none
  else none

def linkBase (tb : Tables) (s : Site) : Tables :=
  match inheritance? tb.file.bytes s with
  | none => tb
  | some (name, base) =>
      let source := (tb.classes.get? name).getD (Ident.inFile tb.file.path name)
      tb.addEdge source (tb.resolveType base) Relation.inherits

/-! ### Calls and uses -/

inductive Reference where
  /-- A call or use of a name. -/
  | name (relation : String) (t : Tree)
  /-- A call or use of a member. -/
  | access (relation : String) (t : Tree)

/-- Whether a node in a role is an operand that is read or written. -/
def isOperand (parent : Tree) (role : String) : Bool :=
  if parent.isKind ["assignment_expression", "binary_expression"] then
    role == "left" || role == "right"
  else if parent.isKind ["unary_expression", "update_expression"] then role == "argument"
  else false

/-- The reference that is complete at a site. -/
def reference? (s : Site) : Option Reference :=
  let t := s.node
  match s.above with
  | [] => none
  | p :: rest =>
      let called := p.kind == "call_expression" && t.field == "function"
      if called && t.isKind ["identifier", "qualified_identifier"] then
        some (.name Relation.calls t)
      else if called && t.kind == "field_expression" then some (.access Relation.calls t)
      else if t.kind == "identifier" && t.field == "name" && p.kind == "template_function"
          && p.field == "function"
          && (rest.head?.any fun q => q.kind == "call_expression") then
        some (.name Relation.calls t)
      else if t.kind == "identifier" && isOperand p t.field then some (.name Relation.uses t)
      else if p.kind == "field_expression" && t.field == "field"
          && t.kind == "field_identifier" then
        if p.isCallee rest.head? then none else some (.access Relation.uses p)
      else none

/-- The target of a reference; a local is none. -/
def target? (tb : Tables) (owner : Option String) (locals : Locals) :
    Reference → Option (String × String)
  | .name relation t =>
      let name := t.text tb.file.bytes
      if locals.declares name then none else some (tb.resolveSymbol owner name, relation)
  | .access relation t => (tb.accessTarget? owner locals t).map fun id => (id, relation)

def linkReference (tb : Tables) (s : Site) : Tables :=
  match reference? s with
  | none => tb
  | some ref =>
      match s.ancestors.findSome? fun a =>
          (tb.routines.get? a.node.key).map fun r => (a, r) with
      | none => tb
      | some (site, routine) =>
          match tb.target? routine.owner (localsOf tb.file.bytes site.node) ref with
          | some (id, relation) => tb.addEdge routine.id id relation
          | none => tb

end Tables

def initialTables (f : SourceFile) (root : Tree) : Tables :=
  (items f none root).foldl Tables.record
    { file := f, includes := (Import.includes f.bytes root).map (·.path) }

def analyze (f : SourceFile) (root : Tree) : Fragment :=
  let tb := initialTables f root
  let tb := root.sites.foldl Tables.linkBase tb
  (root.sites.foldl Tables.linkReference tb).fragment

end CodeGraph.Cpp
