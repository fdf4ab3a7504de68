import CodeGraph.Proofs.Linking.Definitions

/-!
The types of fields, in the table that tells the types of receivers and in the graph. Of several
declarations of a field the table keeps the type of the last one. The graph keeps the first of all
declarations with the ID. So the two agree exactly where these two declarations give one type.
-/

namespace CodeGraph

open CodeGraph.Tree (leaf)
open Declaration

def Node.dataType? (n : Node) : Option String :=
  (n.get? Key.dataType).bind Json.string?

/-- The data type of the node with an ID, if there is such a node and it has one. -/
def Fragment.dataTypeAt (g : Fragment) (id : String) : Option (Option String) :=
  (g.node? id).map Node.dataType?

theorem Fragment.dataTypeAt_addNode (g : Fragment) (n : Node) (id : String) :
    (g.addNode n).dataTypeAt id =
      (g.dataTypeAt id).or (if n.id = id then some n.dataType? else none) := by
  rw [dataTypeAt, node?_addNode, Option.map_or, dataTypeAt]
  split <;> rfl

@[simp] theorem Fragment.dataTypeAt_addEdge (g : Fragment) (source target relation id : String) :
    (g.addEdge source target relation).dataTypeAt id = g.dataTypeAt id := by
  rw [dataTypeAt, node?_addEdge, dataTypeAt]

namespace Declaration

variable (f : SourceFile) (t : Tree) (id label name : String)

theorem dataType?_spanning : (spanning f t id label name).dataType? = none := by
  rw [Node.dataType?, spanning, Node.get?_set_of_ne (by decide), Node.definition,
    Node.get?_set_of_ne (by decide), Node.get?_set_of_ne (by decide),
    Node.get?_set_of_ne (by decide)]
  rfl

theorem dataType?_routineNode (branches : List String) :
    (routineNode f branches t id label name).dataType? = none := by
  rw [Node.dataType?, routineNode, Node.get?_set_of_ne (by decide),
    Node.get?_set_of_ne (by decide)]
  exact dataType?_spanning f t id label name

theorem dataType?_fieldNode (typeText : String) :
    (fieldNode f t id label name typeText).dataType? = some typeText := by
  rw [Node.dataType?, fieldNode, Node.get?_set_self]
  rfl

end Declaration

namespace Cpp

/-! ### What a file declares -/

/-- What is declared under an ID: a field or a global with its type, or a class or function. -/
inductive Declared where
  | field (owner name typeText : String)
  | global (id typeText : String)
  | untyped (id : String)

namespace Declared

def id : Declared → String
  | field owner name _ => Ident.member owner name
  | global id _ => id
  | untyped id => id

def type? : Declared → Option String
  | field _ _ typeText => some typeText
  | global _ typeText => some typeText
  | untyped _ => none

def typeOf? (owner name : String) : Declared → Option String
  | field o n typeText => if o = owner ∧ n = name then some typeText else none
  | _ => none

theorem id_of_typeOf? {owner name typeText : String} {d : Declared}
    (h : d.typeOf? owner name = some typeText) : d.id = Ident.member owner name := by
  cases d with
  | field o n t =>
      obtain ⟨⟨rfl, rfl⟩, -⟩ := Option.ite_none_right_eq_some.mp h
      rfl
  | global | untyped => cases h

theorem type?_of_typeOf? {owner name typeText : String} {d : Declared}
    (h : d.typeOf? owner name = some typeText) : d.type? = some typeText := by
  cases d with
  | field o n t => exact (Option.ite_none_right_eq_some.mp h).2
  | global | untyped => cases h

/-- A table of types in front of which a field is put. -/
theorem lookup_cons_field (types : List ((String × String) × String))
    (o n typeText owner name : String) :
    (((o, n), typeText) :: types).lookup (owner, name) =
      ((field o n typeText).typeOf? owner name).or (types.lookup (owner, name)) := by
  rw [List.lookup_cons, typeOf?]
  by_cases h : o = owner ∧ n = name
  · obtain ⟨rfl, rfl⟩ := h
    simp
  · have hkey : ((owner, name) == (o, n)) = false := by
      refine beq_eq_false_iff_ne.mpr fun heq => h ?_
      exact ⟨(congrArg Prod.fst heq).symm, (congrArg Prod.snd heq).symm⟩
    rw [hkey, if_neg h, Option.none_or]

end Declared

/-- The field that a declarator in the body of a class declares, unless it is that of a method. -/
def declaredField? (src : Bytes) (owner typeText : String) (d : Tree) : Option Declared :=
  if (functionDeclarator? d).isSome then none
  else (d.declaredName? src).map fun name => .field owner name typeText

def declaredGlobal? (f : SourceFile) (typeText : String) (d : Tree) : Option Declared :=
  if (functionDeclarator? d).isSome then none
  else (d.declaredName? f.bytes).map fun name => .global (Ident.inFile f.path name) typeText

/-- What an item declares. The ID of a function depends on the classes and namespaces before it. -/
def Tables.declared (tb : Tables) : Item → List Declared
  | .class_ _ name => [.untyped (classId tb.file name)]
  | .function t owner =>
      ((functionName? tb.file.bytes t).map fun full =>
        .untyped (tb.functionTarget owner full).id).toList
  | .fields t owner =>
      (t.childrenIn "declarator").filterMap
        (declaredField? tb.file.bytes owner ((t.childText? tb.file.bytes "type").getD ""))
  | .globals t =>
      (t.childrenIn "declarator").filterMap
        (declaredGlobal? tb.file ((t.childText? tb.file.bytes "type").getD ""))
  | .space _ => []

def Tables.declaredAll (tb : Tables) : List Item → List Declared
  | [] => []
  | item :: is => tb.declared item ++ (tb.record item).declaredAll is

def declaredIn (f : SourceFile) (root : Tree) : List Declared :=
  (tablesAfter f root []).declaredAll (items f none root)

/-- The types with which a file declares a field, in order. -/
def declaredTypes (f : SourceFile) (root : Tree) (owner name : String) : List String :=
  (declaredIn f root).filterMap (Declared.typeOf? owner name)

/-! ### What recording adds to the two tables of types -/

namespace Tables

/-- Of the declarations, the graph takes the first with an ID, if the ID is new, and the table of
field types the last of a field. -/
structure Adds (tb : Tables) (ds : List Declared) (tb' : Tables) : Prop where
  file : tb'.file = tb.file
  graph : ∀ id, tb'.fragment.dataTypeAt id =
    (tb.fragment.dataTypeAt id).or ((ds.find? (·.id == id)).map Declared.type?)
  table : ∀ owner name, tb'.fieldType? owner name =
    (ds.filterMap (Declared.typeOf? owner name)).getLast?.or (tb.fieldType? owner name)

namespace Adds

variable {tb tb' tb'' : Tables} {ds ds' : List Declared}

theorem nothing (hfile : tb'.file = tb.file) (hfragment : tb'.fragment = tb.fragment)
    (htypes : tb'.fieldTypes = tb.fieldTypes) : tb.Adds [] tb' where
  file := hfile
  graph id := by rw [hfragment, List.find?_nil, Option.map_none, Option.or_none]
  table owner name := by rw [fieldType?, htypes, List.filterMap_nil]; rfl

theorem trans (h : tb.Adds ds tb') (h' : tb'.Adds ds' tb'') : tb.Adds (ds ++ ds') tb'' where
  file := h'.file.trans h.file
  graph id := by
    rw [h'.graph, h.graph, List.find?_append, Option.map_or, Option.or_assoc]
  table owner name := by
    rw [h'.table, h.table, List.filterMap_append, List.getLast?_append, Option.or_assoc]

/-- A node that is added under an ID is one declaration without a type, or with one. -/
theorem node {d : Declared} {n : Node} (hid : n.id = d.id)
    (htype : n.dataType? = d.type?) (hfile : tb'.file = tb.file)
    (hgraph : ∀ id, tb'.fragment.dataTypeAt id = (tb.fragment.addNode n).dataTypeAt id)
    (htable : ∀ owner name, tb'.fieldType? owner name =
      (d.typeOf? owner name).or (tb.fieldType? owner name)) : tb.Adds [d] tb' where
  file := hfile
  graph id := by
    rw [hgraph, Fragment.dataTypeAt_addNode, hid, htype]
    by_cases h : d.id = id <;> simp [h]
  table owner name := by
    rw [htable]
    cases h : d.typeOf? owner name <;> simp [h]

/-- Steps that each add what one tree declares add together what all of the trees declare. -/
theorem foldl {f : SourceFile} {step : Tables → Tree → Tables}
    {declared? : Tree → Option Declared}
    (hstep : ∀ (tb : Tables) d, tb.file = f → tb.Adds (declared? d).toList (step tb d))
    (ts : List Tree) (hfile : tb.file = f) :
    tb.Adds (ts.filterMap declared?) (ts.foldl step tb) := by
  induction ts generalizing tb with
  | nil => exact nothing rfl rfl rfl
  | cons t ts ih =>
      have hfirst := hstep tb t hfile
      have hall := hfirst.trans (ih (hfirst.file.trans hfile))
      cases hdeclared : declared? t <;> simpa [hdeclared] using hall

end Adds

variable (tb : Tables)

theorem adds_recordClass (t : Tree) (name : String) :
    tb.Adds [.untyped (classId tb.file name)] (tb.recordClass t name) := by
  refine .node rfl ?_ rfl (fun _ => rfl) fun _ _ => rfl
  rw [Node.dataType?, Node.get?_set_of_ne (by decide)]
  exact dataType?_spanning ..

theorem adds_recordFunction (t : Tree) (owner : Option String) :
    tb.Adds ((functionName? tb.file.bytes t).map fun full =>
      .untyped (tb.functionTarget owner full).id).toList (tb.recordFunction t owner) := by
  unfold recordFunction
  cases functionName? tb.file.bytes t with
  | none => exact .nothing rfl rfl rfl
  | some full =>
      dsimp only [Option.map_some, Option.toList_some]
      generalize tb.functionTarget owner full = d
      have htype := dataType?_routineNode tb.file t d.id d.label d.name branchKinds
      rcases d with ⟨id, label, name, _ | o⟩
      · exact .node rfl htype rfl (fun _ => rfl) fun _ _ => rfl
      · exact .node rfl htype rfl (fun _ => Fragment.dataTypeAt_addEdge ..) fun _ _ => rfl

theorem adds_recordField (owner typeText : String) (d : Tree) :
    tb.Adds (declaredField? tb.file.bytes owner typeText d).toList
      (tb.recordField owner typeText d) := by
  unfold recordField declaredField?
  cases d.declaredName? tb.file.bytes with
  | none => split <;> exact .nothing rfl rfl rfl
  | some name =>
      dsimp only
      split
      · exact .nothing rfl rfl rfl
      · exact .node rfl (dataType?_fieldNode ..) rfl (fun _ => Fragment.dataTypeAt_addEdge ..)
          fun _ _ => Declared.lookup_cons_field ..

theorem adds_recordGlobal (typeText : String) (d : Tree) :
    tb.Adds (declaredGlobal? tb.file typeText d).toList (tb.recordGlobal typeText d) := by
  unfold recordGlobal declaredGlobal?
  cases d.declaredName? tb.file.bytes with
  | none => split <;> exact .nothing rfl rfl rfl
  | some name =>
      dsimp only
      split
      · exact .nothing rfl rfl rfl
      · exact .node rfl (dataType?_fieldNode ..) rfl (fun _ => rfl) fun _ _ => rfl

/-- Recording an item adds what the item declares. -/
theorem adds_record (item : Item) : tb.Adds (tb.declared item) (tb.record item) := by
  cases item with
  | class_ t name => exact tb.adds_recordClass t name
  | function t owner => exact tb.adds_recordFunction t owner
  | fields t owner =>
      refine .foldl (fun tb' d hfile => ?_) _ rfl
      rw [← hfile]
      exact tb'.adds_recordField owner _ d
  | globals t =>
      refine .foldl (fun tb' d hfile => ?_) _ rfl
      rw [← hfile]
      exact tb'.adds_recordGlobal _ d
  | space name => exact .nothing rfl rfl rfl

theorem adds_foldl_record (is : List Item) : tb.Adds (tb.declaredAll is) (is.foldl record tb) := by
  induction is generalizing tb with
  | nil => exact .nothing rfl rfl rfl
  | cons item is ih => exact (tb.adds_record item).trans (ih (tb.record item))

end Tables

/-! ### Nodes of the analysis -/

/-- Linking references leaves the nodes as they were recorded. -/
theorem nodes_analyze (f : SourceFile) (root : Tree) :
    (analyze f root).nodes = (initialTables f root).fragment.nodes := by
  have hbases : (root.sites.foldl Tables.linkBase (initialTables f root)).fragment.nodes =
      (initialTables f root).fragment.nodes := by
    refine List.foldlRecOn (motive := fun tb : Tables => tb.fragment.nodes = _) _ _ rfl
      fun tb h s _ => ?_
    unfold Tables.linkBase
    split
    · exact h
    · exact (Fragment.nodes_addEdge ..).trans h
  refine List.foldlRecOn (motive := fun tb : Tables => tb.fragment.nodes = _) _ _ hbases
    fun tb h s _ => ?_
  unfold Tables.linkReference
  split
  · exact h
  · split
    · exact h
    · split
      · exact (Fragment.nodes_addEdge ..).trans h
      · exact h

/-! ### Agreement -/

section Agreement

variable (f : SourceFile) (root : Tree) (owner name : String)

/-- The type by which receivers of the name are resolved in the owner is the data type of the field
in the graph. -/
def TypeAgrees : Prop :=
  ∀ typeText, (initialTables f root).fieldType? owner name = some typeText →
    (initialTables f root).fragment.dataTypeAt (Ident.member owner name) =
      some (some typeText)

def FirstMatchesLast : Prop :=
  ∀ typeText, (declaredTypes f root owner name).getLast? = some typeText →
    ((declaredIn f root).find? (·.id == Ident.member owner name)).bind Declared.type? =
      some typeText

def OnlyField : Prop :=
  ∀ d ∈ declaredIn f root, d.id = Ident.member owner name → (d.typeOf? owner name).isSome

variable {f root owner name}

theorem find?_bind_type? {ds : List Declared}
    (h : ∀ d ∈ ds, d.id = Ident.member owner name → (d.typeOf? owner name).isSome) :
    (ds.find? (·.id == Ident.member owner name)).bind Declared.type? =
      (ds.filterMap (Declared.typeOf? owner name)).head? := by
  induction ds with
  | nil => rfl
  | cons d ds ih =>
      obtain ⟨hd, hds⟩ := List.forall_mem_cons.mp h
      by_cases hid : d.id = Ident.member owner name
      · obtain ⟨typeText, htype⟩ := Option.isSome_iff_exists.mp (hd hid)
        simp [hid, htype, Declared.type?_of_typeOf? htype]
      · have hother : d.typeOf? owner name = none :=
          Option.eq_none_iff_forall_ne_some.mpr fun _ h => hid (Declared.id_of_typeOf? h)
        simp [hid, hother, ih hds]

theorem fieldType?_initialTables :
    (initialTables f root).fieldType? owner name = (declaredTypes f root owner name).getLast? :=
  ((tablesAfter f root []).adds_foldl_record (items f none root)).table owner name |>.trans
    Option.or_none

theorem dataTypeAt_initialTables (id : String) :
    (initialTables f root).fragment.dataTypeAt id =
      ((declaredIn f root).find? (·.id == id)).map Declared.type? :=
  ((tablesAfter f root []).adds_foldl_record (items f none root)).graph id

/-- The type of a field in the table is that of the last declaration of the field, and agrees with
the graph exactly if the first declaration with the ID of the field gives that type. If nothing else
is declared under the ID, this says that the first and the last declaration of the field give one
type. -/
theorem field_type_agrees_iff (f : SourceFile) (root : Tree) :
    (analyze f root).nodes = (initialTables f root).fragment.nodes ∧
      ∀ owner name,
        (initialTables f root).fieldType? owner name =
          (declaredTypes f root owner name).getLast? ∧
        (TypeAgrees f root owner name ↔ FirstMatchesLast f root owner name) ∧
        (OnlyField f root owner name → (TypeAgrees f root owner name ↔
          (declaredTypes f root owner name).head? =
            (declaredTypes f root owner name).getLast?)) := by
  refine ⟨nodes_analyze f root, fun owner name => ?_⟩
  have hiff : TypeAgrees f root owner name ↔ FirstMatchesLast f root owner name := by
    unfold TypeAgrees FirstMatchesLast
    rw [fieldType?_initialTables, dataTypeAt_initialTables]
    refine forall₂_congr fun typeText _ => ?_
    rw [Option.map_eq_some_iff, Option.bind_eq_some_iff]
  refine ⟨fieldType?_initialTables, hiff, fun honly => hiff.trans ?_⟩
  rw [FirstMatchesLast, find?_bind_type? honly]
  constructor
  · intro h
    cases hlast : (declaredTypes f root owner name).getLast? with
    | none => rw [List.getLast?_eq_none_iff.mp hlast, List.head?_nil]
    | some typeText => exact h typeText hlast
  · intro h typeText hlast
    exact h.trans hlast

end Agreement

namespace Sample

def structTree (key start stop : Nat) (body : List Tree) : Tree :=
  .node { kind := "struct_specifier", start, stop, key }
    [leaf "type_identifier" "name" (key + 1) (start + 7) (start + 8),
      .node { kind := "field_declaration_list", field := "body", start := start + 9, stop,
              key := key + 2 } body]

def fieldTree (key start : Nat) : Tree :=
  .node { kind := "field_declaration", start, stop := start + 4, key }
    [leaf "type_identifier" "type" (key + 1) start (start + 1),
      leaf "field_identifier" "declarator" (key + 2) (start + 2) (start + 3)]

/-- A field with one type in the one branch of a condition and with another type in the other one,
and a call of a method that both types have. -/
def branches : SourceFile × Tree :=
  (⟨"a.cpp", Utf8.encode ("struct A \x7b void m(); \x7d;\nstruct B \x7b void m(); \x7d;\n" ++
      "struct C \x7b\n#ifdef W\nA x;\n#else\nB x;\n#endif\n" ++
      "void r() \x7b x.m(); \x7d\n\x7d;\n").toList⟩,
    .node { kind := "translation_unit", stop := 114 }
      [structTree 1 0 22 [prototype 4 11], structTree 9 24 46 [prototype 12 35],
        structTree 17 48 112
          [.node { kind := "preproc_ifdef", start := 59, stop := 90, key := 20 }
            [leaf "identifier" "name" 21 66 67, fieldTree 22 68,
              .node { kind := "preproc_else", field := "alternative", start := 73, stop := 83,
                      key := 25 }
                [fieldTree 26 79]],
            .node { kind := "function_definition", start := 91, stop := 110, key := 29 }
              [leaf "primitive_type" "type" 30 91 95, head 31 96,
                .node { kind := "compound_statement", field := "body", start := 100, stop := 110,
                        key := 34 }
                  [.node { kind := "expression_statement", start := 102, stop := 108, key := 35 }
                    [call 36 102 105 107
                      (.node { kind := "field_expression", field := "function", start := 102,
                               stop := 105, key := 38 }
                        [leaf "identifier" "argument" 39 102 103,
                          leaf "field_identifier" "field" 40 104 105]) []]]]]])

end Sample

/-- Where the branches of a condition declare a field with two types, the graph has the one and
calls go to the other. -/
theorem field_type_differs_in_branches :
    (initialTables Sample.branches.1 Sample.branches.2).fieldType? "a.cpp:C" "x" = some "B" ∧
      (initialTables Sample.branches.1 Sample.branches.2).fragment.dataTypeAt "a.cpp:C:x" =
        some (some "A") ∧
      ⟨"a.cpp:C:r", "a.cpp:B:m", Relation.calls⟩ ∈
        (analyze Sample.branches.1 Sample.branches.2).edges := by
  decide +kernel

end Cpp

end CodeGraph
