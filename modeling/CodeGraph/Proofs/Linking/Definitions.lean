import CodeGraph.Proofs.Graph.Lookup
import CodeGraph.Proofs.Linking.FunctionCalls
import CodeGraph.Proofs.Linking.ScopedNames

/-!
Definitions outside their class. The scope in the name of a function definition tells the class that
it belongs to. If that is a class of the file with a prototype of the function, the definition has
the ID of the prototype, unless the scope is cut at a segment of another name: template arguments
of a segment before the class attach the definition to the class that this segment names.
-/

namespace CodeGraph.Cpp

open CodeGraph.Tree (Site OwnedSite Search Way leaf)
open Declaration

/-! ### Prototypes -/

/-- The body of the class declares a method of the name without defining it. -/
def DeclaresPrototype (src : Bytes) (cls : Tree) (name : String) : Prop :=
  ∃ body ∈ cls.child? "body", ∃ p ∈ body.children, p.kind = "field_declaration" ∧
    ∃ d ∈ p.childrenIn "declarator",
      (functionDeclarator? d).isSome ∧ d.declaredName? src = some name

instance (src : Bytes) (cls : Tree) (name : String) : Decidable (DeclaresPrototype src cls name) :=
  inferInstanceAs (Decidable (∃ body ∈ cls.child? "body", _))

section Items

variable {f : SourceFile} {cls : Tree} {name : String}

/-- The search comes to what stands in the body of a class with the class as its owner. -/
theorem Reaches.of_class {root : Tree} {x : OwnedSite} (hx : Reaches f root x)
    (hclass : .class_ cls name ∈ itemsAt f x) {body p : Tree}
    (hbody : cls.child? "body" = some body) (hp : p ∈ body.children) :
    ∃ above, Reaches f root (⟨p, above⟩, some (classId f name)) := by
  have hfound : x.1.node.isKind classKinds = true ∧ className? f.bytes x.1.node = some name ∧
      x.1.node = cls := by
    unfold itemsAt at hclass
    dsimp only at hclass
    split at hclass
    case isTrue hkind =>
      obtain ⟨_, hname, heq⟩ := Option.map_eq_some_iff.mp (Option.mem_toList.mp hclass)
      cases heq
      exact ⟨hkind, hname, rfl⟩
    case isFalse =>
      split at hclass
      · cases List.mem_singleton.mp hclass
      · exact (from_of_mem_ownItems (Q := fun _ => False) hclass).elim
  obtain ⟨hkind, hname, rfl⟩ := hfound
  have honward : (search f).onward x = (.inBody, some (classId f name)) := by
    rw [show (search f).onward x = onward f x from rfl, onward, if_pos hkind, hname]
  refine ⟨body :: x.1.node :: x.1.above, hx.tail (Search.mem_inside_iff.mpr ?_)⟩
  rw [honward]
  exact ⟨Way.mem_sites_inBody.mpr ⟨body, hbody, p, hp, rfl⟩, rfl⟩

theorem fields_mem_items {root : Tree} (hclass : .class_ cls name ∈ items f none root)
    {body p : Tree} (hbody : cls.child? "body" = some body) (hp : p ∈ body.children)
    (hkind : p.kind = "field_declaration") : .fields p (classId f name) ∈ items f none root := by
  obtain ⟨x, hx, hclass⟩ := mem_items_iff.mp hclass
  obtain ⟨above, hfield⟩ := hx.of_class hclass hbody hp
  refine mem_items_iff.mpr ⟨_, hfield, ?_⟩
  simp [itemsAt, ownItems, Tree.isKind, hkind, classKinds]

end Items

namespace Tables

theorem isSome_memberOf?_addMember (tb : Tables) (owner name id : String) :
    ((tb.addMember owner name id).memberOf? owner name).isSome := by
  simp [memberOf?, addMember, Bindings.get?_bind]

theorem Extends.isSome_memberOf? {tb tb' : Tables} (h : tb.Extends tb') {owner name : String}
    (hname : (tb.memberOf? owner name).isSome) : (tb'.memberOf? owner name).isSome := by
  obtain ⟨id, hid⟩ := Option.isSome_iff_exists.mp hname
  exact Option.isSome_iff_exists.mpr ⟨id, h.members _ _ id hid⟩

end Tables

variable {f : SourceFile} {root : Tree} {name : String}

/-- What is known as a member of a class is found under the ID of the class and its name. -/
theorem member_initialTables {owner : String}
    (h : ((initialTables f root).memberOf? owner name).isSome) :
    (initialTables f root).member owner name = Ident.member owner name := by
  obtain ⟨id, hid⟩ := Option.isSome_iff_exists.mp h
  rw [Tables.member, hid]
  exact (lists_initialTables f root).members _ _ id hid

/-- A class has the members of which it declares a prototype, wherever they are defined. -/
theorem isSome_memberOf?_of_declaresPrototype {cls : Tree} {C : String}
    (hclass : .class_ cls C ∈ items f none root) (hprototype : DeclaresPrototype f.bytes cls name) :
    ((initialTables f root).memberOf? (classId f C) name).isSome := by
  obtain ⟨body, hbody, p, hp, hkind, d, hd, hfunction, hname⟩ := hprototype
  let InFile (tb : Tables) : Prop := tb.file = f
  let Knows (tb : Tables) : Prop := (tb.memberOf? (classId f C) name).isSome
  have hdeclarator (tb : Tables) (typeText : String) (hfile : InFile tb) :
      Knows (tb.recordField (classId f C) typeText d) := by
    unfold Tables.recordField
    rw [show tb.file = f from hfile, hname]
    dsimp only
    rw [if_pos hfunction]
    exact Tables.isSome_memberOf?_addMember ..
  refine foldl_of_mem (I := InFile) (Q := Knows) (fields_mem_items hclass hbody hp hkind) rfl
    (fun tb item _ hfile => (tb.extends_record item).file.trans hfile) ?_
    fun tb item _ => (tb.extends_record item).isSome_memberOf?
  intro tb hfile
  exact foldl_of_mem (I := InFile) (Q := Knows) hd hfile
    (fun tb e _ hfile => (tb.extends_recordField _ _ e).file.trans hfile)
    (fun tb hfile => hdeclarator tb _ hfile)
    fun tb e _ => (tb.extends_recordField _ _ e).isSome_memberOf?

/-! ### Targets of qualified definitions -/

namespace Tables

variable {tb : Tables} {includes symbols classes spaces : List String} {functions : List Tree}

/-- A qualified definition belongs to the class that its scope stands for, unless that is only a
namespace. -/
theorem functionTarget_of_cutLastOn? (h : tb.Lists f includes symbols classes spaces functions)
    (owner : Option String) {full scope : String}
    (hcut : Text.cutLastOn? "::" full = some (scope, name)) :
    tb.functionTarget owner full =
      if scopeName scope ∈ spaces ∧ scopeName scope ∉ classes then
        ⟨Ident.inFile f.path full, Label.function, name, none⟩
      else
        ⟨Ident.member (classId f (scopeName scope)) name, Label.method, name,
          some (classId f (scopeName scope))⟩ := by
  have hclass : (tb.classes.get? (scopeName scope)).getD (Ident.inFile f.path (scopeName scope)) =
      classId f (scopeName scope) := by
    cases hid : tb.classes.get? (scopeName scope) with
    | none => rfl
    | some id => exact h.classIds _ id hid
  have hspace : (tb.namespaces.contains (scopeName scope) &&
      !tb.classes.contains (scopeName scope)) = true ↔
      scopeName scope ∈ spaces ∧ scopeName scope ∉ classes := by
    rw [Bool.and_eq_true, Bool.not_eq_true', ← Bool.not_eq_true, SymbolTable.contains,
      h.classes.isSome_iff, h.namespaces, List.contains_iff_mem]
  unfold functionTarget
  rw [hcut]
  dsimp only
  rw [h.file, hclass]
  by_cases hcases : scopeName scope ∈ spaces ∧ scopeName scope ∉ classes
  · rw [if_pos hcases, if_pos (hspace.mpr hcases)]
  · rw [if_neg hcases, if_neg (mt hspace.mp hcases)]

/-- A function definition that is new is registered with its target, which gets a node unless its
ID is taken. The class that it belongs to has it as a member, with an edge. -/
theorem recordFunction_new {u : Tree} {full : String} (hfile : tb.file = f)
    (hfull : functionName? f.bytes u = some full) (hnew : tb.routines.get? u.key = none)
    (owner : Option String) {d : Target} (hd : tb.functionTarget owner full = d) :
    (tb.recordFunction u owner).routines.get? u.key = some ⟨d.id, d.owner⟩ ∧
      (tb.recordFunction u owner).fragment.node? d.id =
        some ((tb.fragment.node? d.id).getD (routineNode f branchKinds u d.id d.label d.name)) ∧
      ∀ o ∈ d.owner, ((tb.recordFunction u owner).memberOf? o d.name).isSome ∧
        ⟨o, d.id, Relation.hasMethod⟩ ∈ (tb.recordFunction u owner).fragment.edges := by
  have hnode : (tb.fragment.addNode (routineNode f branchKinds u d.id d.label d.name)).node? d.id =
      some ((tb.fragment.node? d.id).getD (routineNode f branchKinds u d.id d.label d.name)) := by
    have hid : (routineNode f branchKinds u d.id d.label d.name).id = d.id := rfl
    rw [Fragment.node?_addNode, if_pos hid]
    cases tb.fragment.node? d.id <;> rfl
  have hroutine : (tb.routines.bind u.key ⟨d.id, d.owner⟩).get? u.key = some ⟨d.id, d.owner⟩ := by
    rw [Bindings.get?_bind, hnew, if_pos rfl, Option.none_or]
  unfold recordFunction
  rw [hfile, hfull]
  dsimp only
  rw [hd]
  rcases d with ⟨id, label, own, _ | o⟩
  · exact ⟨hroutine, hnode, fun o ho => nomatch ho⟩
  · refine ⟨hroutine, (Fragment.node?_addEdge ..).trans hnode, fun o' ho' => ?_⟩
    cases ho'
    exact ⟨isSome_memberOf?_addMember .., Fragment.mem_edges_addEdge.mpr (.inr rfl)⟩

end Tables

/-! ### Definitions among the items of a file -/

section Analysis

variable {before after : List Item} {u : Tree} {owner : Option String}

/-- A function definition is not registered before its turn. -/
theorem routines_tablesAfter_eq_none (hkeys : (root.sites.map (·.node.key)).Nodup)
    (hitems : items f none root = before ++ .function u owner :: after) :
    (tablesAfter f root before).routines.get? u.key = none := by
  refine Option.eq_none_iff_forall_ne_some.mpr fun r hr => ?_
  obtain ⟨t, ht, hkey⟩ := (lists_tablesAfter f root before).routines _ _ hr
  have hnodup : (((items f none root).flatMap Item.functions).map Tree.key).Nodup := by
    have hsublist := ((functions_items f root).trans List.filter_sublist).map Tree.key
    rw [← Tree.map_node_sitesUnder [] root, List.map_map] at hsublist
    exact hkeys.sublist hsublist
  rw [hitems, List.flatMap_append, List.flatMap_cons, List.map_append, List.nodup_append] at hnodup
  exact hnodup.2.2 _ (List.mem_map_of_mem ht) _ (List.mem_map_of_mem List.mem_cons_self) hkey

/-- What is known after some of the items is known in the end. -/
theorem extends_initialTables (hitems : items f none root = before ++ .function u owner :: after) :
    ((tablesAfter f root before).recordFunction u owner).Extends (initialTables f root) := by
  rw [initialTables_eq_tablesAfter, hitems, tablesAfter, tablesAfter, List.foldl_append,
    List.foldl_cons]
  exact Tables.Extends.foldl Tables.extends_record after _

theorem exists_extends_analyze (f : SourceFile) (root : Tree) :
    ∃ tb, (initialTables f root).Extends tb ∧ tb.fragment = analyze f root :=
  ⟨_, (Tables.Extends.foldl Tables.extends_linkBase _ _).trans
    (Tables.Extends.foldl Tables.extends_linkReference _ _), rfl⟩

/-- A function definition has the target that its name has when it is recorded. -/
theorem definition_registered (hkeys : (root.sites.map (·.node.key)).Nodup)
    (hitems : items f none root = before ++ .function u owner :: after) {full : String}
    (hfull : Tables.functionName? f.bytes u = some full) {d : Target}
    (hd : (tablesAfter f root before).functionTarget owner full = d) :
    (initialTables f root).routines.get? u.key = some ⟨d.id, d.owner⟩ ∧
      (analyze f root).node? d.id = some (((tablesAfter f root before).fragment.node? d.id).getD
        (routineNode f branchKinds u d.id d.label d.name)) ∧
      ∀ o ∈ d.owner, (initialTables f root).member o d.name = Ident.member o d.name ∧
        ⟨o, d.id, Relation.hasMethod⟩ ∈ (analyze f root).edges := by
  obtain ⟨hroutine, hnode, howner⟩ := Tables.recordFunction_new
    (lists_tablesAfter f root before).file hfull (routines_tablesAfter_eq_none hkeys hitems)
    owner hd
  have hinitial := extends_initialTables hitems
  obtain ⟨tb, hfinal, hfragment⟩ := exists_extends_analyze f root
  rw [← hfragment]
  refine ⟨hinitial.routines _ _ hroutine, (hinitial.trans hfinal).nodes _ _ hnode,
    fun o ho => ?_⟩
  obtain ⟨hmember, hedge⟩ := howner o ho
  exact ⟨member_initialTables (hinitial.isSome_memberOf? hmember),
    (hinitial.trans hfinal).edges hedge⟩

/-- The definition is a method of the class: calls of the member are linked to it, and it has an
edge from the class and a node as a method, unless the items before it took its ID. -/
structure MethodOf (f : SourceFile) (root : Tree) (before : List Item) (u : Tree) (r : Routine)
    (owner name : String) : Prop where
  routine : r = ⟨Ident.member owner name, some owner⟩
  member : (initialTables f root).member owner name = r.id
  edge : ⟨owner, r.id, Relation.hasMethod⟩ ∈ (analyze f root).edges
  node : (analyze f root).node? r.id = some (((tablesAfter f root before).fragment.node? r.id).getD
    (routineNode f branchKinds u r.id Label.method name))

/-- The definition of a method outside its class has the ID of a member of the class, which is that
of a prototype in the class, exactly if the scope in its name is cut at a segment of the name of the
class. In that case, and whenever it is cut at a segment that does not have the name of a namespace,
the definition is a method of the class of that segment. -/
theorem definition_meets_prototype_iff {cls : Tree} {segments : List Segment} {C D : Segment}
    (hkeys : (root.sites.map (·.node.key)).Nodup)
    (hitems : items f none root = before ++ .function u owner :: after)
    (hclass : .class_ cls C.name ∈ before)
    (hfull : Tables.functionName? f.bytes u = some (scopeText segments C ++ "::" ++ name))
    (hplain : ∀ s ∈ segments ++ [C], s.Plain) (hname : ':' ∉ name.toList)
    (hcut : cutSegment segments C = D) :
    (DeclaresPrototype f.bytes cls name →
        (initialTables f root).member (classId f C.name) name =
          Ident.member (classId f C.name) name) ∧
      ∃ r, (initialTables f root).routines.get? u.key = some r ∧ r.id ∈ (analyze f root).ids ∧
        (r.id = Ident.member (classId f C.name) name ↔ D.name = C.name) ∧
        (D.name = C.name ∨ D.name ∉ spaceNames f root →
          MethodOf f root before u r (classId f D.name) name) := by
  have htarget := Tables.functionTarget_of_cutLastOn? (lists_tablesAfter f root before) owner
    (cutLastOn?_scopeText segments C hname)
  rw [scopeName_scopeText hplain, hcut] at htarget
  refine ⟨fun hprototype => member_initialTables (isSome_memberOf?_of_declaresPrototype
    (hitems ▸ List.mem_append_left _ hclass) hprototype), ?_⟩
  split at htarget
  case isTrue hspace =>
    -- The scope is that of a namespace, so it does not stand for the class.
    obtain ⟨hroutine, hnode, -⟩ := definition_registered hkeys hitems hfull htarget
    have hD : D.name ≠ C.name := fun heq => hspace.2
      (heq ▸ List.mem_flatMap.mpr ⟨_, hclass, List.mem_singleton_self _⟩)
    refine ⟨_, hroutine, Fragment.isSome_node?_iff_mem.mp (Option.isSome_of_eq_some hnode), ?_, ?_⟩
    · refine iff_of_false (fun hid => scoped_ne_member segments C name ?_) hD
      simpa [Ident.inFile, Ident.member, classId, String.append_assoc] using hid
    · have hfile : D.name ∈ spaceNames f root := by
        rw [spaceNames, hitems, List.flatMap_append]
        exact List.mem_append_left _ hspace.1
      rintro (heq | hfree)
      · exact absurd heq hD
      · exact absurd hfile hfree
  case isFalse =>
    obtain ⟨hroutine, hnode, howner⟩ := definition_registered hkeys hitems hfull htarget
    obtain ⟨hmember, hedge⟩ := howner _ rfl
    refine ⟨_, hroutine, Fragment.isSome_node?_iff_mem.mp (Option.isSome_of_eq_some hnode), ?_,
      fun _ => ⟨rfl, hmember, hedge, hnode⟩⟩
    simp [Ident.member, classId, Ident.inFile]

end Analysis

namespace Sample

def HasPrototype (src : Bytes) (C name : String) : Item → Prop
  | .class_ cls own => own = C ∧ DeclaresPrototype src cls name
  | _ => False

instance (src : Bytes) (C name : String) : DecidablePred (HasPrototype src C name)
  | .class_ .. => inferInstanceAs (Decidable (_ ∧ _))
  | .function .. | .fields .. | .globals _ | .space _ => inferInstanceAs (Decidable False)

def HasName (src : Bytes) (full : String) : Item → Prop
  | .function u _ => Tables.functionName? src u = some full
  | _ => False

instance (src : Bytes) (full : String) : DecidablePred (HasName src full)
  | .function .. => inferInstanceAs (Decidable (_ = _))
  | .class_ .. | .fields .. | .globals _ | .space _ => inferInstanceAs (Decidable False)

/-- An item of the file defines a method under a scope, and a class before it has a prototype. -/
def DefinesAt (x : SourceFile × Tree) (segments : List Segment) (C : Segment) (name : String)
    (n : Nat) : Prop :=
  (∃ item ∈ (items x.1 none x.2).take n, HasPrototype x.1.bytes C.name name item) ∧
    ∃ item ∈ (items x.1 none x.2)[n]?,
      HasName x.1.bytes (scopeText segments C ++ "::" ++ name) item

instance (x : SourceFile × Tree) (segments : List Segment) (C : Segment) (name : String) (n : Nat) :
    Decidable (DefinesAt x segments C name n) :=
  inferInstanceAs (Decidable (_ ∧ _))

theorem exists_items_of_definesAt {x : SourceFile × Tree} {segments : List Segment} {C : Segment}
    {name : String} {n : Nat} (h : DefinesAt x segments C name n) :
    ∃ u owner cls, items x.1 none x.2 =
        (items x.1 none x.2).take n ++ .function u owner :: (items x.1 none x.2).drop (n + 1) ∧
      .class_ cls C.name ∈ (items x.1 none x.2).take n ∧ DeclaresPrototype x.1.bytes cls name ∧
      Tables.functionName? x.1.bytes u = some (scopeText segments C ++ "::" ++ name) := by
  obtain ⟨⟨item, hitem, hclass⟩, item', hitem', hfull⟩ := h
  cases item with
  | class_ cls own =>
      cases item' with
      | function u owner =>
          obtain ⟨rfl, hprototype⟩ := hclass
          obtain ⟨hn, hget⟩ := List.getElem?_eq_some_iff.mp hitem'
          refine ⟨u, owner, cls, ?_, hitem, hprototype, hfull⟩
          rw [← hget, List.getElem_cons_drop, List.take_append_drop]
      | _ => exact hfull.elim
  | _ => exact hclass.elim

def prototype (key start : Nat) : Tree :=
  .node { kind := "field_declaration", start, stop := start + 9, key }
    [leaf "primitive_type" "type" (key + 1) start (start + 4), head (key + 2) (start + 5)]

def template (key start stop : Nat) (declaration : Tree) : Tree :=
  .node { kind := "template_declaration", start, stop, key }
    [leaf "template_parameter_list" "parameters" (key + 1) (start + 8) (start + 17), declaration]

def definition (key start stop : Nat) : Tree :=
  .node { kind := "function_definition", start, stop := stop + 6, key }
    [leaf "primitive_type" "type" (key + 1) start (start + 4),
      .node { kind := "function_declarator", field := "declarator", start := start + 5,
              stop := stop + 2, key := key + 2 }
        [leaf "qualified_identifier" "declarator" (key + 3) (start + 5) stop,
          leaf "parameter_list" "parameters" (key + 4) stop (stop + 2)],
      leaf "compound_statement" "body" (key + 5) (stop + 3) (stop + 6)]

/-- A class template with a class in it, and the definitions of a method of each behind it. -/
def templates : SourceFile × Tree :=
  (⟨"a.cpp", Utf8.encode ("template<class T> struct A \x7b struct C \x7b void m(); \x7d; " ++
      "void n(); \x7d; template<class T> void A<T>::n() \x7b \x7d " ++
      "template<class T> void A<T>::C::m() \x7b \x7d").toList⟩,
    .node { kind := "translation_unit", stop := 142 }
      [template 1 0 65
        (.node { kind := "struct_specifier", start := 18, stop := 64, key := 3 }
          [leaf "type_identifier" "name" 4 25 26,
            .node { kind := "field_declaration_list", field := "body", start := 27, stop := 64,
                    key := 5 }
              [.node { kind := "field_declaration", start := 29, stop := 52, key := 6 }
                [.node { kind := "struct_specifier", field := "type", start := 29, stop := 51,
                         key := 7 }
                  [leaf "type_identifier" "name" 8 36 37,
                    .node { kind := "field_declaration_list", field := "body", start := 38,
                            stop := 51, key := 9 }
                      [prototype 10 40]]],
                prototype 15 53]]),
        template 20 66 102 (definition 22 84 96), template 28 103 142 (definition 30 121 136)])

end Sample

/-- The definition of a method of a class template has the ID of its prototype. -/
theorem template_method_meets_prototype :
    Sample.DefinesAt Sample.templates [] ⟨"A", some "T"⟩ "n" 5 ∧
      ⟨"a.cpp:A", "a.cpp:A:n", Relation.hasMethod⟩ ∈
        (analyze Sample.templates.1 Sample.templates.2).edges ∧
      "a.cpp:A:n" ∈ (analyze Sample.templates.1 Sample.templates.2).ids := by
  have hdefines : Sample.DefinesAt Sample.templates [] ⟨"A", some "T"⟩ "n" 5 := by decide +kernel
  obtain ⟨u, owner, cls, hitems, hclass, -, hfull⟩ := Sample.exists_items_of_definesAt hdefines
  obtain ⟨-, r, -, hnode, -, hmethod⟩ := definition_meets_prototype_iff (by decide +kernel) hitems
    hclass hfull (by decide) (by decide) rfl
  obtain ⟨rfl, -, hedge, -⟩ := hmethod (.inl rfl)
  exact ⟨hdefines, hedge, hnode⟩

/-- The definition of a method of a class in a class template has another ID than its prototype. -/
theorem nested_method_misses_prototype :
    Sample.DefinesAt Sample.templates [⟨"A", some "T"⟩] ⟨"C", none⟩ "m" 6 ∧
      (initialTables Sample.templates.1 Sample.templates.2).member "a.cpp:C" "m" = "a.cpp:C:m" ∧
      "a.cpp:C:m" ∉ (analyze Sample.templates.1 Sample.templates.2).ids := by
  decide +kernel

end CodeGraph.Cpp
