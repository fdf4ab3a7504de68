import CodeGraph.Proofs.Graph.Making
import CodeGraph.Proofs.Linking.GrowingTables
import CodeGraph.Proofs.Linking.Scopes
import CodeGraph.Proofs.Linking.Sites
import Mathlib.Data.List.Nodup

/-!
No call of a C or C++ file is lost. While items are recorded, the tables list what the items
declare; while references are linked, only edges are added. So the call of a name that is no local
is linked to the function around it, whatever the tables hold: to the member of the class around
the function, else to the symbol of the file, and to the unknown entity of that name if nothing in
the file or its headers explains it. The call of a member is linked in any case.
-/

namespace CodeGraph.Cpp

open CodeGraph.Tree (Site leaf)

/-! ### What the items of a file declare -/

def unqualified (name : String) : String :=
  match Text.cutLastOn? "::" name with
  | some (_, own) => own
  | none => name

/-- The name that a declarator of a field makes a symbol; that of a prototype makes none. -/
def fieldSymbols (src : Bytes) (declarator : Tree) : List String :=
  if (functionDeclarator? declarator).isSome then [] else (declarator.declaredName? src).toList

namespace Item

def symbolNames (src : Bytes) : Item → List String
  | .function t _ =>
      match Tables.functionName? src t with
      | some name => [name, unqualified name]
      | none => []
  | .fields t _ => (t.childrenIn "declarator").flatMap (fieldSymbols src)
  | .globals t => (t.childrenIn "declarator").flatMap fun d => (d.declaredName? src).toList
  | _ => []

def classNames : Item → List String
  | .class_ _ name => [name]
  | _ => []

def spaceNames : Item → List String
  | .space name => [name]
  | _ => []

def functions : Item → List Tree
  | .function t _ => [t]
  | _ => []

end Item

/-- The names of the functions, fields and globals of a file. -/
def symbolNames (f : SourceFile) (root : Tree) : List String :=
  (items f none root).flatMap (Item.symbolNames f.bytes)

def classNames (f : SourceFile) (root : Tree) : List String :=
  (items f none root).flatMap Item.classNames

def spaceNames (f : SourceFile) (root : Tree) : List String :=
  (items f none root).flatMap Item.spaceNames

def includedPaths (f : SourceFile) (root : Tree) : List String :=
  (Import.includes f.bytes root).map (·.path)

/-! ### Recording items -/

namespace Tables

/-- The tables hold what is listed, and give every class the ID of its name and every member that of
its owner and name. -/
structure Lists (f : SourceFile) (includes symbols classes spaces : List String)
    (functions : List Tree) (tb : Tables) : Prop where
  file : tb.file = f
  includes : tb.includes = includes
  symbols : tb.symbols.Lists symbols
  classes : tb.classes.Lists classes
  classIds : ∀ name id, tb.classes.get? name = some id → id = classId f name
  namespaces : tb.namespaces = spaces
  members : ∀ owner name id, tb.memberOf? owner name = some id → id = Ident.member owner name
  routines : ∀ key r, tb.routines.get? key = some r → ∃ t ∈ functions, t.key = key

theorem name_functionTarget (tb : Tables) (owner : Option String) (full : String) :
    (tb.functionTarget owner full).name = unqualified full := by
  unfold functionTarget unqualified
  cases Text.cutLastOn? "::" full with
  | none => cases owner <;> rfl
  | some parts =>
      dsimp only
      split <;> rfl

/-- What belongs to a class has the ID of a member of that class. -/
theorem id_functionTarget {tb : Tables} {owner : Option String} {full o : String}
    (h : (tb.functionTarget owner full).owner = some o) :
    (tb.functionTarget owner full).id = Ident.member o (tb.functionTarget owner full).name := by
  unfold functionTarget at h ⊢
  cases hcut : Text.cutLastOn? "::" full with
  | none =>
      rw [hcut] at h
      cases owner with
      | none => cases h
      | some owner =>
          cases h
          rfl
  | some parts =>
      rw [hcut] at h
      dsimp only at h ⊢
      split at h
      case isTrue => cases h
      case isFalse hscope =>
        cases h
        rw [if_neg hscope]

variable {f : SourceFile} {includes symbols classes spaces : List String} {functions : List Tree}
  {tb : Tables}

/-- A further member keeps the IDs of members in order. -/
theorem memberOf?_addMember {owner name id : String} (hid : id = Ident.member owner name)
    (h : ∀ owner name id, tb.memberOf? owner name = some id → id = Ident.member owner name) :
    ∀ o n i, (tb.addMember owner name id).memberOf? o n = some i → i = Ident.member o n := by
  intro o n i hi
  rw [memberOf?, addMember, Bindings.get?_bind, Option.or_eq_some_iff] at hi
  rcases hi with hi | ⟨-, hi⟩
  · exact h o n i hi
  · split at hi
    case isTrue heq =>
      cases hi
      cases heq
      exact hid
    case isFalse => cases hi

theorem Lists.recordClass (h : tb.Lists f includes symbols classes spaces functions) (t : Tree)
    (name : String) :
    (tb.recordClass t name).Lists f includes symbols (classes ++ [name]) spaces functions := by
  obtain rfl := h.file
  refine { h with classes := h.classes.insert _ _, classIds := fun key id hid => ?_ }
  rw [Tables.recordClass, SymbolTable.get?_insert h.classes.ignoresCase,
    Option.or_eq_some_iff] at hid
  rcases hid with hid | ⟨-, hid⟩
  · exact h.classIds key id hid
  · split at hid
    case isTrue hkey =>
      cases hid
      rw [hkey]
    case isFalse => cases hid

theorem Lists.recordFunction (h : tb.Lists f includes symbols classes spaces functions) (t : Tree)
    (owner : Option String) :
    (tb.recordFunction t owner).Lists f includes
      (symbols ++ (Item.function t owner).symbolNames f.bytes) classes spaces
      (functions ++ [t]) := by
  have hroutines : ∀ key r, tb.routines.get? key = some r →
      ∃ u ∈ functions ++ [t], u.key = key := by
    intro key r hr
    obtain ⟨u, hu, hkey⟩ := h.routines key r hr
    exact ⟨u, List.mem_append_left _ hu, hkey⟩
  unfold Tables.recordFunction
  rw [h.file, Item.symbolNames]
  cases functionName? f.bytes t with
  | none =>
      rw [List.append_nil]
      exact { h with routines := hroutines }
  | some full =>
      dsimp only
      have hsymbols : ((tb.symbols.insert full (tb.functionTarget owner full).id).insert
          (tb.functionTarget owner full).name (tb.functionTarget owner full).id).Lists
          (symbols ++ [full, unqualified full]) := by
        rw [name_functionTarget, List.append_cons]
        exact (h.symbols.insert _ _).insert _ _
      have hbound (r : Routine) : ∀ key r', (tb.routines.bind t.key r).get? key = some r' →
          ∃ u ∈ functions ++ [t], u.key = key := by
        intro key r' hr
        rw [Bindings.get?_bind, Option.or_eq_some_iff] at hr
        rcases hr with hr | ⟨-, hr⟩
        · exact hroutines key r' hr
        · split at hr
          case isTrue heq => exact ⟨t, by simp, heq.symm⟩
          case isFalse => cases hr
      have hid := @id_functionTarget tb owner full
      generalize tb.functionTarget owner full = d at hsymbols hid ⊢
      rcases d with ⟨id, label, name, _ | o⟩
      · exact { h with symbols := hsymbols, routines := hbound _ }
      · exact { h with
          symbols := hsymbols
          members := memberOf?_addMember (hid rfl) h.members
          routines := hbound _ }

theorem Lists.recordField (h : tb.Lists f includes symbols classes spaces functions)
    (owner typeText : String) (d : Tree) :
    (tb.recordField owner typeText d).Lists f includes (symbols ++ fieldSymbols f.bytes d) classes
      spaces functions := by
  unfold Tables.recordField fieldSymbols
  rw [h.file]
  cases hname : d.declaredName? f.bytes with
  | none => simpa using h
  | some name =>
      have hmembers := memberOf?_addMember (rfl : _ = Ident.member owner name) h.members
      dsimp only
      split
      · rw [List.append_nil]
        exact { h with members := hmembers }
      · exact { h with symbols := h.symbols.insert _ _, members := hmembers }

theorem Lists.recordGlobal (h : tb.Lists f includes symbols classes spaces functions)
    (typeText : String) (d : Tree) :
    (tb.recordGlobal typeText d).Lists f includes (symbols ++ (d.declaredName? f.bytes).toList)
      classes spaces functions := by
  unfold Tables.recordGlobal
  rw [h.file]
  cases hname : d.declaredName? f.bytes with
  | none => simpa using h
  | some name =>
      dsimp only
      split <;> exact { h with symbols := h.symbols.insert _ _ }

/-- Declarators are recorded one after the other. -/
theorem Lists.foldl {record : Tables → Tree → Tables} {names : Tree → List String}
    (hrecord : ∀ {tb symbols} (d : Tree), tb.Lists f includes symbols classes spaces functions →
      (record tb d).Lists f includes (symbols ++ names d) classes spaces functions)
    (h : tb.Lists f includes symbols classes spaces functions) (ds : List Tree) :
    (ds.foldl record tb).Lists f includes (symbols ++ ds.flatMap names) classes spaces
      functions := by
  induction ds generalizing tb symbols with
  | nil => simpa using h
  | cons d ds ih =>
      rw [List.foldl_cons, List.flatMap_cons, ← List.append_assoc]
      exact ih (hrecord d h)

theorem Lists.record (h : tb.Lists f includes symbols classes spaces functions) (item : Item) :
    (tb.record item).Lists f includes (symbols ++ item.symbolNames f.bytes)
      (classes ++ item.classNames) (spaces ++ item.spaceNames) (functions ++ item.functions) := by
  cases item with
  | class_ t name =>
      simp only [Item.symbolNames, Item.spaceNames, Item.functions, List.append_nil]
      exact h.recordClass t name
  | function t owner =>
      simp only [Item.classNames, Item.spaceNames, List.append_nil]
      exact h.recordFunction t owner
  | fields t owner =>
      simp only [Item.classNames, Item.spaceNames, Item.functions, List.append_nil]
      exact Lists.foldl (fun d h => h.recordField owner _ d) h _
  | globals t =>
      simp only [Item.classNames, Item.spaceNames, Item.functions, List.append_nil]
      exact Lists.foldl (fun d h => h.recordGlobal _ d) h _
  | space name =>
      simp only [Item.symbolNames, Item.classNames, Item.functions, List.append_nil]
      exact { h with namespaces := congrArg (· ++ [name]) h.namespaces }

theorem Lists.recordAll (h : tb.Lists f includes symbols classes spaces functions)
    (is : List Item) :
    (is.foldl Tables.record tb).Lists f includes (symbols ++ is.flatMap (Item.symbolNames f.bytes))
      (classes ++ is.flatMap Item.classNames) (spaces ++ is.flatMap Item.spaceNames)
      (functions ++ is.flatMap Item.functions) := by
  induction is generalizing tb symbols classes spaces functions with
  | nil => simpa using h
  | cons item is ih =>
      simp only [List.foldl_cons, List.flatMap_cons, ← List.append_assoc]
      exact ih (h.record item)

end Tables

def tablesAfter (f : SourceFile) (root : Tree) (is : List Item) : Tables :=
  is.foldl Tables.record { file := f, includes := includedPaths f root }

theorem initialTables_eq_tablesAfter (f : SourceFile) (root : Tree) :
    initialTables f root = tablesAfter f root (items f none root) :=
  rfl

theorem lists_tablesAfter (f : SourceFile) (root : Tree) (is : List Item) :
    (tablesAfter f root is).Lists f (includedPaths f root)
      (is.flatMap (Item.symbolNames f.bytes)) (is.flatMap Item.classNames)
      (is.flatMap Item.spaceNames) (is.flatMap Item.functions) := by
  have hempty : Tables.Lists f (includedPaths f root) [] [] [] []
      { file := f, includes := includedPaths f root } := by
    refine ⟨rfl, rfl, SymbolTable.lists_empty, SymbolTable.lists_empty, ?_, rfl, ?_, ?_⟩
    · intro name id h
      cases h
    · intro owner name id h
      cases h
    · intro key r h
      cases h
  exact hempty.recordAll is

theorem lists_initialTables (f : SourceFile) (root : Tree) :
    (initialTables f root).Lists f (includedPaths f root) (symbolNames f root)
      (classNames f root) (spaceNames f root) ((items f none root).flatMap Item.functions) :=
  lists_tablesAfter f root (items f none root)

/-! ### Registered functions -/

theorem functions_of_mem_ownItems {src : Bytes} {owner : Option String} {t : Tree} {item : Item}
    (h : item ∈ ownItems src owner t) : item.functions = [] := by
  have hfrom := from_of_mem_ownItems (Q := fun _ => False) h
  cases item with
  | function t owner => exact hfrom.elim
  | _ => rfl

theorem functions_itemsAt (f : SourceFile) (x : Tree.OwnedSite) :
    ((itemsAt f x).flatMap Item.functions).Sublist
      ([x.1.node].filter (·.kind == "function_definition")) := by
  unfold itemsAt
  dsimp only
  split
  · cases className? f.bytes x.1.node <;> exact List.nil_sublist _
  · split
    case isTrue hkind =>
      rw [List.filter_cons_of_pos (by exact hkind)]
      exact (List.nil_sublist _).cons_cons _
    case isFalse =>
      rw [List.flatMap_eq_nil_iff.mpr fun item hitem => functions_of_mem_ownItems hitem]
      exact List.nil_sublist _

/-- The function definitions among the items of a file are nodes of its tree, each of them once. -/
theorem functions_items (f : SourceFile) (root : Tree) :
    ((items f none root).flatMap Item.functions).Sublist
      (root.preorder.filter (·.kind == "function_definition")) :=
  Tree.Search.nodes_sublist (S := search f) (functions_itemsAt f) (⟨root, []⟩, none)

/-- Only function definitions are registered. -/
theorem routines_eq_none {f : SourceFile} {root : Tree}
    (hkeys : (root.sites.map (·.node.key)).Nodup) {s : Site} (hs : s ∈ root.sites)
    (hkind : s.kind ≠ "function_definition") :
    (initialTables f root).routines.get? s.node.key = none := by
  refine Option.eq_none_iff_forall_ne_some.mpr fun r hr => ?_
  obtain ⟨t, ht, hkey⟩ := (lists_initialTables f root).routines _ _ hr
  obtain ⟨hnode, hfunction⟩ := List.mem_filter.mp ((functions_items f root).subset ht)
  obtain ⟨s', hs', rfl⟩ := Tree.mem_preorder_iff.mp hnode
  obtain rfl := List.inj_on_of_nodup_map hkeys hs' hs hkey
  exact hkind (beq_iff_eq.mp hfunction)

namespace Tables

/-- The innermost registered function around a site. -/
def functionAround? (tb : Tables) (s : Site) : Option (Site × Routine) :=
  s.ancestors.findSome? fun a => (tb.routines.get? a.node.key).map fun r => (a, r)

/-- What is not registered is passed on the way outwards. -/
theorem functionAround?_child {tb : Tables} {s : Site}
    (h : tb.routines.get? s.node.key = none) (c : Tree) :
    tb.functionAround? ⟨c, s.node :: s.above⟩ = tb.functionAround? s := by
  rw [functionAround?, Site.ancestors, Site.chain, List.findSome?_cons, h]
  rfl

/-! ### While references are linked -/

variable (tb : Tables)

theorem linkBase_eq (s : Site) :
    tb.linkBase s = { tb with fragment := (tb.linkBase s).fragment } := by
  unfold linkBase
  split <;> rfl

theorem linkReference_eq (s : Site) :
    tb.linkReference s = { tb with fragment := (tb.linkReference s).fragment } := by
  unfold linkReference
  repeat' split
  all_goals rfl

variable (g : Fragment) (owner : Option String) (locals : Locals)

mutual

/-- What a receiver is does not depend on what has been linked. -/
theorem receiverType?_fragment : (t : Tree) →
    ({ tb with fragment := g } : Tables).receiverType? owner locals t =
      tb.receiverType? owner locals t
  | .node i cs => by
      rw [receiverType?, receiverType?, receiverTypes_fragment cs]
      rfl

theorem receiverTypes_fragment : (ts : List Tree) →
    ({ tb with fragment := g } : Tables).receiverTypes owner locals ts =
      tb.receiverTypes owner locals ts
  | [] => rfl
  | t :: ts => by
      rw [receiverTypes, receiverTypes, receiverType?_fragment t, receiverTypes_fragment ts]

end

/-- The target of a reference does not depend on what has been linked. -/
theorem target?_fragment (ref : Reference) :
    ({ tb with fragment := g } : Tables).target? owner locals ref =
      tb.target? owner locals ref := by
  cases ref with
  | name relation t => rfl
  | access relation t =>
      simp only [target?, accessTarget?, receiverType?_fragment]
      rfl

end Tables

/-- A reference in a registered function is linked to its target, whatever is linked before it. -/
theorem mem_edges_analyze {f : SourceFile} {root : Tree} {s g : Site} {r : Routine}
    {ref : Tables.Reference} {id relation : String} (hs : s ∈ root.sites)
    (href : Tables.reference? s = some ref)
    (hg : (initialTables f root).functionAround? s = some (g, r))
    (htarget : (initialTables f root).target? r.owner (localsOf f.bytes g.node) ref =
      some (id, relation)) :
    ⟨r.id, id, relation⟩ ∈ (analyze f root).edges := by
  let Linked (tb : Tables) : Prop := ∃ fragment, tb = { initialTables f root with fragment }
  have hbases : Linked (root.sites.foldl Tables.linkBase (initialTables f root)) := by
    refine List.foldlRecOn (motive := Linked) _ _ ⟨_, rfl⟩ ?_
    rintro _ ⟨fragment, rfl⟩ s -
    exact ⟨_, Tables.linkBase_eq _ s⟩
  refine foldl_of_mem (I := Linked) (Q := fun tb : Tables => ⟨r.id, id, relation⟩ ∈
    tb.fragment.edges) hs hbases ?_ ?_ fun tb s _ he => (tb.extends_linkReference s).edges he
  · rintro _ s - ⟨fragment, rfl⟩
    exact ⟨_, Tables.linkReference_eq _ s⟩
  · rintro _ ⟨fragment, rfl⟩
    have hfile := (lists_initialTables f root).file
    have hg' : (s.ancestors.findSome? fun a =>
        ((initialTables f root).routines.get? a.node.key).map fun r => (a, r)) = some (g, r) := hg
    unfold Tables.linkReference
    rw [href]
    dsimp only
    rw [hg']
    dsimp only
    rw [Tables.target?_fragment, hfile, htarget]
    exact Fragment.mem_edges_addEdge.mpr (.inr rfl)

/-! ### Calls -/

/-- The node names what a call calls: a name, or the name of a function template. -/
inductive CalledName (call : Tree) : Tree → Prop where
  | plain {name : Tree} (hrole : name ∈ call.childrenIn "function")
      (hkind : name.isKind ["identifier", "qualified_identifier"]) : CalledName call name
  | template {function name : Tree} (hrole : function ∈ call.childrenIn "function")
      (hkind : function.kind = "template_function") (hname : name ∈ function.childrenIn "name")
      (hidentifier : name.kind = "identifier") : CalledName call name

def NoMember (f : SourceFile) (root : Tree) (owner : Option String) (name : String) : Prop :=
  ∀ o ∈ owner, (initialTables f root).memberOf? o name = none

instance (f : SourceFile) (root : Tree) (owner : Option String) (name : String) :
    Decidable (NoMember f root owner name) :=
  inferInstanceAs (Decidable (∀ o ∈ owner, _))

/-- The name is qualified neither with a class nor with a namespace of the file. -/
def ForeignScope (f : SourceFile) (root : Tree) (name : String) : Prop :=
  ∀ parts ∈ Text.cutLastOn? "::" name,
    scopeName parts.1 ∉ classNames f root ∧ scopeName parts.1 ∉ spaceNames f root

instance (f : SourceFile) (root : Tree) (name : String) : Decidable (ForeignScope f root name) :=
  inferInstanceAs (Decidable (∀ parts ∈ Text.cutLastOn? "::" name, _))

/-- The first segment of the name is not the base name of an included header. -/
def NoHeader (f : SourceFile) (root : Tree) (name : String) : Prop :=
  ∀ header ∈ includedPaths f root,
    Text.sameIgnoringCase (Path.stem header) (Text.before "::" name) = false

instance (f : SourceFile) (root : Tree) (name : String) : Decidable (NoHeader f root name) :=
  inferInstanceAs (Decidable (∀ header ∈ includedPaths f root, _))

/-- What a name that is called from a member of `owner` stands for. -/
structure Resolved (f : SourceFile) (root : Tree) (owner : Option String) (name target : String) :
    Prop where
  member : ∀ o ∈ owner, ((initialTables f root).memberOf? o name).isSome →
    target = Ident.member o name
  symbol : NoMember f root owner name → name ∈ symbolNames f root →
    (initialTables f root).symbols.get? name = some target
  unknown : NoMember f root owner name → name ∉ symbolNames f root → ForeignScope f root name →
    NoHeader f root name → target = Ident.unresolved name

section Resolution

variable {f : SourceFile} {root : Tree} {owner : Option String} {name : String}

theorem bind_memberOf?_eq_none (h : NoMember f root owner name) :
    (owner.bind fun o => (initialTables f root).memberOf? o name) = none := by
  cases owner with
  | none => rfl
  | some o => exact h o rfl

theorem scoped?_eq_none (h : ForeignScope f root name) :
    (initialTables f root).scoped? name = none := by
  have hlists := lists_initialTables f root
  unfold Tables.scoped?
  split
  case h_1 => rfl
  case h_2 scope own hcut =>
    obtain ⟨hclass, hspace⟩ := h (scope, own) hcut
    have hnone : (initialTables f root).classes.get? (scopeName scope) = none :=
      Option.not_isSome_iff_eq_none.mp (mt (hlists.classes.isSome_iff _).mp hclass)
    dsimp only
    rw [hnone, hlists.namespaces, if_neg (mt List.contains_iff_mem.mp hspace)]

theorem outside_eq_unresolved (h : NoHeader f root name) :
    (initialTables f root).outside name = Ident.unresolved name := by
  have hfind : ((includedPaths f root).find? fun header =>
      Text.sameIgnoringCase (Path.stem header) (Text.before "::" name)) = none :=
    List.find?_eq_none.mpr fun header hheader => by simp [h header hheader]
  rw [Tables.outside, (lists_initialTables f root).includes, Include.resolve?, hfind,
    Option.map_none, ite_self, Option.getD_none]

/-- Members come before symbols, and symbols before what is outside. -/
theorem resolved_resolveSymbol (f : SourceFile) (root : Tree) (owner : Option String)
    (name : String) :
    Resolved f root owner name ((initialTables f root).resolveSymbol owner name) := by
  have hlists := lists_initialTables f root
  constructor
  · rintro o rfl hsome
    obtain ⟨id, hid⟩ := Option.isSome_iff_exists.mp hsome
    rw [← hlists.members o name id hid]
    simp [Tables.resolveSymbol, hid]
  · intro hmember hsymbol
    obtain ⟨id, hid⟩ := Option.isSome_iff_exists.mp ((hlists.symbols.isSome_iff name).mpr hsymbol)
    rw [Tables.resolveSymbol, bind_memberOf?_eq_none hmember, hid]
    rfl
  · intro hmember hsymbol hscope hheader
    have hnone : (initialTables f root).symbols.get? name = none :=
      Option.not_isSome_iff_eq_none.mp (mt (hlists.symbols.isSome_iff name).mp hsymbol)
    rw [Tables.resolveSymbol, bind_memberOf?_eq_none hmember, hnone, scoped?_eq_none hscope,
      outside_eq_unresolved hheader]
    rfl

end Resolution

section Calls

variable {f : SourceFile} {root : Tree} {s g : Site} {r : Routine}
  (hkeys : (root.sites.map (·.node.key)).Nodup) (hs : s ∈ root.sites)
  (hkind : s.kind = "call_expression")
  (hg : (initialTables f root).functionAround? s = some (g, r))

include hkeys hs hkind hg

/-- The function around a callee is the one around the call. -/
theorem functionAround?_callee (callee : Tree) :
    (initialTables f root).functionAround? ⟨callee, s.node :: s.above⟩ = some (g, r) := by
  rw [Tables.functionAround?_child (routines_eq_none hkeys hs (by rw [hkind]; decide)), hg]

/-- The name that a call calls is a reference of the function around the call. -/
theorem CalledName.exists_site {name : Tree} (h : CalledName s.node name) :
    ∃ u ∈ root.sites, Tables.reference? u = some (.name Relation.calls name) ∧
      (initialTables f root).functionAround? u = some (g, r) := by
  have hcall : (s.node.kind == "call_expression") = true := beq_iff_eq.mpr hkind
  cases h with
  | plain hrole hname =>
      obtain ⟨hchild, hfield⟩ := List.mem_filter.mp hrole
      refine ⟨_, Tree.child_mem_sites hs hchild, ?_, functionAround?_callee hkeys hs hkind hg _⟩
      simp only [Tables.reference?, hcall, hfield, hname, Bool.and_true, if_true]
  | @template function _ hrole hfunction hname hidentifier =>
      obtain ⟨hchild, hfield⟩ := List.mem_filter.mp hrole
      obtain ⟨hinner, hname⟩ := List.mem_filter.mp hname
      have hsite := Tree.child_mem_sites hs hchild
      refine ⟨_, Tree.child_mem_sites hsite hinner, ?_, ?_⟩
      · simp [Tables.reference?, hcall, hidentifier, hfunction, beq_iff_eq.mp hname,
          beq_iff_eq.mp hfield]
      · have hnone : (initialTables f root).routines.get? function.key = none :=
          routines_eq_none hkeys hsite (by rw [Site.kind, hfunction]; decide)
        exact (Tables.functionAround?_child (s := ⟨function, s.node :: s.above⟩) hnone _).trans
          (functionAround?_callee hkeys hs hkind hg _)

end Calls

namespace Sample

def head (key start : Nat) : Tree :=
  .node { kind := "function_declarator", field := "declarator", start, stop := start + 3, key }
    [leaf "field_identifier" "declarator" (key + 1) start (start + 1),
      leaf "parameter_list" "parameters" (key + 2) (start + 1) (start + 3)]

def call (key start middle stop : Nat) (function : Tree) (arguments : List Tree) : Tree :=
  .node { kind := "call_expression", start, stop, key }
    [function,
      .node { kind := "argument_list", field := "arguments", start := middle, stop,
              key := key + 1 } arguments]

def memberCall : Tree :=
  call 26 39 42 44
    (.node { kind := "field_expression", field := "function", start := 39, stop := 42, key := 28 }
      [leaf "identifier" "argument" 29 39 40, leaf "field_identifier" "field" 30 41 42]) []

def templateCall : Tree :=
  call 20 34 38 45
    (.node { kind := "template_function", field := "function", start := 34, stop := 38, key := 22 }
      [leaf "identifier" "name" 23 34 35, leaf "template_argument_list" "arguments" 24 35 38])
    [memberCall]

/-- A method that calls a method that is only declared, a function template and a member of what
the file does not declare. -/
def callingTree : Tree :=
  .node { kind := "translation_unit", stop := 52 }
    [.node { kind := "struct_specifier", stop := 51, key := 1 }
      [leaf "type_identifier" "name" 2 7 8,
        .node { kind := "field_declaration_list", field := "body", start := 9, stop := 51,
                key := 3 }
          [.node { kind := "field_declaration", start := 11, stop := 20, key := 4 }
            [leaf "primitive_type" "type" 5 11 15, head 6 16],
          .node { kind := "function_definition", start := 21, stop := 49, key := 9 }
            [leaf "primitive_type" "type" 10 21 25, head 11 26,
              .node { kind := "compound_statement", field := "body", start := 30, stop := 49,
                      key := 14 }
                [.node { kind := "expression_statement", start := 32, stop := 47, key := 15 }
                  [call 16 32 33 46 (leaf "identifier" "function" 18 32 33) [templateCall]]]]]]]

def callingFile : SourceFile :=
  ⟨"a.cpp", Utf8.encode
    "struct W \x7b void p(); void m() \x7b p(r<V>(b.c())); \x7d \x7d;".toList⟩

/-- Searches the tree for a call in a function. -/
theorem exists_call (p : Site → Site → Routine → Prop) [∀ s g r, Decidable (p s g r)]
    (h : (callingTree.sites.any fun s => s.kind == "call_expression" &&
      ((initialTables callingFile callingTree).functionAround? s).any
        fun x => p s x.1 x.2) = true) :
    ∃ s ∈ callingTree.sites, s.kind = "call_expression" ∧
      ∃ g r, (initialTables callingFile callingTree).functionAround? s = some (g, r) ∧ p s g r := by
  obtain ⟨s, hs, h⟩ := List.any_eq_true.mp h
  obtain ⟨hkind, h⟩ := (Bool.and_eq_true _ _).mp h
  obtain ⟨⟨g, r⟩, hg, h⟩ := (Option.any_eq_true _ _).mp h
  exact ⟨s, hs, beq_iff_eq.mp hkind, g, r, hg, of_decide_eq_true h⟩

end Sample

end CodeGraph.Cpp
