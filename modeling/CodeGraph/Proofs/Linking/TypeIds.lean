import CodeGraph.Proofs.Linking.ClassMethods
import CodeGraph.Proofs.Linking.Invocations
import CodeGraph.Proofs.Linking.Members

/-!
The IDs of C# types. The search for declarations carries the ID of the innermost type with it, and a
type that is in no other looks outwards for its namespaces. Both come to one name: the namespace of
the file, the names of the namespaces around the type, the names of the types around it and its own
name. Members have the ID of their type in front of their name.
-/

namespace CodeGraph

/-! ### Dotted names -/

namespace Text

theorem toList_join (sep : String) (parts : List String) :
    (join sep parts).toList = sep.toList.intercalate (parts.map String.toList) :=
  String.toList_ofList

@[simp] theorem join_singleton (sep part : String) : join sep [part] = part := by
  rw [← String.toList_inj, toList_join, List.map_singleton, List.intercalate_singleton]

theorem join_cons_cons (sep part next : String) (parts : List String) :
    join sep (part :: next :: parts) = part ++ sep ++ join sep (next :: parts) := by
  rw [← String.toList_inj, toList_join, List.map_cons, List.map_cons,
    List.intercalate_cons_cons, String.toList_append, String.toList_append, toList_join,
    List.map_cons]

theorem join_concat {sep : String} {parts : List String} (h : parts ≠ []) (part : String) :
    join sep (parts ++ [part]) = join sep parts ++ sep ++ part := by
  induction parts with
  | nil => exact absurd rfl h
  | cons first rest ih =>
      cases rest with
      | nil => rw [List.singleton_append, join_cons_cons, join_singleton, join_singleton]
      | cons next rest =>
          rw [List.cons_append, List.cons_append, join_cons_cons, ← List.cons_append,
            ih (List.cons_ne_nil _ _), join_cons_cons]
          simp only [String.append_assoc]

theorem join_ne_empty {sep : String} {parts : List String} (h : parts ≠ [])
    (hparts : ∀ part ∈ parts, part ≠ "") : join sep parts ≠ "" := by
  cases parts with
  | nil => exact absurd rfl h
  | cons first rest =>
      have hfirst : first ≠ "" := hparts first List.mem_cons_self
      cases rest with
      | nil => rwa [join_singleton]
      | cons next rest =>
          rw [join_cons_cons]
          intro hempty
          have happend := congrArg String.toList hempty
          simp only [String.toList_append, String.toList_empty, List.append_eq_nil_iff] at happend
          exact hfirst (String.toList_inj.mp happend.1.1)

end Text

namespace Tree.Site

theorem map_node_chain (ts : List Tree) : (chain ts).map node = ts := by
  induction ts with
  | nil => rfl
  | cons t ts ih => rw [chain, List.map_cons, ih]

/-- Each node above a site is that of a site around it. -/
theorem exists_ancestor {s : Site} {t : Tree} (ht : t ∈ s.above) :
    ∃ a ∈ s.ancestors, a.node = t := by
  rw [← map_node_chain s.above] at ht
  exact List.mem_map.mp ht

end Tree.Site

namespace CSharp

open CodeGraph.Tree (Site OwnedSite Search Way leaf)

/-! ### Scopes -/

def typeNames (src : Bytes) (above : List Tree) : List String :=
  above.filterMap fun t => if isType t then t.childText? src "name" else none

/-- The names around a place: the namespace of the file, then the namespaces and the types around
it, each from the outermost in. -/
def scope (src : Bytes) (fileSpace : String) (above : List Tree) : List String :=
  (if fileSpace == "" then [] else [fileSpace]) ++ (namespaceNames src above).reverse ++
    (typeNames src above).reverse

/-- What the grammar of C# and its rules grant of a tree: nodes have keys of their own, namespaces
have names with characters in them and stand in no type, and the body of a type is no type. -/
structure WellScoped (src : Bytes) (root : Tree) : Prop where
  keys : (root.sites.map (·.node.key)).Nodup
  names : ∀ s ∈ root.sites, s.node.kind = "namespace_declaration" →
    s.node.childText? src "name" ≠ some ""
  spaces : ∀ s ∈ root.sites, s.node.kind = "namespace_declaration" →
    ∀ t ∈ s.above, isType t = false
  bodies : ∀ s ∈ root.sites, isType s.node = true →
    ∀ body ∈ s.node.child? "body", isType body = false

section Scope

variable {src : Bytes} {fileSpace : String} {above : List Tree} {t : Tree}

theorem kind_ne_namespace_of_isType (h : isType t = true) : t.kind ≠ "namespace_declaration" := by
  have hkinds : ∀ kind ∈ typeKinds, kind ≠ "namespace_declaration" := by decide
  exact hkinds t.kind (List.contains_iff_mem.mp h)

theorem scope_cons_plain (htype : isType t = false) (hspace : t.kind ≠ "namespace_declaration") :
    scope src fileSpace (t :: above) = scope src fileSpace above := by
  simp [scope, namespaceNames, typeNames, htype, hspace]

theorem scope_cons_type (htype : isType t = true) {name : String}
    (hname : t.childText? src "name" = some name) :
    scope src fileSpace (t :: above) = scope src fileSpace above ++ [name] := by
  simp [scope, namespaceNames, typeNames, htype, hname, kind_ne_namespace_of_isType htype]

theorem typeNames_eq_nil (h : ∀ t ∈ above, isType t = false) : typeNames src above = [] := by
  refine List.filterMap_eq_nil_iff.mpr fun t ht => ?_
  rw [h t ht]
  rfl

/-- The owner that the search carries stands for the names around the place. -/
inductive OwnerIs (src : Bytes) (fileSpace : String) (above : List Tree) :
    Option String → Prop where
  | ofFile (h : ∀ t ∈ above, isType t = false) : OwnerIs src fileSpace above none
  | ofType (h : ∃ t ∈ above, isType t = true) (hscope : scope src fileSpace above ≠ []) :
      OwnerIs src fileSpace above (some (Text.join "." (scope src fileSpace above)))

/-- The ID of a type is made of the names around it and its own name. -/
theorem OwnerIs.typeIn_eq {owner : Option String} (h : OwnerIs src fileSpace above owner)
    (hnames : ∀ name ∈ namespaceNames src above, name ≠ "") (name : String) :
    Ident.typeIn (namespaceAt src fileSpace above) owner name =
      Text.join "." (scope src fileSpace above ++ [name]) := by
  cases h with
  | ofType _ hscope => rw [Text.join_concat hscope, Ident.typeIn]
  | ofFile htypes =>
      have hscope : scope src fileSpace above =
          if fileSpace == "" then (namespaceNames src above).reverse
          else fileSpace :: (namespaceNames src above).reverse := by
        rw [scope, typeNames_eq_nil htypes, List.reverse_nil, List.append_nil]
        split <;> rfl
      rw [Ident.typeIn, namespaceAt, ← hscope, Ident.qualified]
      split
      case isTrue hempty =>
        by_cases hnil : scope src fileSpace above = []
        · rw [hnil, List.nil_append, Text.join_singleton]
        · refine absurd (beq_iff_eq.mp hempty) (Text.join_ne_empty hnil fun part hpart => ?_)
          rw [hscope] at hpart
          split at hpart
          · exact hnames part (List.mem_reverse.mp hpart)
          · rename_i hfile
            rcases List.mem_cons.mp hpart with rfl | hpart
            · exact beq_eq_false_iff_ne.mp (Bool.eq_false_iff.mpr hfile)
            · exact hnames part (List.mem_reverse.mp hpart)
      case isFalse hne =>
        by_cases hnil : scope src fileSpace above = []
        · rw [hnil] at hne
          exact absurd rfl hne
        · rw [Text.join_concat hnil]

end Scope

/-! ### Owners -/

section Search

variable {f : SourceFile} {fileSpace : String} {root : Tree} {x : OwnedSite}

/-- A step leads to a child of a node that is no type or, from a type with a name, to a child of its
body. -/
theorem of_mem_inside {y : OwnedSite} (h : y ∈ (search f fileSpace).inside x) :
    (isType x.1.node = false ∧
      ∃ c ∈ x.1.node.children, y = (⟨c, x.1.node :: x.1.above⟩, x.2)) ∨
    (isType x.1.node = true ∧ ∃ name body, x.1.node.childText? f.bytes "name" = some name ∧
      x.1.node.child? "body" = some body ∧ ∃ c ∈ body.children,
        y = (⟨c, body :: x.1.node :: x.1.above⟩, some (typeIdAt f fileSpace x name))) := by
  simp only [Search.inside, search, onward] at h
  split at h
  case isTrue htype =>
    split at h
    case h_1 => cases h
    case h_2 name hname =>
      obtain ⟨u, hu, rfl⟩ := List.mem_map.mp h
      obtain ⟨body, hbody, c, hc, rfl⟩ := Way.mem_sites_inBody.mp hu
      exact .inr ⟨htype, name, body, hname, hbody, c, hc, rfl⟩
  case isFalse htype =>
    refine .inl ⟨Bool.eq_false_iff.mpr htype, ?_⟩
    split at h
    · split at h
      · cases h
      · obtain ⟨u, hu, rfl⟩ := List.mem_map.mp h
        obtain ⟨body, hbody, rfl⟩ := Way.mem_sites_body.mp hu
        exact ⟨body, List.mem_of_find?_eq_some hbody, rfl⟩
    · split at h
      · cases h
      · split at h
        · cases h
        · obtain ⟨u, hu, rfl⟩ := List.mem_map.mp h
          obtain ⟨c, hc, rfl⟩ := Way.mem_sites_children.mp hu
          exact ⟨c, hc, rfl⟩

theorem WellScoped.namespaceNames_ne {s : Site} (h : WellScoped f.bytes root)
    (hs : s ∈ root.sites) : ∀ name ∈ namespaceNames f.bytes s.above, name ≠ "" := by
  intro name hname
  obtain ⟨t, ht, htext⟩ := List.mem_filterMap.mp hname
  obtain ⟨hkind, htext⟩ := Option.ite_none_right_eq_some.mp htext
  obtain ⟨a, ha, rfl⟩ := Tree.Site.exists_ancestor ht
  rintro rfl
  exact h.names a (Tree.ancestors_subset_sites s hs ha) (beq_iff_eq.mp hkind) htext

/-- A child of a node that is no type has the owner of the node. -/
theorem OwnerIs.child {s : Site} {owner : Option String} (h : WellScoped f.bytes root)
    (hs : s ∈ root.sites) (htype : isType s.node = false)
    (howner : OwnerIs f.bytes fileSpace s.above owner) :
    OwnerIs f.bytes fileSpace (s.node :: s.above) owner := by
  cases howner with
  | ofFile habove => exact .ofFile (List.forall_mem_cons.mpr ⟨htype, habove⟩)
  | ofType habove hscope =>
      obtain ⟨t, ht, hopen⟩ := habove
      -- A type stands around the node, so that the node is no namespace.
      have hspace : s.node.kind ≠ "namespace_declaration" := fun hkind => by
        rw [h.spaces s hs hkind t ht] at hopen
        cases hopen
      rw [← scope_cons_plain htype hspace] at hscope ⊢
      exact .ofType ⟨t, List.mem_cons_of_mem _ ht, hopen⟩ hscope

/-- What stands in the body of a type is owned by the type. -/
theorem OwnerIs.body (h : WellScoped f.bytes root) (hs : x.1 ∈ root.sites)
    (howner : OwnerIs f.bytes fileSpace x.1.above x.2) (htype : isType x.1.node = true)
    {name : String} {body : Tree} (hname : x.1.node.childText? f.bytes "name" = some name)
    (hbody : x.1.node.child? "body" = some body) :
    OwnerIs f.bytes fileSpace (body :: x.1.node :: x.1.above)
      (some (typeIdAt f fileSpace x name)) := by
  have hbodySite : ⟨body, x.1.node :: x.1.above⟩ ∈ root.sites :=
    Tree.child_mem_sites hs (List.mem_of_find?_eq_some hbody)
  have hbodyType : isType body = false := h.bodies x.1 hs htype body hbody
  have hbodySpace : body.kind ≠ "namespace_declaration" := fun hkind => by
    have houtside := h.spaces _ hbodySite hkind x.1.node List.mem_cons_self
    rw [htype] at houtside
    cases houtside
  have hscope : scope f.bytes fileSpace (body :: x.1.node :: x.1.above) =
      scope f.bytes fileSpace x.1.above ++ [name] := by
    rw [scope_cons_plain hbodyType hbodySpace, scope_cons_type htype hname]
  rw [typeIdAt, howner.typeIn_eq (h.namespaceNames_ne hs), ← hscope]
  exact .ofType ⟨x.1.node, by simp, htype⟩ (by rw [hscope]; simp)

/-- At every place that the search comes to, it carries the owner that the names around tell. -/
theorem Reaches.ownerIs (h : WellScoped f.bytes root) (hx : Reaches f fileSpace root x) :
    OwnerIs f.bytes fileSpace x.1.above x.2 := by
  induction hx with
  | refl => exact .ofFile (List.forall_mem_nil _)
  | @tail x y hx hstep ih =>
      have hs : x.1 ∈ root.sites := Search.Reaches.mem_sites hx
      rcases of_mem_inside hstep with
        ⟨htype, c, -, rfl⟩ | ⟨htype, name, body, hname, hbody, c, -, rfl⟩
      · exact ih.child h hs htype
      · exact ih.body h hs htype hname hbody

theorem Reaches.typeIdAt_eq (h : WellScoped f.bytes root) (hx : Reaches f fileSpace root x)
    (name : String) :
    typeIdAt f fileSpace x name =
      Text.join "." (scope f.bytes fileSpace x.1.above ++ [name]) := by
  rw [typeIdAt, (hx.ownerIs h).typeIn_eq (h.namespaceNames_ne hx.mem_sites)]

def innermostType? (s : Site) : Option Site :=
  s.ancestors.find? fun a => isType a.node

/-- The owner at a place is the innermost type around it, to which the search has come before. -/
inductive OwnedBy (f : SourceFile) (fileSpace : String) (root : Tree) (x : OwnedSite) : Prop where
  | file (howner : x.2 = none) (hinner : innermostType? x.1 = none)
  | type {t : OwnedSite} {name : String} (ht : Reaches f fileSpace root t)
      (htype : isType t.1.node = true) (hname : t.1.node.childText? f.bytes "name" = some name)
      (howner : x.2 = some (typeIdAt f fileSpace t name)) (hinner : innermostType? x.1 = some t.1)

theorem innermostType?_child (t c : Tree) (above : List Tree) :
    innermostType? ⟨c, t :: above⟩ =
      if isType t then some ⟨t, above⟩ else innermostType? ⟨t, above⟩ := by
  rw [innermostType?, Site.ancestors, Site.chain, List.find?_cons]
  cases isType t <;> rfl

theorem Reaches.ownedBy (h : WellScoped f.bytes root) (hx : Reaches f fileSpace root x) :
    OwnedBy f fileSpace root x := by
  induction hx with
  | refl => exact .file rfl rfl
  | @tail x y hx hstep ih =>
      rcases of_mem_inside hstep with
        ⟨htype, c, -, rfl⟩ | ⟨htype, name, body, hname, hbody, c, -, rfl⟩
      · have hsame : innermostType? ⟨c, x.1.node :: x.1.above⟩ = innermostType? x.1 := by
          rw [innermostType?_child, if_neg (by simp [htype])]
        cases ih with
        | file howner hinner => exact .file howner (hsame.trans hinner)
        | type ht htype hname howner hinner =>
            exact .type ht htype hname howner (hsame.trans hinner)
      · have hs : x.1 ∈ root.sites := Search.Reaches.mem_sites hx
        have hbodyType : isType body = false := h.bodies x.1 hs htype body hbody
        refine .type hx htype hname rfl ?_
        rw [innermostType?_child, if_neg (by simp [hbodyType]), innermostType?_child,
          if_pos htype]

/-! ### What is declared at a place -/

/-- What a node declares for the type around it: the relation from the type and the name. -/
inductive MemberAt (f : SourceFile) (t : Tree) : String → String → Prop where
  | routine {name : String} (hkind : t.isKind routineKinds = true)
      (hname : t.childText? f.bytes "name" = some name) :
      MemberAt f t Relation.hasMethod (routineName t name)
  | field {line declarator : Tree} {name : String} (hkind : t.isKind fieldKinds = true)
      (hline : t.namedChildren.find? (·.kind == "variable_declaration") = some line)
      (hdeclarator : declarator ∈ line.namedChildren)
      (hkind' : declarator.kind = "variable_declarator")
      (hname : declaratorName? f.bytes declarator = some name) : MemberAt f t Relation.defines name
  | property {name : String} (hkind : t.kind = "property_declaration")
      (hname : t.childText? f.bytes "name" = some name) : MemberAt f t Relation.defines name

structure HasParameter (f : SourceFile) (t : Tree) (name : String) : Prop where
  isRecord : t.kind = "record_declaration"
  named : ∃ parameters p, t.child? "parameters" = some parameters ∧
    p ∈ parameters.namedChildren ∧ p.childText? f.bytes "name" = some name

def LeadsTo (d : Declaration) (owner relation name : String) : Prop :=
  d.edge? = some ⟨owner, Ident.member owner name, relation⟩

section Declared

variable {t : Tree} {owner : String} {d : Declaration}

/-- A routine is a method of its type. -/
theorem not_leadsTo_defines {key : Nat} {name name' : String} {n : Node}
    {routineOwner : Option String} :
    ¬ LeadsTo (.routine key name n routineOwner) owner Relation.defines name' := by
  cases routineOwner <;> simp [LeadsTo, Declaration.edge?, Relation.hasMethod, Relation.defines]

theorem leadsTo_of_propertyDeclaration? {isStatic : Bool}
    (h : propertyDeclaration? f t owner isStatic = some d) :
    ∃ name, t.childText? f.bytes "name" = some name ∧
      LeadsTo d owner Relation.defines name := by
  unfold propertyDeclaration? at h
  split at h
  case h_1 name typeText hname _ =>
    cases h
    refine ⟨name, hname, ?_⟩
    rw [LeadsTo, Declaration.edge?, Declaration.id_mark]
    rfl
  case h_2 => cases h

theorem leadsTo_of_mem_parameterDeclarations (h : d ∈ parameterDeclarations f t owner) :
    ∃ name, HasParameter f t name ∧ LeadsTo d owner Relation.defines name := by
  unfold parameterDeclarations at h
  split at h
  case isTrue hkind =>
    split at h
    case h_1 => cases h
    case h_2 parameters hparameters =>
      obtain ⟨p, hp, hd⟩ := List.mem_filterMap.mp h
      obtain ⟨name, hname, hleads⟩ := leadsTo_of_propertyDeclaration? hd
      exact ⟨name, ⟨beq_iff_eq.mp hkind, parameters, p, hparameters, hp, hname⟩, hleads⟩
  case isFalse => cases h

theorem leadsTo_of_mem_fieldDeclarations (hkind : t.isKind fieldKinds = true)
    (h : d ∈ fieldDeclarations f t owner) :
    ∃ name, MemberAt f t Relation.defines name ∧ LeadsTo d owner Relation.defines name := by
  unfold fieldDeclarations at h
  split at h
  case h_1 => cases h
  case h_2 line hline =>
    obtain ⟨declarator, hdeclarator, hd⟩ := List.mem_filterMap.mp h
    obtain ⟨hdeclarator, hkind'⟩ := List.mem_filter.mp hdeclarator
    obtain ⟨name, hname, rfl⟩ := Option.map_eq_some_iff.mp hd
    refine ⟨name, .field hkind hline hdeclarator (beq_iff_eq.mp hkind') hname, ?_⟩
    rw [LeadsTo, Declaration.edge?, Declaration.id_mark]
    rfl

theorem exists_routineDeclaration_eq (f : SourceFile) (t : Tree) (owner : Option String)
    (name : String) :
    ∃ n, routineDeclaration f t owner name = .routine t.key name n owner ∧
      n.id = match owner with
        | some owner => Ident.member owner name
        | none => Ident.inFile f.path name := by
  refine ⟨_, rfl, ?_⟩
  rw [Declaration.id_mark]
  cases owner <;> dsimp only <;> split <;> rfl

end Declared

/-- A place declares a type of its own with the parameters of a record, or what its node declares
for the owner. -/
theorem cases_of_mem_declaredAt {d : Declaration} (h : d ∈ declaredAt f fileSpace x) :
    (isType x.1.node = true ∧ ∃ name, x.1.node.childText? f.bytes "name" = some name ∧
      (d = typeDeclaration f (namespaceAt f.bytes fileSpace x.1.above) x.1.node
          (typeIdAt f fileSpace x name) name ∨
        d ∈ parameterDeclarations f x.1.node (typeIdAt f fileSpace x name))) ∨
    (x.1.node.isKind routineKinds = true ∧ ∃ name,
      x.1.node.childText? f.bytes "name" = some name ∧
        d = routineDeclaration f x.1.node x.2 (routineName x.1.node name)) ∨
    ∃ owner name, x.2 = some owner ∧ MemberAt f x.1.node Relation.defines name ∧
      LeadsTo d owner Relation.defines name := by
  unfold declaredAt at h
  dsimp only at h
  split_ifs at h with htype hroutine hfield hproperty
  · split at h
    case h_1 => cases h
    case h_2 name hname => exact .inl ⟨htype, name, hname, List.mem_cons.mp h⟩
  · obtain ⟨name, hname, rfl⟩ := Option.map_eq_some_iff.mp (Option.mem_toList.mp h)
    exact .inr (.inl ⟨hroutine, name, hname, rfl⟩)
  · obtain ⟨owner, howner, h⟩ := List.mem_flatMap.mp h
    obtain ⟨name, hmember, hleads⟩ := leadsTo_of_mem_fieldDeclarations hfield h
    exact .inr (.inr ⟨owner, name, Option.mem_toList.mp howner, hmember, hleads⟩)
  · obtain ⟨owner, howner, h⟩ := List.mem_flatMap.mp h
    obtain ⟨name, hname, hleads⟩ := leadsTo_of_propertyDeclaration? (Option.mem_toList.mp h)
    exact .inr (.inr ⟨owner, name, Option.mem_toList.mp howner,
      .property (beq_iff_eq.mp hproperty) hname, hleads⟩)
  · cases h

theorem type_mem_declaredAt {key : Nat} {name : String} {n : Node} {isInterface : Bool}
    (h : .type key name n isInterface ∈ declaredAt f fileSpace x) :
    isType x.1.node = true ∧ key = x.1.node.key ∧
      x.1.node.childText? f.bytes "name" = some name ∧ n.id = typeIdAt f fileSpace x name := by
  rcases cases_of_mem_declaredAt h with
    ⟨htype, name', hname, heq | hparameter⟩ | ⟨-, name', -, heq⟩ | ⟨owner, name', -, -, hleads⟩
  · cases heq
    exact ⟨htype, rfl, hname, rfl⟩
  · obtain ⟨_, -, hleads⟩ := leadsTo_of_mem_parameterDeclarations hparameter
    cases hleads
  · cases heq
  · cases hleads

theorem routine_mem_declaredAt {key : Nat} {name : String} {n : Node} {owner : Option String}
    (h : .routine key name n owner ∈ declaredAt f fileSpace x) :
    key = x.1.node.key ∧ owner = x.2 ∧ ∃ raw, x.1.node.childText? f.bytes "name" = some raw ∧
      n.id = match x.2 with
        | some owner => Ident.member owner (routineName x.1.node raw)
        | none => Ident.inFile f.path (routineName x.1.node raw) := by
  rcases cases_of_mem_declaredAt h with
    ⟨-, name', -, heq | hparameter⟩ | ⟨-, raw, hraw, heq⟩ | ⟨_, name', -, -, hleads⟩
  · cases heq
  · obtain ⟨_, -, hleads⟩ := leadsTo_of_mem_parameterDeclarations hparameter
    exact absurd hleads not_leadsTo_defines
  · obtain ⟨_, hroutine, hid⟩ :=
      exists_routineDeclaration_eq f x.1.node x.2 (routineName x.1.node raw)
    cases heq.trans hroutine
    exact ⟨rfl, rfl, raw, hraw, hid⟩
  · exact absurd hleads not_leadsTo_defines

/-- What a type owns: members that nodes declare for which it is the innermost type, and the
parameters of a record. -/
def HasMember (f : SourceFile) (root : Tree) (t : Site) (relation name : String) : Prop :=
  (∃ s ∈ root.sites, innermostType? s = some t ∧ MemberAt f s.node relation name) ∨
    relation = Relation.defines ∧ HasParameter f t.node name

/-- An edge from the owner of a declared member leads to a member of a type with the ID. -/
theorem hasMember_of_edge (h : WellScoped f.bytes root) (hx : Reaches f fileSpace root x)
    {d : Declaration} (hd : d ∈ declaredAt f fileSpace x) {e : Edge} (he : d.edge? = some e) :
    ∃ t typeName, Reaches f fileSpace root t ∧ isType t.1.node = true ∧
      t.1.node.childText? f.bytes "name" = some typeName ∧
      e.source = typeIdAt f fileSpace t typeName ∧
      ∃ name, HasMember f root t.1 e.relation name ∧ e.target = Ident.member e.source name := by
  have howned : ∀ {owner relation name : String}, x.2 = some owner →
      MemberAt f x.1.node relation name → LeadsTo d owner relation name →
      ∃ t typeName, Reaches f fileSpace root t ∧ isType t.1.node = true ∧
        t.1.node.childText? f.bytes "name" = some typeName ∧
        e.source = typeIdAt f fileSpace t typeName ∧
        ∃ name, HasMember f root t.1 e.relation name ∧
          e.target = Ident.member e.source name := by
    intro owner relation name howner hmember hleads
    cases (show some _ = some e from hleads.symm.trans he)
    cases hx.ownedBy h with
    | file hnone => rw [hnone] at howner; cases howner
    | type ht htype hname hsome hinner =>
        obtain rfl := Option.some.inj (howner.symm.trans hsome)
        exact ⟨_, _, ht, htype, hname, rfl, name, .inl ⟨x.1, hx.mem_sites, hinner, hmember⟩, rfl⟩
  rcases cases_of_mem_declaredAt hd with
    ⟨htype, typeName, hname, rfl | hparameter⟩ | ⟨hkind, raw, hraw, rfl⟩ |
      ⟨owner, name, howner, hmember, hleads⟩
  · cases he
  · obtain ⟨name, hhas, hleads⟩ := leadsTo_of_mem_parameterDeclarations hparameter
    cases (show some _ = some e from hleads.symm.trans he)
    exact ⟨x, typeName, hx, htype, hname, rfl, name, .inr ⟨rfl, hhas⟩, rfl⟩
  · cases howner : x.2 with
    | none => rw [howner] at he; cases he
    | some owner =>
        obtain ⟨n, hroutine, hid⟩ :=
          exists_routineDeclaration_eq f x.1.node x.2 (routineName x.1.node raw)
        rw [howner] at hid hroutine
        refine howned howner (.routine hkind hraw) ?_
        rw [LeadsTo, howner, hroutine, Declaration.edge?, hid]
  · exact howned howner hmember hleads

/-! ### Registered types and routines -/

/-- A type that the search comes to is registered with its ID. -/
theorem Reaches.types_get? (h : WellScoped f.bytes root)
    (hx : Reaches f (fileNamespace f.bytes root) root x) (htype : isType x.1.node = true)
    {name : String} (hname : x.1.node.childText? f.bytes "name" = some name) :
    (initialState f root).outline.types.get? x.1.node.key =
      some (typeIdAt f (fileNamespace f.bytes root) x name) := by
  have hdeclared : typeDeclaration f (namespaceAt f.bytes (fileNamespace f.bytes root) x.1.above)
      x.1.node (typeIdAt f (fileNamespace f.bytes root) x name) name ∈
        declaredAt f (fileNamespace f.bytes root) x := by
    rw [declaredAt, if_pos htype, hname]
    exact List.mem_cons_self
  obtain ⟨id, hid⟩ : ∃ id, (initialState f root).outline.types.get? x.1.node.key = some id := by
    rw [outline_initialState, Outline.types_eq_findSome?, ← Option.isSome_iff_exists,
      List.findSome?_isSome_iff]
    exact ⟨_, mem_declarations_iff.mpr ⟨x, hx, hdeclared⟩,
      by simp [typeDeclaration, Declaration.typeAt?]⟩
  have hget := hid
  rw [outline_initialState] at hget
  obtain ⟨name', n, isInterface, hd, rfl⟩ := Outline.type_mem_of_get? hget
  obtain ⟨y, hy, hd⟩ := mem_declarations_iff.mp hd
  obtain ⟨-, hkey, hname', hid'⟩ := type_mem_declaredAt hd
  have hsite : x.1 = y.1 := List.inj_on_of_nodup_map h.keys hx.mem_sites hy.mem_sites hkey
  obtain rfl := Option.some.inj (hname.symm.trans (hsite ▸ hname'))
  rw [hid, hid', hx.typeIdAt_eq h, hy.typeIdAt_eq h, hsite]

end Search

section Registered

variable {f : SourceFile} {root : Tree} (h : WellScoped f.bytes root)

include h

/-- A registered type has the names around it and its own as its ID. -/
theorem id_of_types_get? {s : Site} (hs : s ∈ root.sites) {id : String}
    (hid : (initialState f root).outline.types.get? s.node.key = some id) :
    isType s.node = true ∧ id ∈ (analyze f root).ids ∧
      ∃ name, s.node.childText? f.bytes "name" = some name ∧
        id = Text.join "." (scope f.bytes (fileNamespace f.bytes root) s.above ++ [name]) := by
  rw [outline_initialState] at hid
  obtain ⟨name, n, isInterface, hd, rfl⟩ := Outline.type_mem_of_get? hid
  have hmem : n.id ∈ (analyze f root).ids :=
    Outline.id_mem_foldl_of_linked linker.outline
      (fun st s => (linker.grown_visit st s).toLinked) (linker.outline_initialState f root)
      root.sites hd
  obtain ⟨x, hx, hd⟩ := mem_declarations_iff.mp hd
  obtain ⟨htype, hkey, hname, hid'⟩ := type_mem_declaredAt hd
  obtain rfl : s = x.1 := List.inj_on_of_nodup_map h.keys hs hx.mem_sites hkey
  exact ⟨htype, hmem, name, hname, hid'.trans (hx.typeIdAt_eq h name)⟩

/-- An edge from a type leads to one of its members. -/
theorem hasMember_of_mem_edges {e : Edge} (he : e ∈ (analyze f root).edges)
    (hrelation : e.relation ∈ Relation.owning) :
    ∃ t ∈ root.sites, (initialState f root).outline.types.get? t.node.key = some e.source ∧
      ∃ name, HasMember f root t e.relation name ∧ e.target = Ident.member e.source name := by
  obtain ⟨d, hd, hedge⟩ := (linker.mem_owning_analyze_iff hrelation).mp he
  obtain ⟨x, hx, hd⟩ := mem_declarations_iff.mp hd
  obtain ⟨t, typeName, ht, htype, hname, hsource, hmember⟩ := hasMember_of_edge h hx hd hedge
  exact ⟨t.1, ht.mem_sites, hsource ▸ ht.types_get? h htype hname, hmember⟩

/-- A registered routine belongs to the innermost type around it. -/
theorem id_of_routines_get? {s : Site} (hs : s ∈ root.sites) {r : Routine}
    (hr : (initialState f root).outline.routines.get? s.node.key = some r) :
    ∃ name, s.node.childText? f.bytes "name" = some name ∧
      match innermostType? s with
      | some t => ∃ owner, (initialState f root).outline.types.get? t.node.key = some owner ∧
          r = ⟨Ident.member owner (routineName s.node name), some owner⟩
      | none => r = ⟨Ident.inFile f.path (routineName s.node name), none⟩ := by
  rw [outline_initialState] at hr
  obtain ⟨_, n, hd, hid⟩ := Outline.routine_mem_of_get? hr
  obtain ⟨x, hx, hd⟩ := mem_declarations_iff.mp hd
  obtain ⟨hkey, howner, name, hname, hid'⟩ := routine_mem_declaredAt hd
  obtain rfl : s = x.1 := List.inj_on_of_nodup_map h.keys hs hx.mem_sites hkey
  obtain ⟨id, owner⟩ := r
  dsimp only at howner hid
  refine ⟨name, hname, ?_⟩
  cases hx.ownedBy h with
  | file hnone hinner =>
      rw [hinner]
      rw [hnone] at howner hid'
      rw [howner, ← hid, hid']
  | type ht htype htypeName hsome hinner =>
      rw [hinner]
      rw [hsome] at howner hid'
      exact ⟨_, ht.types_get? h htype htypeName, by rw [howner, ← hid, hid']⟩

end Registered

/-- A type of a C# file that has an ID has the dotted name of what stands around it: the namespace
of the file, the namespaces and the types around it, each from the outermost in, and then its own
name. Every edge to a method or field starts at such a type and leads to the node of one of its
members, whose ID is that of the type, a colon and the name of the member. A routine belongs to
the innermost type around it, whatever else stands between them. -/
theorem type_ids_from_scope {f : SourceFile} {root : Tree} (h : WellScoped f.bytes root) :
    let outline := (initialState f root).outline
    (∀ s ∈ root.sites, ∀ id, outline.types.get? s.node.key = some id →
      isType s.node = true ∧ id ∈ (analyze f root).ids ∧
        ∃ name, s.node.childText? f.bytes "name" = some name ∧
          id = Text.join "." (scope f.bytes (fileNamespace f.bytes root) s.above ++ [name])) ∧
    (∀ e ∈ (analyze f root).edges, e.relation ∈ Relation.owning →
      e.target ∈ (analyze f root).ids ∧
        ∃ t ∈ root.sites, outline.types.get? t.node.key = some e.source ∧
          ∃ name, HasMember f root t e.relation name ∧ e.target = e.source ++ ":" ++ name) ∧
    (∀ s ∈ root.sites, ∀ r, outline.routines.get? s.node.key = some r →
      ∃ name, s.node.childText? f.bytes "name" = some name ∧
        match innermostType? s with
        | some t => ∃ owner, outline.types.get? t.node.key = some owner ∧
            r = ⟨owner ++ ":" ++ routineName s.node name, some owner⟩
        | none => r = ⟨f.path ++ ":" ++ routineName s.node name, none⟩) :=
  ⟨fun _ hs _ hid => id_of_types_get? h hs hid,
    fun e he hrelation => ⟨(closed_analyze f root e he).2 hrelation,
      hasMember_of_mem_edges h he hrelation⟩,
    fun _ hs _ hr => id_of_routines_get? h hs hr⟩

/-- A class in a namespace with a method that has a local function, and in it a class with a
destructor and a field. -/
def Sample.nestedClasses : SourceFile × Tree :=
  (⟨"a.cs", Utf8.encode ("namespace N \x7b class A \x7b void M() \x7b void L() \x7b \x7d \x7d " ++
      "class B \x7b ~B() \x7b \x7d int x; \x7d \x7d \x7d").toList⟩,
    .node { kind := "compilation_unit", stop := 81 }
      [.node { kind := "namespace_declaration", stop := 81, key := 1 }
        [leaf "identifier" "name" 2 10 11,
          .node { kind := "declaration_list", field := "body", start := 12, stop := 81, key := 3 }
            [.node { kind := "class_declaration", start := 14, stop := 79, key := 4 }
              [leaf "identifier" "name" 5 20 21,
                .node { kind := "declaration_list", field := "body", start := 22, stop := 79,
                        key := 6 }
                  [.node { kind := "method_declaration", start := 24, stop := 49, key := 7 }
                    [leaf "predefined_type" "returns" 8 24 28, leaf "identifier" "name" 9 29 30,
                      leaf "parameter_list" "parameters" 10 30 32,
                      .node { kind := "block", field := "body", start := 33, stop := 49, key := 11 }
                        [.node { kind := "local_function_statement", start := 35, stop := 47,
                                 key := 12 }
                          [leaf "predefined_type" "type" 13 35 39,
                            leaf "identifier" "name" 14 40 41,
                            leaf "parameter_list" "parameters" 15 41 43,
                            leaf "block" "body" 16 44 47]]],
                    .node { kind := "class_declaration", start := 50, stop := 77, key := 17 }
                      [leaf "identifier" "name" 18 56 57,
                        .node { kind := "declaration_list", field := "body", start := 58,
                                stop := 77, key := 19 }
                          [.node { kind := "destructor_declaration", start := 60, stop := 68,
                                   key := 20 }
                            [leaf "identifier" "name" 21 61 62,
                              leaf "parameter_list" "parameters" 22 62 64,
                              leaf "block" "body" 23 65 68],
                            .node { kind := "field_declaration", start := 69, stop := 75,
                                    key := 24 }
                              [.node { kind := "variable_declaration", start := 69, stop := 74,
                                       key := 25 }
                                [leaf "predefined_type" "type" 26 69 72,
                                  .node { kind := "variable_declarator", start := 73, stop := 74,
                                          key := 27 }
                                    [leaf "identifier" "name" 28 73 74]]]]]]]]]])

/-- The destructor belongs to the inner class, and the local function to the outer one. -/
theorem nested_class_members :
    WellScoped Sample.nestedClasses.1.bytes Sample.nestedClasses.2 ∧
      (analyze Sample.nestedClasses.1 Sample.nestedClasses.2).ids =
        ["N.A", "N.A:M", "N.A:L", "N.A.B", "N.A.B:~B", "N.A.B:x"] ∧
      ∀ e ∈ ([⟨"N.A.B", "N.A.B:~B", Relation.hasMethod⟩,
          ⟨"N.A", "N.A:L", Relation.hasMethod⟩] : List Edge),
        ∃ t ∈ Sample.nestedClasses.2.sites,
          (initialState Sample.nestedClasses.1 Sample.nestedClasses.2).outline.types.get?
            t.node.key = some e.source ∧
          ∃ name, HasMember Sample.nestedClasses.1 Sample.nestedClasses.2 t e.relation name ∧
            e.target = e.source ++ ":" ++ name := by
  have hscoped : WellScoped Sample.nestedClasses.1.bytes Sample.nestedClasses.2 :=
    { keys := by decide +kernel
      names := by decide +kernel
      spaces := by decide +kernel
      bodies := by decide +kernel }
  have hedges : ∀ e ∈ ([⟨"N.A.B", "N.A.B:~B", Relation.hasMethod⟩,
      ⟨"N.A", "N.A:L", Relation.hasMethod⟩] : List Edge),
      e ∈ (analyze Sample.nestedClasses.1 Sample.nestedClasses.2).edges ∧
        e.relation ∈ Relation.owning := by
    decide +kernel
  refine ⟨hscoped, by decide +kernel, fun e he => ?_⟩
  exact ((type_ids_from_scope hscoped).2.1 e (hedges e he).1 (hedges e he).2).2

end CSharp

end CodeGraph
