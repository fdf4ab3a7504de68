import CodeGraph.Proofs.Graph.Lookup
import CodeGraph.Proofs.Linking.Inheritance

/-!
The edges from a type to its members. A member is known by its type and its name, whether it is a
method or a field, and of two declarations with one ID the first gives the node. So the edge of a
member leads to a node of its own kind exactly if the first declaration with its ID is of that kind;
in a file of Java names, exactly if no type has a method and a field of one name.
-/

namespace CodeGraph

/-! ### Edges and nodes of declarations -/

/-- The relations from a type to its members, each with the label that such members have. -/
def Relation.memberLabels : List (String × String) :=
  [(Relation.hasMethod, Label.method), (Relation.defines, Label.field)]

namespace Declaration

def edge? : Declaration → Option Edge
  | routine _ _ n (some owner) => some ⟨owner, n.id, Relation.hasMethod⟩
  | field _ n owner _ => some ⟨owner, n.id, Relation.defines⟩
  | _ => none

def relation? (d : Declaration) : Option String :=
  d.edge?.map (·.relation)

theorem target_of_edge? {d : Declaration} {e : Edge} (h : d.edge? = some e) :
    e.target = d.node.id := by
  cases d with
  | type => cases h
  | routine _ _ _ owner => cases owner <;> cases h; rfl
  | field => cases h; rfl
  | global => cases h

theorem relation_of_edge? {d : Declaration} {e : Edge} (h : d.edge? = some e) :
    ∃ x ∈ Relation.memberLabels, e.relation = x.1 := by
  cases d with
  | type => cases h
  | routine _ _ _ owner => cases owner <;> cases h; exact ⟨_, List.mem_cons_self, rfl⟩
  | field => cases h; exact ⟨_, List.mem_cons_of_mem _ List.mem_cons_self, rfl⟩
  | global => cases h

theorem exists_relation? {d : Declaration} (h : d.edge?.isSome) :
    ∃ x ∈ Relation.memberLabels, d.relation? = some x.1 := by
  obtain ⟨e, he⟩ := Option.isSome_iff_exists.mp h
  obtain ⟨x, hx, hr⟩ := relation_of_edge? he
  exact ⟨x, hx, by rw [relation?, he, Option.map_some, hr]⟩

theorem isSome_member?_iff (d : Declaration) : d.member?.isSome ↔ d.edge?.isSome := by
  cases d with
  | type => rfl
  | routine _ _ _ owner => cases owner <;> rfl
  | field => rfl
  | global => rfl

end Declaration

def firstWith? (ds : List Declaration) (id : String) : Option Declaration :=
  ds.find? (·.node.id == id)

namespace Outline

theorem mem_edges_record {o : Outline} {d : Declaration} {e : Edge} :
    e ∈ (o.record d).fragment.edges ↔ e ∈ o.fragment.edges ∨ d.edge? = some e := by
  have hmember (n : Node) (owner relation : String) :
      e ∈ ((o.fragment.addNode n).addEdge owner n.id relation).edges ↔
        e ∈ o.fragment.edges ∨ some (⟨owner, n.id, relation⟩ : Edge) = some e := by
    rw [Fragment.mem_edges_addEdge, Fragment.edges_addNode, Option.some_inj, eq_comm (a := e)]
  have hplain (n : Node) :
      e ∈ (o.fragment.addNode n).edges ↔ e ∈ o.fragment.edges ∨ (none : Option Edge) = some e := by
    simp
  cases d with
  | type key name n isInterface => exact hplain n
  | routine key name n owner =>
      cases owner with
      | none => exact hplain n
      | some owner => exact hmember n owner _
  | field name n owner typeText => exact hmember n owner _
  | global name n => exact hplain n

theorem mem_edges_ofDeclarations {ds : List Declaration} {e : Edge} :
    e ∈ (ofDeclarations ds).fragment.edges ↔ ∃ d ∈ ds, d.edge? = some e := by
  have hall (o : Outline) : e ∈ (ds.foldl record o).fragment.edges ↔
      e ∈ o.fragment.edges ∨ ∃ d ∈ ds, d.edge? = some e := by
    induction ds generalizing o with
    | nil => simp
    | cons d ds ih => rw [List.foldl_cons, ih, mem_edges_record, or_assoc, List.exists_mem_cons_iff]
  rw [ofDeclarations, hall]
  simp

theorem node?_ofDeclarations (ds : List Declaration) (id : String) :
    (ofDeclarations ds).fragment.node? id = (firstWith? ds id).map Declaration.node := by
  have hfound : (firstWith? ds id).map Declaration.node =
      ds.findSome? fun d => if d.node.id = id then some d.node else none := by
    induction ds with
    | nil => rfl
    | cons d ds ih =>
        rw [firstWith?, List.findSome?_cons, ← ih]
        by_cases hid : d.node.id = id
        · rw [List.find?_cons_of_pos (by simpa using hid), if_pos hid, Option.map_some]
        · rw [List.find?_cons_of_neg (by simpa using hid), if_neg hid, firstWith?]
  rw [hfound]
  refine read_ofDeclarations (fun o => o.fragment.node? id) rfl (fun o d => ?_) ds
  rw [← Fragment.node?_addNode, Fragment.node?, nodes_record, Fragment.node?]

theorem nodup_ids_ofDeclarations (ds : List Declaration) :
    (ofDeclarations ds).fragment.ids.Nodup := by
  refine List.foldlRecOn (motive := fun o : Outline => o.fragment.ids.Nodup) ds record .nil
    fun o ho d _ => ?_
  rw [Fragment.ids, nodes_record]
  exact Fragment.nodup_addNode ho d.node

/-- References add no edge from a type to a member. -/
theorem Grown.mem_owning_iff {o o' : Outline} (h : o.Grown o') {e : Edge}
    (he : e.relation ∈ Relation.owning) : e ∈ o'.fragment.edges ↔ e ∈ o.fragment.edges := by
  have hother : ∀ r ∈ Relation.owning, r ∉ Relation.outgoing ∧ r ∉ Relation.supertyping := by
    decide
  obtain ⟨houtgoing, hsupertyping⟩ := hother _ he
  refine ⟨fun hmem => ?_, fun hmem => h.kept hmem⟩
  rcases h.edges e hmem with hmem | ⟨hrelation, -⟩ | hrelation
  · exact hmem
  · exact absurd hrelation houtgoing
  · exact absurd hrelation hsupertyping

end Outline

namespace Linker

variable (L : Linker) {f : SourceFile} {root : Tree}

/-- The edges from types to members are those that the declarations give. -/
theorem mem_owning_analyze_iff {e : Edge} (he : e.relation ∈ Relation.owning) :
    e ∈ (L.analyze f root).edges ↔ ∃ d ∈ L.declarations f root, d.edge? = some e := by
  rw [analyze, (L.grown_foldl_visit _ _).mem_owning_iff he, L.outline_initialState,
    Outline.mem_edges_ofDeclarations]

/-- The first declaration with an ID gives the node. -/
theorem exists_label_iff {id label : String} :
    (∃ n ∈ (L.analyze f root).nodes, n.id = id ∧ n.label = label) ↔
      ∃ first, firstWith? (L.declarations f root) id = some first ∧ first.node.label = label := by
  have hnode := Outline.node?_ofDeclarations (L.declarations f root) id
  rw [analyze, (L.grown_foldl_visit _ _).nodes, L.outline_initialState]
  constructor
  · rintro ⟨n, hn, rfl, rfl⟩
    rw [Fragment.node?_of_mem (Outline.nodup_ids_ofDeclarations _) hn, eq_comm,
      Option.map_eq_some_iff] at hnode
    obtain ⟨first, hfirst, rfl⟩ := hnode
    exact ⟨first, hfirst, rfl⟩
  · rintro ⟨first, hfirst, rfl⟩
    rw [hfirst, Option.map_some] at hnode
    obtain ⟨hmem, hid⟩ := Fragment.mem_nodes_of_node? hnode
    exact ⟨first.node, hmem, hid, rfl⟩

end Linker

/-- Every edge from a type to a method leads to a method, and every edge from a type to a field
leads to a field. -/
def Fragment.MembersTyped (g : Fragment) : Prop :=
  ∀ x ∈ Relation.memberLabels, ∀ e ∈ g.edgesOf x.1,
    ∃ n ∈ g.nodes, n.id = e.target ∧ n.label = x.2

instance (g : Fragment) : Decidable g.MembersTyped :=
  inferInstanceAs (Decidable (∀ x ∈ _, _))

namespace Ident

/-- Where names hold no colon, a member tells its owner and its name. -/
theorem member_inj {owner owner' name name' : String} (hname : ':' ∉ name.toList)
    (hname' : ':' ∉ name'.toList) (h : member owner name = member owner' name') :
    owner = owner' ∧ name = name' := by
  have hchars (owner name : String) :
      (member owner name).toList = owner.toList ++ ':' :: name.toList := by
    simp [member, String.toList_append]
  have hlast (owner : String) {name : String} (hname : ':' ∉ name.toList) :
      Seq.lastPiece (· == ':') (member owner name).toList = name.toList := by
    rw [hchars, Seq.lastPiece_append_cons (by decide), Seq.lastPiece_of_not_sep]
    intro c hc
    exact beq_false_of_ne fun hcolon => hname (hcolon ▸ hc)
  obtain rfl : name = name' := by
    rw [← String.toList_inj, ← hlast owner hname, h, hlast owner' hname']
  refine ⟨?_, rfl⟩
  rwa [member, member, String.append_left_inj, String.append_left_inj] at h

theorem colon_mem_member (owner name : String) : ':' ∈ (member owner name).toList := by
  simp [member, String.toList_append]

theorem colon_notMem_typeIn {space name : String} {owner : Option String}
    (hspace : ':' ∉ space.toList) (howner : ∀ o ∈ owner, ':' ∉ o.toList)
    (hname : ':' ∉ name.toList) : ':' ∉ (typeIn space owner name).toList := by
  cases owner with
  | none =>
      rw [typeIn, qualified]
      split
      · exact hname
      · simp [String.toList_append, hspace, hname]
  | some o => simp [typeIn, String.toList_append, howner o rfl, hname]

end Ident

namespace Java

open CodeGraph.Tree (OwnedSite Search leaf)
open Declaration

/-! ### Labels -/

section Labels

variable {f : SourceFile} {package : String} {d : Declaration}

theorem label_mark (n : Node) (key : String) (holds : Bool) :
    (mark n key holds).label = n.label := by
  unfold mark
  split <;> rfl

theorem label_of_mem_fieldDeclarations {t : Tree} {owner : String}
    (h : d ∈ fieldDeclarations f t owner) : d.node.label = Label.field := by
  obtain ⟨declarator, -, h⟩ := List.mem_filterMap.mp h
  obtain ⟨name, -, rfl⟩ := Option.map_eq_some_iff.mp h
  exact label_mark ..

theorem label_of_mem_componentDeclarations {t : Tree} {owner : String}
    (h : d ∈ componentDeclarations f t owner) : d.node.label = Label.field := by
  unfold componentDeclarations at h
  split at h
  case isFalse => cases h
  case isTrue =>
    split at h
    case h_1 => cases h
    case h_2 =>
      obtain ⟨p, -, h⟩ := List.mem_filterMap.mp h
      split at h
      case h_1 => cases h; rfl
      case h_2 => cases h

/-- The label of a declaration tells whether it is a method, a field or neither. -/
theorem Made.label_iff (h : Made f package d) :
    ∀ x ∈ Relation.memberLabels, d.node.label = x.2 ↔ d.relation? = some x.1 := by
  have hfield (hlabel : d.node.label = Label.field) (hd : d.relation? = some Relation.defines) :
      ∀ x ∈ Relation.memberLabels, d.node.label = x.2 ↔ d.relation? = some x.1 := by
    rw [hlabel, hd]
    decide
  cases h with
  | type t owner name =>
      have hlabel :
          (typeDeclaration f package t (Ident.typeIn package owner name) name).node.label ∈
            [Label.interface, Label.class_] := by
        show (if _ then Label.interface else Label.class_) ∈ _
        split <;> decide
      have hother : ∀ label ∈ [Label.interface, Label.class_], ∀ x ∈ Relation.memberLabels,
          label ≠ x.2 := by
        decide
      intro x hx
      exact iff_of_false (hother _ hlabel x hx) (by rintro ⟨⟩)
  | method t owner name =>
      have hlabel : (methodDeclaration f t owner name).node.label = Label.method := by
        rw [methodDeclaration, node, label_mark]
        split <;> rfl
      have hsome : (methodDeclaration f t owner name).relation? = some Relation.hasMethod := rfl
      rw [hlabel, hsome]
      decide
  | field h =>
      refine hfield (label_of_mem_fieldDeclarations h) ?_
      obtain ⟨_, _, _, rfl, -⟩ := field_of_mem_fieldDeclarations h
      rfl
  | component h =>
      refine hfield (label_of_mem_componentDeclarations h) ?_
      obtain ⟨_, _, _, rfl, -⟩ := field_of_mem_componentDeclarations h
      rfl

end Labels

/-! ### IDs of types -/

/-- No name of a type in these declarations holds a colon. -/
def PlainTypes (ds : List Declaration) : Prop :=
  ∀ d ∈ ds, ∀ x ∈ d.type?, ':' ∉ x.1.toList

instance (ds : List Declaration) : Decidable (PlainTypes ds) :=
  inferInstanceAs (Decidable (∀ d ∈ ds, _))

def PlainTypeIds (ds : List Declaration) : Prop :=
  ∀ d ∈ ds, ∀ x ∈ d.type?, ':' ∉ x.2.toList

section PlainTypes

variable {f : SourceFile} {package : String} {root : Tree} {x : OwnedSite}

/-- A type that is declared at a place has the ID of one in the owner there. -/
theorem typeId_of_mem_declaredAt {d : Declaration} (hd : d ∈ declaredAt f package x)
    {name id : String} (htype : d.type? = some (name, id)) :
    id = Ident.typeIn package x.2 name := by
  unfold declaredAt at hd
  dsimp only at hd
  split at hd
  · split at hd
    case h_1 => cases hd
    case h_2 =>
      rcases List.mem_cons.mp hd with rfl | hd
      · cases htype
        rfl
      · obtain ⟨_, _, _, rfl, -⟩ := field_of_mem_componentDeclarations hd
        cases htype
  · split at hd
    · split at hd
      · cases List.mem_singleton.mp hd
        cases htype
      · cases hd
    · split at hd
      · obtain ⟨owner, -, hd⟩ := List.mem_flatMap.mp hd
        obtain ⟨_, _, _, rfl, -⟩ := field_of_mem_fieldDeclarations hd
        cases htype
      · cases hd

/-- The owner that the search carries on is that of the place or, in a type, the type. -/
theorem owner_onward {owner : String} (howner : (onward f package x).2 = some owner) :
    x.2 = some owner ∨ ∃ name, x.1.node.isKind typeKinds = true ∧
      x.1.node.childText? f.bytes "name" = some name ∧ owner = Ident.typeIn package x.2 name := by
  unfold onward at howner
  dsimp only at howner
  split at howner
  case isTrue hkind =>
    split at howner
    case h_1 => cases howner
    case h_2 name hname => exact .inr ⟨name, hkind, hname, (Option.some_inj.mp howner).symm⟩
  case isFalse =>
    split at howner
    · split at howner
      case h_1 howner' _ => exact .inl (howner'.trans howner)
      case h_2 => cases howner
    · split at howner
      · cases howner
      · exact .inl howner

variable (hpackage : ':' ∉ package.toList) (hnames : PlainTypes (declarations f package none root))

include hpackage hnames

/-- The search carries no owner with a colon in it. -/
theorem Reaches.colon_notMem_owner (hx : Reaches f package root x) :
    ∀ owner ∈ x.2, ':' ∉ owner.toList := by
  induction hx with
  | refl => rintro owner ⟨⟩
  | @tail x y hx hstep ih =>
      intro owner howner
      have honward : (onward f package x).2 = some owner :=
        (Search.mem_inside_iff.mp hstep).2.symm.trans howner
      rcases owner_onward honward with howner | ⟨name, hkind, hname, rfl⟩
      · exact ih owner howner
      · have hd := mem_declarations_iff.mpr ⟨x, hx, typeDeclaration_mem_declaredAt hkind hname⟩
        exact Ident.colon_notMem_typeIn hpackage ih (hnames _ hd _ rfl)

theorem plainTypeIds_declarations : PlainTypeIds (declarations f package none root) := by
  rintro d hd ⟨name, id⟩ htype
  obtain ⟨x, hx, hdeclared⟩ := mem_declarations_iff.mp hd
  rw [typeId_of_mem_declaredAt hdeclared htype]
  exact Ident.colon_notMem_typeIn hpackage (hx.colon_notMem_owner hpackage hnames)
    (hnames d hd _ htype)

end PlainTypes

/-! ### Members of a file -/

section Members

variable (f : SourceFile) (root : Tree)

/-- The member has a node of its own kind. -/
def KeepsNode (d : Declaration) : Prop :=
  ∃ n ∈ (analyze f root).nodes, n.id = d.node.id ∧ n.label = d.node.label

/-- The names of Java hold no colons. -/
structure PlainNames : Prop where
  package : ':' ∉ (packageName f.bytes root).toList
  types : PlainTypes (fileDeclarations f root)
  members : ∀ d ∈ fileDeclarations f root, ∀ x ∈ d.member?, ':' ∉ x.2.toList

/-- A type declares a method and a field of one name. -/
def SharesName (owner name : String) : Prop :=
  ∃ d ∈ fileDeclarations f root, ∃ d' ∈ fileDeclarations f root,
    d.member? = some (owner, name) ∧ d'.member? = some (owner, name) ∧
      d.relation? = some Relation.hasMethod ∧ d'.relation? = some Relation.defines

variable {f root}

theorem made_of_mem {d : Declaration} (hd : d ∈ fileDeclarations f root) :
    Made f (packageName f.bytes root) d :=
  made_of_mem_declarations root d hd

theorem membersTyped_iff_keepsNode :
    (analyze f root).MembersTyped ↔
      ∀ d ∈ fileDeclarations f root, d.edge?.isSome → KeepsNode f root d := by
  have howning : ∀ x ∈ Relation.memberLabels, x.1 ∈ Relation.owning := by decide
  constructor
  · intro htyped d hd hedge
    obtain ⟨e, he⟩ := Option.isSome_iff_exists.mp hedge
    obtain ⟨x, hx, hr⟩ := relation_of_edge? he
    have hmem := (linker.mem_owning_analyze_iff (hr ▸ howning x hx)).mpr ⟨d, hd, he⟩
    have hlabel : d.node.label = x.2 := by
      rw [(made_of_mem hd).label_iff x hx, relation?, he, Option.map_some, hr]
    rw [KeepsNode, ← target_of_edge? he, hlabel]
    exact htyped x hx e (List.mem_filter.mpr ⟨hmem, beq_iff_eq.mpr hr⟩)
  · intro hkeeps x hx e he
    obtain ⟨he, hr⟩ := List.mem_filter.mp he
    rw [beq_iff_eq] at hr
    obtain ⟨d, hd, hedge⟩ := (linker.mem_owning_analyze_iff (hr ▸ howning x hx)).mp he
    have hlabel : d.node.label = x.2 := by
      rw [(made_of_mem hd).label_iff x hx, relation?, hedge, Option.map_some, hr]
    rw [target_of_edge? hedge, ← hlabel]
    exact hkeeps d hd (by rw [hedge, Option.isSome_some])

/-- A member keeps its node exactly if the first declaration with its ID is of its kind. -/
theorem keepsNode_iff {d : Declaration} (hd : d ∈ fileDeclarations f root)
    (hedge : d.edge?.isSome) :
    KeepsNode f root d ↔
      (firstWith? (fileDeclarations f root) d.node.id).bind relation? = d.relation? := by
  obtain ⟨x, hx, hrelation⟩ := exists_relation? hedge
  rw [KeepsNode, hrelation, Option.bind_eq_some_iff,
    ((made_of_mem hd).label_iff x hx).mpr hrelation]
  refine linker.exists_label_iff.trans <| exists_congr fun first => and_congr_right fun hfirst => ?_
  exact (made_of_mem (List.mem_of_find?_eq_some hfirst)).label_iff x hx

/-! ### Names without colons -/

theorem PlainNames.colon_notMem_id (h : PlainNames f root) {d : Declaration}
    (hd : d ∈ fileDeclarations f root) (hmember : d.member? = none) : ':' ∉ d.node.id.toList := by
  have hids : PlainTypeIds (fileDeclarations f root) :=
    plainTypeIds_declarations h.package h.types
  cases hmade : made_of_mem hd with
  | type t owner name =>
      have hid := hids _ hd (name, Ident.typeIn (packageName f.bytes root) owner name) rfl
      exact hid
  | method t owner name => cases hmember
  | field hfield =>
      obtain ⟨_, _, _, rfl, -⟩ := field_of_mem_fieldDeclarations hfield
      cases hmember
  | component hcomponent =>
      obtain ⟨_, _, _, rfl, -⟩ := field_of_mem_componentDeclarations hcomponent
      cases hmember

/-- Where names hold no colons, a declaration with the ID of a member is one of the same type and
name. -/
theorem PlainNames.member?_eq (h : PlainNames f root) {d d' : Declaration}
    (hd : d ∈ fileDeclarations f root) (hd' : d' ∈ fileDeclarations f root) {owner name : String}
    (hmember : d.member? = some (owner, name)) (hid : d'.node.id = d.node.id) :
    d'.member? = some (owner, name) := by
  have hmemberId := (made_of_mem hd).member_id hmember
  cases hmember' : d'.member? with
  | none =>
      have hcolon := h.colon_notMem_id hd' hmember'
      rw [hid, hmemberId] at hcolon
      exact absurd (Ident.colon_mem_member owner name) hcolon
  | some x =>
      obtain ⟨owner', name'⟩ := x
      have hmemberId' := (made_of_mem hd').member_id hmember'
      obtain ⟨rfl, rfl⟩ := Ident.member_inj (h.members d' hd' _ hmember') (h.members d hd _ hmember)
        (hmemberId'.symm.trans (hid.trans hmemberId))
      rfl

end Members

/-- The members of a Java file are typed exactly if every member keeps its node, that is, if the
first declaration with its ID is of its kind: a method for a method, a field for a field. Where
names hold no colons, that is the case exactly if no type has a method and a field of one name. -/
theorem members_typed_iff (f : SourceFile) (root : Tree) :
    ((analyze f root).MembersTyped ↔
        ∀ d ∈ fileDeclarations f root, d.edge?.isSome → KeepsNode f root d) ∧
      ((analyze f root).MembersTyped ↔ ∀ d ∈ fileDeclarations f root, d.edge?.isSome →
        (firstWith? (fileDeclarations f root) d.node.id).bind relation? = d.relation?) ∧
      (PlainNames f root →
        ((analyze f root).MembersTyped ↔ ∀ owner name, ¬ SharesName f root owner name)) := by
  have hfirst : (analyze f root).MembersTyped ↔ ∀ d ∈ fileDeclarations f root, d.edge?.isSome →
      (firstWith? (fileDeclarations f root) d.node.id).bind relation? = d.relation? := by
    rw [membersTyped_iff_keepsNode]
    exact forall₃_congr fun d hd hedge => keepsNode_iff hd hedge
  refine ⟨membersTyped_iff_keepsNode, hfirst, fun hplain => hfirst.trans ⟨?_, ?_⟩⟩
  · rintro htyped owner name ⟨d, hd, d', hd', hmember, hmember', hmethod, hfield⟩
    -- Both have the same ID, so the first declaration with it would have to be of both kinds.
    have hid : d.node.id = d'.node.id := by
      rw [(made_of_mem hd).member_id hmember, (made_of_mem hd').member_id hmember']
    have hd := htyped d hd ((isSome_member?_iff d).mp (by rw [hmember, Option.isSome_some]))
    have hd' := htyped d' hd' ((isSome_member?_iff d').mp (by rw [hmember', Option.isSome_some]))
    rw [hmethod] at hd
    rw [← hid, hd, hfield] at hd'
    exact absurd hd' (by decide)
  · intro hshares d hd hedge
    obtain ⟨⟨owner, name⟩, hmember⟩ :=
      Option.isSome_iff_exists.mp ((isSome_member?_iff d).mpr hedge)
    obtain ⟨first, hfound⟩ : ∃ first, firstWith? (fileDeclarations f root) d.node.id = some first :=
      Option.isSome_iff_exists.mp (List.find?_isSome.mpr ⟨d, hd, beq_self_eq_true _⟩)
    have hmem : first ∈ fileDeclarations f root := List.mem_of_find?_eq_some hfound
    have hid : first.node.id = d.node.id := by simpa using List.find?_some hfound
    have hsame := hplain.member?_eq hd hmem hmember hid
    obtain ⟨x, hx, hd'⟩ := exists_relation? hedge
    obtain ⟨y, hy, hfirst'⟩ := exists_relation?
      ((isSome_member?_iff first).mp (by rw [hsame, Option.isSome_some]))
    rw [hfound, Option.bind_some, hd', hfirst', Option.some_inj]
    by_contra hne
    have hkinds : ∀ x ∈ Relation.memberLabels, ∀ y ∈ Relation.memberLabels, y.1 ≠ x.1 →
        x.1 = Relation.hasMethod ∧ y.1 = Relation.defines ∨
          y.1 = Relation.hasMethod ∧ x.1 = Relation.defines := by
      decide
    rcases hkinds x hx y hy hne with ⟨hmethod, hfield⟩ | ⟨hmethod, hfield⟩
    · exact hshares owner name ⟨d, hd, first, hmem, hmember, hsame, hmethod ▸ hd', hfield ▸ hfirst'⟩
    · exact hshares owner name ⟨first, hmem, d, hd, hsame, hmember, hmethod ▸ hfirst', hfield ▸ hd'⟩

/-- In a class whose field and method have different names, both keep their nodes. -/
theorem importing_class_members_typed :
    PlainNames Sample.file Sample.tree ∧ (analyze Sample.file Sample.tree).MembersTyped ∧
      ∀ owner name, ¬ SharesName Sample.file Sample.tree owner name := by
  have hplain : PlainNames Sample.file Sample.tree :=
    ⟨by decide +kernel, by decide +kernel, by decide +kernel⟩
  obtain ⟨-, hfirst, hshares⟩ := members_typed_iff Sample.file Sample.tree
  have htyped : (analyze Sample.file Sample.tree).MembersTyped := hfirst.mpr (by decide +kernel)
  exact ⟨hplain, htyped, (hshares hplain).mp htyped⟩

/-- A class with a field and a method of one name, and a record that declares the accessor of its
component. -/
def Sample.sharing : List (SourceFile × Tree) :=
  [(⟨"A.java", Utf8.encode "class A \x7b T x; void x() \x7b \x7d \x7d".toList⟩,
      .node { kind := "program", stop := 29 }
        [.node { kind := "class_declaration", stop := 29, key := 1 }
          [leaf "identifier" "name" 2 6 7,
            .node { kind := "class_body", field := "body", start := 8, stop := 29, key := 3 }
              [field 4 10, method 10 15 21 27 []]]]),
    (⟨"A.java", Utf8.encode "record A(int x) \x7b int x() \x7b return x; \x7d \x7d".toList⟩,
      .node { kind := "program", stop := 41 }
        [.node { kind := "record_declaration", stop := 41, key := 1 }
          [leaf "identifier" "name" 2 7 8,
            .node { kind := "formal_parameters", field := "parameters", start := 8, stop := 15,
                    key := 3 }
              [.node { kind := "formal_parameter", start := 9, stop := 14, key := 4 }
                [leaf "integral_type" "type" 5 9 12, leaf "identifier" "name" 6 13 14]],
            .node { kind := "class_body", field := "body", start := 16, stop := 41, key := 7 }
              [.node { kind := "method_declaration", start := 18, stop := 39, key := 8 }
                [leaf "integral_type" "type" 9 18 21, leaf "identifier" "name" 10 22 23,
                  leaf "formal_parameters" "parameters" 11 23 25,
                  .node { kind := "block", field := "body", start := 26, stop := 39, key := 12 }
                    [.node { kind := "return_statement", start := 28, stop := 37, key := 13 }
                      [leaf "identifier" "" 14 35 36]]]]]])]

/-- The method has no node: the edge from the type to it leads to the field. -/
theorem method_loses_node_to_field :
    (¬ ∀ f root, (analyze f root).MembersTyped) ∧
      ∀ x ∈ Sample.sharing, ⟨"A", "A:x", Relation.hasMethod⟩ ∈ (analyze x.1 x.2).edges ∧
        ((analyze x.1 x.2).nodes.filter (·.id == "A:x")).map (·.label) = [Label.field] ∧
        ¬ (analyze x.1 x.2).MembersTyped := by
  have hlost : ∀ x ∈ Sample.sharing, ⟨"A", "A:x", Relation.hasMethod⟩ ∈ (analyze x.1 x.2).edges ∧
      ((analyze x.1 x.2).nodes.filter (·.id == "A:x")).map (·.label) = [Label.field] ∧
      ¬ (analyze x.1 x.2).MembersTyped := by decide +kernel
  refine ⟨fun hall => ?_, hlost⟩
  obtain ⟨-, -, huntyped⟩ := hlost _ List.mem_cons_self
  exact huntyped (hall _ _)

end Java

end CodeGraph
