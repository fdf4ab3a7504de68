import CodeGraph.CSharp.Declarations
import CodeGraph.Cpp.Items
import CodeGraph.Java.Declarations
import CodeGraph.Proofs.Graph.Searches
import CodeGraph.Proofs.Graph.Tidy
import CodeGraph.TypeScript.Declarations

/-!
How the declarations of a tree come about. They are what a search finds at the places that it comes
to, and each of them is made in one of a few ways, from the node of the place and the owner and name
found there. So what holds for each of these ways holds for all declarations of a file. The items of
a C or C++ file are found by a search as well.
-/

namespace CodeGraph

namespace Declaration

def node : Declaration → Node
  | type _ _ n _ => n
  | routine _ _ n _ => n
  | field _ n _ _ => n
  | global _ n => n

theorem id_mark (n : Node) (key : String) (holds : Bool) : (mark n key holds).id = n.id := by
  unfold mark
  split <;> rfl

end Declaration

namespace Outline

theorem nodes_record (o : Outline) (d : Declaration) :
    (o.record d).fragment.nodes = (o.fragment.addNode d.node).nodes := by
  cases d with
  | type => rfl
  | routine _ _ _ owner =>
      cases owner with
      | none => rfl
      | some owner => exact Fragment.nodes_addEdge ..
  | field => exact Fragment.nodes_addEdge ..
  | global => rfl

theorem mem_ids_record {o : Outline} {d : Declaration} {id : String} :
    id ∈ (o.record d).fragment.ids ↔ id ∈ o.fragment.ids ∨ id = d.node.id := by
  rw [Fragment.ids, nodes_record]
  exact Fragment.mem_ids_addNode

/-- Every declaration has its node. -/
theorem id_mem_ofDeclarations {ds : List Declaration} {d : Declaration} (hd : d ∈ ds) :
    d.node.id ∈ (ofDeclarations ds).fragment.ids := by
  unfold ofDeclarations
  refine foldl_of_mem (I := fun _ => True) (Q := fun o : Outline => d.node.id ∈ o.fragment.ids) hd
    trivial (fun _ _ _ _ => trivial) (fun o _ => ?_) fun o _ _ h => ?_
  · exact mem_ids_record.mpr (.inr rfl)
  · exact mem_ids_record.mpr (.inl h)

end Outline

open Declaration
open CodeGraph.Tree (OwnedSite Search Way)

/-! ### Java -/

namespace Java

/-- The ways to make a declaration, from a node of which something is known. -/
inductive MadeFrom (Q : Tree → Prop) (f : SourceFile) (package : String) : Declaration → Prop where
  | type (t : Tree) (owner : Option String) (name : String) (ht : Q t) :
      MadeFrom Q f package (typeDeclaration f package t (Ident.typeIn package owner name) name)
  | method (t : Tree) (owner name : String) (ht : Q t) :
      MadeFrom Q f package (methodDeclaration f t owner name)
  | field {t : Tree} {owner : String} {d : Declaration} (h : d ∈ fieldDeclarations f t owner) :
      MadeFrom Q f package d
  | component {t : Tree} {owner : String} {d : Declaration}
      (h : d ∈ componentDeclarations f t owner) : MadeFrom Q f package d

abbrev Made (f : SourceFile) (package : String) : Declaration → Prop :=
  MadeFrom (fun _ => True) f package

variable {Q : Tree → Prop} {f : SourceFile} {package : String}

theorem Made.method (t : Tree) (owner name : String) :
    Made f package (methodDeclaration f t owner name) :=
  MadeFrom.method t owner name trivial

/-! #### The search -/

section Search

variable (f : SourceFile) (package : String)

/-- What is declared at a place itself. -/
def declaredAt (x : OwnedSite) : List Declaration :=
  let t := x.1.node
  if t.isKind typeKinds then
    match t.childText? f.bytes "name" with
    | none => []
    | some name =>
        let id := Ident.typeIn package x.2 name
        typeDeclaration f package t id name :: componentDeclarations f t id
  else if t.isKind methodKinds then
    match x.2, t.childText? f.bytes "name" with
    | some owner, some name => [methodDeclaration f t owner name]
    | _, _ => []
  else if t.isKind fieldKinds then x.2.toList.flatMap (fieldDeclarations f t)
  else []

/-- Where the search goes on from a place. -/
def onward (x : OwnedSite) : Way × Option String :=
  let t := x.1.node
  if t.isKind typeKinds then
    match t.childText? f.bytes "name" with
    | none => (.stop, none)
    | some name => (.inBody, some (Ident.typeIn package x.2 name))
  else if t.isKind methodKinds then
    match x.2, t.childText? f.bytes "name" with
    | some owner, some _ => (.body, some owner)
    | _, _ => (.stop, none)
  else if t.isKind fieldKinds then (.stop, none)
  else (.children, x.2)

theorem declarationsAll_eq (owner : Option String) (ts : List Tree) :
    declarationsAll f package owner ts = ts.flatMap (declarations f package owner) :=
  Tree.eq_flatMap_of_siblings rfl (fun _ _ => rfl) ts

theorem declarationsInBody_eq (owner : String) (ts : List Tree) :
    declarationsInBody f package owner ts = (ts.find? (·.field == "body")).toList.flatMap fun b =>
      b.children.flatMap (declarations f package (some owner)) := by
  refine Tree.eq_flatMap_of_role rfl (fun t ts => ?_) ts
  obtain ⟨i, cs⟩ := t
  rw [declarationsInBody, declarationsAll_eq]
  rfl

theorem declarationsOfBody_eq (owner : String) (ts : List Tree) :
    declarationsOfBody f package owner ts =
      (ts.find? (·.field == "body")).toList.flatMap (declarations f package (some owner)) := by
  refine Tree.eq_flatMap_of_role rfl (fun t ts => ?_) ts
  obtain ⟨i, cs⟩ := t
  rw [declarationsOfBody]
  rfl

/-- The declarations below a place are those at the place, then those where the search goes. -/
theorem declarations_eq (x : OwnedSite) :
    declarations f package x.2 x.1.node =
      declaredAt f package x ++ ((onward f package x).1.sites x.1).flatMap fun s =>
        declarations f package (onward f package x).2 s.node := by
  obtain ⟨⟨⟨i, cs⟩, above⟩, owner⟩ := x
  have hkind : ∀ kinds, (Tree.node i cs).isKind kinds = kinds.contains i.kind := fun _ => rfl
  rw [declarations.eq_def, declaredAt, onward]
  dsimp only
  rw [hkind, hkind, hkind]
  split_ifs
  · cases (Tree.node i cs).childText? f.bytes "name" with
    | none => rfl
    | some name =>
        dsimp only
        rw [declarationsInBody_eq, Way.flatMap_sites_inBody, Tree.child?, Tree.children]
  · cases owner with
    | none => rfl
    | some owner =>
        cases (Tree.node i cs).childText? f.bytes "name" with
        | none => rfl
        | some name =>
            dsimp only
            rw [declarationsOfBody_eq, Way.flatMap_sites_body, Tree.child?, Tree.children]
            rfl
  · cases owner <;> simp [Way.sites]
  · dsimp only
    rw [declarationsAll_eq, Way.flatMap_sites_children, Tree.children, List.nil_append]

def search : Search Declaration where
  all x := declarations f package x.2 x.1.node
  found := declaredAt f package
  onward := onward f package
  all_eq := declarations_eq f package

/-- The search in a file comes to the place. -/
abbrev Reaches (root : Tree) : OwnedSite → Prop :=
  (search f package).Reaches root

variable {f package} {root : Tree} {d : Declaration}

theorem mem_declarations_iff : d ∈ declarations f package none root ↔
    ∃ x, Reaches f package root x ∧ d ∈ declaredAt f package x :=
  Search.mem_all_iff (S := search f package) (x := (⟨root, []⟩, none))

end Search

/-! #### What is declared at a place -/

theorem madeFrom_of_mem_declaredAt {x : OwnedSite} (hx : Q x.1.node) :
    ∀ d ∈ declaredAt f package x, MadeFrom Q f package d := by
  intro d hd
  unfold declaredAt at hd
  dsimp only at hd
  split at hd
  · split at hd
    case h_1 => cases hd
    case h_2 name _ =>
      rcases List.mem_cons.mp hd with rfl | hd
      · exact .type _ x.2 name hx
      · exact .component hd
  · split at hd
    · split at hd
      case h_1 owner name _ _ =>
        rw [List.mem_singleton.mp hd]
        exact .method _ owner name hx
      case h_2 => cases hd
    · split at hd
      · obtain ⟨owner, -, hd⟩ := List.mem_flatMap.mp hd
        exact .field hd
      · cases hd

theorem madeFrom_of_mem_declarations (hQ : Tree.Hereditary Q) {root : Tree} (hroot : Q root) :
    ∀ d ∈ declarations f package none root, MadeFrom Q f package d :=
  Search.forall_mem_all (S := search f package) hQ hroot fun _ => madeFrom_of_mem_declaredAt

theorem made_of_mem_declarations (root : Tree) :
    ∀ d ∈ declarations f package none root, Made f package d :=
  madeFrom_of_mem_declarations Tree.hereditary_true trivial

end Java

/-! ### C# -/

namespace CSharp

inductive MadeFrom (Q : Tree → Prop) (f : SourceFile) : Declaration → Prop where
  | type (space : String) (t : Tree) (owner : Option String) (name : String) (ht : Q t) :
      MadeFrom Q f (typeDeclaration f space t (Ident.typeIn space owner name) name)
  | routine (t : Tree) (owner : Option String) (name : String) (ht : Q t) :
      MadeFrom Q f (routineDeclaration f t owner name)
  | field {t : Tree} {owner : String} {d : Declaration} (h : d ∈ fieldDeclarations f t owner) :
      MadeFrom Q f d
  | property {t : Tree} {owner : String} {isStatic : Bool} {d : Declaration}
      (h : propertyDeclaration? f t owner isStatic = some d) : MadeFrom Q f d

abbrev Made (f : SourceFile) : Declaration → Prop :=
  MadeFrom (fun _ => True) f

variable {Q : Tree → Prop} {f : SourceFile} {fileSpace : String}

theorem madeFrom_of_mem_parameterDeclarations {t : Tree} {owner : String} {d : Declaration}
    (h : d ∈ parameterDeclarations f t owner) : MadeFrom Q f d := by
  unfold parameterDeclarations at h
  split at h
  · split at h
    · cases h
    · obtain ⟨p, -, hp⟩ := List.mem_filterMap.mp h
      exact .property hp
  · cases h

/-! #### The search -/

def isType (t : Tree) : Bool :=
  t.isKind typeKinds

section Search

variable (f : SourceFile) (fileSpace : String)

def typeIdAt (x : OwnedSite) (name : String) : String :=
  Ident.typeIn (namespaceAt f.bytes fileSpace x.1.above) x.2 name

def declaredAt (x : OwnedSite) : List Declaration :=
  let t := x.1.node
  if isType t then
    match t.childText? f.bytes "name" with
    | none => []
    | some name =>
        typeDeclaration f (namespaceAt f.bytes fileSpace x.1.above) t (typeIdAt f fileSpace x name)
          name :: parameterDeclarations f t (typeIdAt f fileSpace x name)
  else if t.isKind routineKinds then
    ((t.childText? f.bytes "name").map fun name =>
      routineDeclaration f t x.2 (routineName t name)).toList
  else if t.isKind fieldKinds then x.2.toList.flatMap (fieldDeclarations f t)
  else if t.kind == "property_declaration" then
    x.2.toList.flatMap fun owner =>
      (propertyDeclaration? f t owner (hasModifier f.bytes t "static")).toList
  else []

def onward (x : OwnedSite) : Way × Option String :=
  let t := x.1.node
  if isType t then
    match t.childText? f.bytes "name" with
    | none => (.stop, none)
    | some name => (.inBody, some (typeIdAt f fileSpace x name))
  else if t.isKind routineKinds then
    match t.childText? f.bytes "name" with
    | none => (.stop, none)
    | some _ => (.body, x.2)
  else if t.isKind fieldKinds then (.stop, none)
  else if t.kind == "property_declaration" then (.stop, none)
  else (.children, x.2)

theorem declarationsAll_eq (above : List Tree) (owner : Option String) (ts : List Tree) :
    declarationsAll f fileSpace above owner ts =
      ts.flatMap (declarations f fileSpace above owner) :=
  Tree.eq_flatMap_of_siblings (by rw [declarationsAll]) (fun _ _ => by rw [declarationsAll]) ts

theorem declarationsInBody_eq (above : List Tree) (owner : String) (ts : List Tree) :
    declarationsInBody f fileSpace above owner ts =
      (ts.find? (·.field == "body")).toList.flatMap fun b =>
        b.children.flatMap (declarations f fileSpace (b :: above) (some owner)) := by
  refine Tree.eq_flatMap_of_role (by rw [declarationsInBody]) (fun t ts => ?_) ts
  obtain ⟨i, cs⟩ := t
  rw [declarationsInBody, declarationsAll_eq]
  rfl

theorem declarationsOfBody_eq (above : List Tree) (owner : Option String) (ts : List Tree) :
    declarationsOfBody f fileSpace above owner ts =
      (ts.find? (·.field == "body")).toList.flatMap (declarations f fileSpace above owner) := by
  refine Tree.eq_flatMap_of_role (by rw [declarationsOfBody]) (fun t ts => ?_) ts
  obtain ⟨i, cs⟩ := t
  rw [declarationsOfBody]
  rfl

/-- The declarations below a place are those at the place, then those where the search goes. -/
theorem declarations_eq (x : OwnedSite) :
    declarations f fileSpace x.1.above x.2 x.1.node =
      declaredAt f fileSpace x ++ ((onward f fileSpace x).1.sites x.1).flatMap fun s =>
        declarations f fileSpace s.above (onward f fileSpace x).2 s.node := by
  obtain ⟨⟨⟨i, cs⟩, above⟩, owner⟩ := x
  have hkind : ∀ kinds, (Tree.node i cs).isKind kinds = kinds.contains i.kind := fun _ => rfl
  rw [declarations.eq_def, declaredAt, onward]
  dsimp only
  rw [isType, hkind, hkind, hkind, show (Tree.node i cs).kind = i.kind from rfl]
  split_ifs
  · cases (Tree.node i cs).childText? f.bytes "name" with
    | none => rfl
    | some name =>
        dsimp only
        rw [declarationsInBody_eq, Way.flatMap_sites_inBody, Tree.child?, Tree.children]
        rfl
  · cases (Tree.node i cs).childText? f.bytes "name" with
    | none => rfl
    | some name =>
        dsimp only
        rw [declarationsOfBody_eq, Way.flatMap_sites_body, Tree.child?, Tree.children]
        rfl
  · cases owner <;> simp [Way.sites]
  · cases owner <;> simp [Way.sites]
  · dsimp only
    rw [declarationsAll_eq, Way.flatMap_sites_children, Tree.children, List.nil_append]

def search : Search Declaration where
  all x := declarations f fileSpace x.1.above x.2 x.1.node
  found := declaredAt f fileSpace
  onward := onward f fileSpace
  all_eq := declarations_eq f fileSpace

abbrev Reaches (root : Tree) : OwnedSite → Prop :=
  (search f fileSpace).Reaches root

variable {f fileSpace} {root : Tree} {d : Declaration}

theorem mem_declarations_iff : d ∈ declarations f fileSpace [] none root ↔
    ∃ x, Reaches f fileSpace root x ∧ d ∈ declaredAt f fileSpace x :=
  Search.mem_all_iff (S := search f fileSpace) (x := (⟨root, []⟩, none))

end Search

/-! #### What is declared at a place -/

theorem madeFrom_of_mem_declaredAt {x : OwnedSite} (hx : Q x.1.node) :
    ∀ d ∈ declaredAt f fileSpace x, MadeFrom Q f d := by
  intro d hd
  unfold declaredAt at hd
  dsimp only at hd
  split at hd
  · split at hd
    case h_1 => cases hd
    case h_2 name _ =>
      rcases List.mem_cons.mp hd with rfl | hd
      · exact .type _ _ x.2 name hx
      · exact madeFrom_of_mem_parameterDeclarations hd
  · split at hd
    · obtain ⟨name, -, rfl⟩ := Option.map_eq_some_iff.mp (Option.mem_toList.mp hd)
      exact .routine _ x.2 _ hx
    · split at hd
      · obtain ⟨owner, -, hd⟩ := List.mem_flatMap.mp hd
        exact .field hd
      · split at hd
        · obtain ⟨owner, -, hd⟩ := List.mem_flatMap.mp hd
          exact .property (Option.mem_toList.mp hd)
        · cases hd

theorem madeFrom_of_mem_declarations (hQ : Tree.Hereditary Q) {root : Tree} (hroot : Q root) :
    ∀ d ∈ declarations f fileSpace [] none root, MadeFrom Q f d :=
  Search.forall_mem_all (S := search f fileSpace) hQ hroot fun _ => madeFrom_of_mem_declaredAt

theorem made_of_mem_declarations (root : Tree) :
    ∀ d ∈ declarations f fileSpace [] none root, Made f d :=
  madeFrom_of_mem_declarations Tree.hereditary_true trivial

end CSharp

/-! ### TypeScript -/

namespace TypeScript

inductive MadeFrom (Q : Tree → Prop) (f : SourceFile) : Declaration → Prop where
  | class_ (t : Tree) (name : String) (ht : Q t) : MadeFrom Q f (classDeclaration f t name)
  | interface (t : Tree) (name : String) (ht : Q t) :
      MadeFrom Q f (interfaceDeclaration f t name)
  | function (t : Tree) (name : String) (ht : Q t) : MadeFrom Q f (functionDeclaration f t name)
  | method (t : Tree) (owner name : String) (ht : Q t) :
      MadeFrom Q f (methodDeclaration f t owner name)
  | field (t : Tree) (owner name : String) : MadeFrom Q f (fieldDeclaration f t owner name)
  | declarator {above : List Tree} {t : Tree} {d : Declaration}
      (h : variableDeclaration? f above t = some d) (ht : Q t) : MadeFrom Q f d

abbrev Made (f : SourceFile) : Declaration → Prop :=
  MadeFrom (fun _ => True) f

variable {Q : Tree → Prop} {f : SourceFile}

theorem madeFrom_of_mem_methodDeclarations {t : Tree} (ht : Q t) {owner : String}
    {d : Declaration} (h : d ∈ methodDeclarations f t owner) : MadeFrom Q f d := by
  unfold methodDeclarations at h
  split at h
  case h_1 => cases h
  case h_2 name _ =>
    rcases List.mem_cons.mp h with rfl | h
    · exact .method t owner name ht
    · split at h
      · unfold parameterProperties at h
        split at h
        · cases h
        · obtain ⟨p, -, hp⟩ := List.mem_filterMap.mp h
          obtain ⟨name, -, rfl⟩ := Option.map_eq_some_iff.mp hp
          exact .field p owner name
      · cases h

theorem madeFrom_of_mem_ownDeclarations {above : List Tree} {owner : Option String} {t : Tree}
    (ht : Q t) {d : Declaration} (h : d ∈ ownDeclarations f above owner t) : MadeFrom Q f d := by
  unfold ownDeclarations at h
  split at h
  · obtain ⟨name, -, rfl⟩ := Option.map_eq_some_iff.mp (Option.mem_toList.mp h)
    exact .function t name ht
  · split at h
    · split at h
      · exact madeFrom_of_mem_methodDeclarations ht h
      · cases h
    · split at h
      · split at h
        case h_1 owner =>
          obtain ⟨name, -, rfl⟩ := Option.map_eq_some_iff.mp (Option.mem_toList.mp h)
          exact .field t owner name
        case h_2 => cases h
      · split at h
        · exact .declarator (Option.mem_toList.mp h) ht
        · cases h

/-! #### The search -/

section Search

variable (f : SourceFile)

def declaredAt (x : OwnedSite) : List Declaration :=
  let t := x.1.node
  if t.isKind classKinds then
    ((t.childText? f.bytes "name").map (classDeclaration f t)).toList
  else if t.kind == "interface_declaration" then
    ((t.childText? f.bytes "name").map (interfaceDeclaration f t)).toList
  else ownDeclarations f x.1.above x.2 t

def onward (x : OwnedSite) : Way × Option String :=
  let t := x.1.node
  if t.isKind classKinds then
    match t.childText? f.bytes "name" with
    | none => (.stop, none)
    | some name => (.inBody, some (Ident.inFile f.path name))
  else if t.kind == "interface_declaration" then (.stop, none)
  else (.children, x.2)

theorem declarationsAll_eq (above : List Tree) (owner : Option String) (ts : List Tree) :
    declarationsAll f above owner ts = ts.flatMap (declarations f above owner) :=
  Tree.eq_flatMap_of_siblings rfl (fun _ _ => rfl) ts

theorem declarationsInBody_eq (above : List Tree) (owner : String) (ts : List Tree) :
    declarationsInBody f above owner ts =
      (ts.find? (·.field == "body")).toList.flatMap fun b =>
        b.children.flatMap (declarations f (b :: above) (some owner)) := by
  refine Tree.eq_flatMap_of_role rfl (fun t ts => ?_) ts
  obtain ⟨i, cs⟩ := t
  rw [declarationsInBody, declarationsAll_eq]
  rfl

/-- The declarations below a place are those at the place, then those where the search goes. -/
theorem declarations_eq (x : OwnedSite) :
    declarations f x.1.above x.2 x.1.node =
      declaredAt f x ++ ((onward f x).1.sites x.1).flatMap fun s =>
        declarations f s.above (onward f x).2 s.node := by
  obtain ⟨⟨⟨i, cs⟩, above⟩, owner⟩ := x
  rw [declarations.eq_def, declaredAt, onward]
  dsimp only
  rw [show (Tree.node i cs).isKind classKinds = classKinds.contains i.kind from rfl,
    show (Tree.node i cs).kind = i.kind from rfl]
  split_ifs
  · cases (Tree.node i cs).childText? f.bytes "name" with
    | none => rfl
    | some name =>
        dsimp only
        rw [declarationsInBody_eq, Way.flatMap_sites_inBody, Tree.child?, Tree.children]
        rfl
  · exact (List.append_nil _).symm
  · dsimp only
    rw [declarationsAll_eq, Way.flatMap_sites_children, Tree.children]

def search : Search Declaration where
  all x := declarations f x.1.above x.2 x.1.node
  found := declaredAt f
  onward := onward f
  all_eq := declarations_eq f

abbrev Reaches (root : Tree) : OwnedSite → Prop :=
  (search f).Reaches root

variable {f} {root : Tree} {d : Declaration}

theorem mem_declarations_iff : d ∈ declarations f [] none root ↔
    ∃ x, Reaches f root x ∧ d ∈ declaredAt f x :=
  Search.mem_all_iff (S := search f) (x := (⟨root, []⟩, none))

end Search

/-! #### What is declared at a place -/

theorem madeFrom_of_mem_declaredAt {x : OwnedSite} (hx : Q x.1.node) :
    ∀ d ∈ declaredAt f x, MadeFrom Q f d := by
  intro d hd
  unfold declaredAt at hd
  dsimp only at hd
  split at hd
  · obtain ⟨name, -, rfl⟩ := Option.map_eq_some_iff.mp (Option.mem_toList.mp hd)
    exact .class_ _ name hx
  · split at hd
    · obtain ⟨name, -, rfl⟩ := Option.map_eq_some_iff.mp (Option.mem_toList.mp hd)
      exact .interface _ name hx
    · exact madeFrom_of_mem_ownDeclarations hx hd

theorem madeFrom_of_mem_declarations (hQ : Tree.Hereditary Q) {root : Tree} (hroot : Q root) :
    ∀ d ∈ declarations f [] none root, MadeFrom Q f d :=
  Search.forall_mem_all (S := search f) hQ hroot fun _ => madeFrom_of_mem_declaredAt

theorem made_of_mem_declarations (root : Tree) :
    ∀ d ∈ declarations f [] none root, Made f d :=
  madeFrom_of_mem_declarations Tree.hereditary_true trivial

end TypeScript

/-! ### C and C++ -/

namespace Cpp

section Search

variable (f : SourceFile)

def itemsAt (x : OwnedSite) : List Item :=
  let t := x.1.node
  if t.isKind classKinds then ((className? f.bytes t).map (.class_ t)).toList
  else if t.kind == "function_definition" then [.function t x.2]
  else ownItems f.bytes x.2 t

def onward (x : OwnedSite) : Way × Option String :=
  let t := x.1.node
  if t.isKind classKinds then
    match className? f.bytes t with
    | some name => (.inBody, some (classId f name))
    | none => (.children, x.2)
  else if t.kind == "function_definition" then (.stop, none)
  else (.children, x.2)

theorem itemsAll_eq (owner : Option String) (ts : List Tree) :
    itemsAll f owner ts = ts.flatMap (items f owner) :=
  Tree.eq_flatMap_of_siblings rfl (fun _ _ => rfl) ts

theorem itemsInBody_eq (owner : String) (ts : List Tree) :
    itemsInBody f owner ts = (ts.find? (·.field == "body")).toList.flatMap fun b =>
      b.children.flatMap (items f (some owner)) := by
  refine Tree.eq_flatMap_of_role rfl (fun t ts => ?_) ts
  obtain ⟨i, cs⟩ := t
  rw [itemsInBody, itemsAll_eq]
  rfl

/-- The items below a place are those of the place, then those where the search goes. -/
theorem items_eq (x : OwnedSite) :
    items f x.2 x.1.node = itemsAt f x ++ ((onward f x).1.sites x.1).flatMap fun s =>
      items f (onward f x).2 s.node := by
  obtain ⟨⟨⟨i, cs⟩, above⟩, owner⟩ := x
  rw [items.eq_def, itemsAt, onward]
  dsimp only
  rw [show (Tree.node i cs).isKind classKinds = classKinds.contains i.kind from rfl,
    show (Tree.node i cs).kind = i.kind from rfl]
  split_ifs
  · cases className? f.bytes (.node i cs) with
    | none =>
        dsimp only
        rw [itemsAll_eq, Way.flatMap_sites_children, Tree.children]
        rfl
    | some name =>
        dsimp only
        rw [itemsInBody_eq, Way.flatMap_sites_inBody, Tree.child?, Tree.children]
        rfl
  · rfl
  · dsimp only
    rw [itemsAll_eq, Way.flatMap_sites_children, Tree.children]

def search : Search Item where
  all x := items f x.2 x.1.node
  found := itemsAt f
  onward := onward f
  all_eq := items_eq f

abbrev Reaches (root : Tree) : OwnedSite → Prop :=
  (search f).Reaches root

variable {f} {root : Tree} {item : Item}

theorem mem_items_iff : item ∈ items f none root ↔ ∃ x, Reaches f root x ∧ item ∈ itemsAt f x :=
  Search.mem_all_iff (S := search f) (x := (⟨root, []⟩, none))

end Search

end Cpp

end CodeGraph
