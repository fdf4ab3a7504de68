import CodeGraph.Proofs.Graph.Declared
import CodeGraph.Proofs.Linking.Invocations

/-!
Where the declarations of a TypeScript module are found. The search goes from a node to its
children; from a class with a name it goes to the children of its body, and members that are found
there belong to the class from then on, however deep below other nodes they stand.
-/

namespace CodeGraph.TypeScript

open CodeGraph.Tree (Site OwnedSite Search Way)

/-! ### The search -/

def opensType (t : Tree) : Bool :=
  t.isKind classKinds || t.kind == "interface_declaration"

theorem opensType_of_isClass {t : Tree} (h : t.isKind classKinds = true) : opensType t = true := by
  rw [opensType, h, Bool.true_or]

theorem opensType_eq_false_of_isKind {kinds : List String}
    (hkinds : ∀ kind ∈ kinds, kind ∉ classKinds ∧ kind ≠ "interface_declaration") {t : Tree}
    (h : t.isKind kinds = true) : opensType t = false := by
  obtain ⟨hclass, hinterface⟩ := hkinds t.kind (List.contains_iff_mem.mp h)
  simp [opensType, Tree.isKind, hclass, hinterface]

theorem declaredAt_of_not_opensType {f : SourceFile} {x : OwnedSite}
    (h : opensType x.1.node = false) :
    declaredAt f x = ownDeclarations f x.1.above x.2 x.1.node := by
  obtain ⟨hclass, hinterface⟩ := Bool.or_eq_false_iff.mp h
  rw [declaredAt, hclass, hinterface]
  rfl

variable {f : SourceFile} {root : Tree}

/-- The step from a place leads to a child or, from a class, to a child of its body. -/
theorem mem_inside_iff {x y : OwnedSite} :
    y ∈ (search f).inside x ↔
      (opensType x.1.node = false ∧
        ∃ c ∈ x.1.node.children, y = (⟨c, x.1.node :: x.1.above⟩, x.2)) ∨
      (x.1.node.isKind classKinds = true ∧ ∃ name body,
        x.1.node.childText? f.bytes "name" = some name ∧ x.1.node.child? "body" = some body ∧
        ∃ c ∈ body.children,
          y = (⟨c, body :: x.1.node :: x.1.above⟩, some (Ident.inFile f.path name))) := by
  simp only [Search.inside, search, onward]
  split
  case isTrue hclass =>
    have hopens := opensType_of_isClass hclass
    cases x.1.node.childText? f.bytes "name" with
    | none => simp [hopens, Way.sites]
    | some name =>
        cases hbody : x.1.node.child? "body" <;>
          simp [hopens, hclass, hbody, Way.sites, Site.child?, Site.children, eq_comm]
  case isFalse hclass =>
    split
    case isTrue hinterface => simp [opensType, hclass, hinterface, Way.sites]
    case isFalse hinterface =>
      simp [opensType, hclass, hinterface, Way.sites, Site.children, eq_comm]

/-! ### Scopes -/

/-- The child stands below the node, which is no class or interface. -/
def Below (t c : Tree) : Prop :=
  opensType t = false ∧ c ∈ t.children

/-- The second node is the first one or stands below it in no class or interface of its own. -/
def Holds : Tree → Tree → Prop :=
  Relation.ReflTransGen Below

theorem Holds.mem_preorder {t u : Tree} (h : Holds t u) : u ∈ t.preorder := by
  induction h with
  | refl => exact Tree.mem_preorder_self t
  | tail _ hstep hu => exact Tree.child_mem_preorder hu hstep.2

/-- What a reached node holds is reached with the same owner. -/
theorem Reaches.of_holds {s : Site} {owner : Option String} (h : Reaches f root (s, owner))
    {u : Tree} (hu : Holds s.node u) : ∃ above, Reaches f root (⟨u, above⟩, owner) := by
  induction hu with
  | refl => exact ⟨s.above, h⟩
  | @tail t c _ hstep ht =>
      obtain ⟨above, ht⟩ := ht
      exact ⟨t :: above, ht.tail (mem_inside_iff.mpr (.inl ⟨hstep.1, c, hstep.2, rfl⟩))⟩

/-- The class at a site has a name and a child of its body that holds the node. -/
structure BodyHolds (f : SourceFile) (c : Site) (name : String) (u : Tree) : Prop where
  isClass : c.node.isKind classKinds = true
  named : c.node.childText? f.bytes "name" = some name
  held : ∃ body, c.node.child? "body" = some body ∧ ∃ t ∈ body.children, Holds t u

/-- What is reached with an owner is held by the body of a reached class. -/
theorem Reaches.exists_class {x : OwnedSite} (h : Reaches f root x) {owner : String}
    (howner : x.2 = some owner) :
    ∃ y name, Reaches f root y ∧ owner = Ident.inFile f.path name ∧
      BodyHolds f y.1 name x.1.node := by
  induction h with
  | refl => cases howner
  | @tail x z hx hstep ih =>
      rcases mem_inside_iff.mp hstep with
        ⟨hopens, c, hc, rfl⟩ | ⟨hclass, name, body, hname, hbody, c, hc, rfl⟩
      · obtain ⟨y, name, hy, hid, hclass, hname, body, hbody, t, ht, hheld⟩ := ih howner
        exact ⟨y, name, hy, hid, hclass, hname, body, hbody, t, ht, hheld.tail ⟨hopens, hc⟩⟩
      · cases howner
        exact ⟨x, name, hx, rfl, hclass, hname, body, hbody, c, hc, .refl⟩

/-- What the body of a reached class holds is reached as that of a member. -/
theorem Reaches.of_bodyHolds {x : OwnedSite} (h : Reaches f root x) {name : String} {u : Tree}
    (hu : BodyHolds f x.1 name u) :
    ∃ above, Reaches f root (⟨u, above⟩, some (Ident.inFile f.path name)) := by
  obtain ⟨body, hbody, t, ht, hheld⟩ := hu.held
  have hstep := mem_inside_iff (f := f) (x := x).mpr
    (.inr ⟨hu.isClass, name, body, hu.named, hbody, t, ht, rfl⟩)
  exact Reaches.of_holds (h.tail hstep) hheld

/-! ### What is declared at a place -/

theorem eq_of_variableDeclaration? {above : List Tree} {t : Tree} {d : Declaration}
    (h : variableDeclaration? f above t = some d) :
    (∃ name value, t.child? "value" = some value ∧ d = functionDeclaration f value name) ∨
      ∃ name n, d = .global name n := by
  unfold variableDeclaration? at h
  dsimp only at h
  split at h
  · cases h
  · split at h
    · cases h
    · split at h
      case h_1 value hvalue =>
        cases h
        exact .inl ⟨_, value, (Option.filter_eq_some_iff.mp hvalue).1, rfl⟩
      case h_2 =>
        split at h
        · cases h
        · split at h
          · cases h
            exact .inr ⟨_, _, rfl⟩
          · cases h

theorem eq_of_mem_methodDeclarations {t : Tree} {owner : String} {d : Declaration}
    (h : d ∈ methodDeclarations f t owner) :
    (∃ name, t.childText? f.bytes "name" = some name ∧ d = methodDeclaration f t owner name) ∨
      ∃ p name, d = fieldDeclaration f p owner name := by
  unfold methodDeclarations at h
  split at h
  case h_1 => cases h
  case h_2 name hname =>
    rcases List.mem_cons.mp h with rfl | h
    · exact .inl ⟨name, hname, rfl⟩
    · split at h
      case isFalse => cases h
      case isTrue =>
        unfold parameterProperties at h
        split at h
        · cases h
        · obtain ⟨p, -, hp⟩ := List.mem_filterMap.mp h
          obtain ⟨name, -, rfl⟩ := Option.map_eq_some_iff.mp hp
          exact .inr ⟨p, name, rfl⟩

/-- A node other than a class or an interface declares a function, a method of its owner, fields,
or what a variable declarator declares. -/
theorem eq_of_mem_ownDeclarations {above : List Tree} {owner : Option String} {t : Tree}
    {d : Declaration} (h : d ∈ ownDeclarations f above owner t) :
    (∃ name, d = functionDeclaration f t name) ∨
      (∃ o name, owner = some o ∧ t.isKind methodKinds = true ∧
        t.childText? f.bytes "name" = some name ∧ d = methodDeclaration f t o name) ∨
      (∃ p o name, d = fieldDeclaration f p o name) ∨
      (t.kind = "variable_declarator" ∧ variableDeclaration? f above t = some d) := by
  unfold ownDeclarations at h
  split at h
  · obtain ⟨name, -, rfl⟩ := Option.map_eq_some_iff.mp (Option.mem_toList.mp h)
    exact .inl ⟨name, rfl⟩
  · split at h
    case isTrue hmethod =>
      split at h
      case h_1 o =>
        rcases eq_of_mem_methodDeclarations h with ⟨name, hname, rfl⟩ | ⟨p, name, rfl⟩
        · exact .inr (.inl ⟨o, name, rfl, hmethod, hname, rfl⟩)
        · exact .inr (.inr (.inl ⟨p, o, name, rfl⟩))
      case h_2 => cases h
    case isFalse =>
      split at h
      · split at h
        · obtain ⟨name, -, rfl⟩ := Option.map_eq_some_iff.mp (Option.mem_toList.mp h)
          exact .inr (.inr (.inl ⟨t, _, name, rfl⟩))
        · cases h
      · split at h
        case isTrue hkind =>
          exact .inr (.inr (.inr ⟨beq_iff_eq.mp hkind, Option.mem_toList.mp h⟩))
        case isFalse => cases h

/-- A type is declared by a class or an interface with a name. -/
theorem type_mem_declaredAt {x : OwnedSite} {key : Nat} {name : String} {n : Node}
    {isInterface : Bool} (h : .type key name n isInterface ∈ declaredAt f x) :
    opensType x.1.node = true ∧ key = x.1.node.key ∧
      x.1.node.childText? f.bytes "name" = some name ∧ n.id = Ident.inFile f.path name := by
  unfold declaredAt at h
  dsimp only at h
  split at h
  case isTrue hclass =>
    obtain ⟨name', hname, heq⟩ := Option.map_eq_some_iff.mp (Option.mem_toList.mp h)
    cases heq
    exact ⟨opensType_of_isClass hclass, rfl, hname, Declaration.id_mark ..⟩
  case isFalse =>
    split at h
    case isTrue hinterface =>
      obtain ⟨name', hname, heq⟩ := Option.map_eq_some_iff.mp (Option.mem_toList.mp h)
      cases heq
      exact ⟨by rw [opensType, hinterface, Bool.or_true], rfl, hname, rfl⟩
    case isFalse =>
      rcases eq_of_mem_ownDeclarations h with
        ⟨_, heq⟩ | ⟨_, _, -, -, -, heq⟩ | ⟨_, _, _, heq⟩ | ⟨-, hvariable⟩
      · cases heq
      · cases heq
      · cases heq
      · rcases eq_of_variableDeclaration? hvariable with ⟨_, _, -, heq⟩ | ⟨_, _, heq⟩ <;> cases heq

/-- A routine is declared by itself, or by the variable that it is the value of; a method has the
owner of the place. -/
theorem routine_mem_declaredAt {x : OwnedSite} {key : Nat} {name : String} {n : Node}
    {owner : Option String} (h : .routine key name n owner ∈ declaredAt f x) :
    (∃ u, Holds x.1.node u ∧ u.key = key) ∧
      ∀ o, owner = some o → x.2 = some o ∧ x.1.node.isKind methodKinds = true ∧
        x.1.node.childText? f.bytes "name" = some name ∧ n.id = Ident.member o name := by
  unfold declaredAt at h
  dsimp only at h
  split at h
  case isTrue =>
    obtain ⟨_, -, heq⟩ := Option.map_eq_some_iff.mp (Option.mem_toList.mp h)
    cases heq
  case isFalse hclass =>
    split at h
    case isTrue =>
      obtain ⟨_, -, heq⟩ := Option.map_eq_some_iff.mp (Option.mem_toList.mp h)
      cases heq
    case isFalse hinterface =>
      rcases eq_of_mem_ownDeclarations h with
        ⟨_, heq⟩ | ⟨o, _, howner, hmethod, hname, heq⟩ | ⟨_, _, _, heq⟩ | ⟨-, hvariable⟩
      · cases heq
        refine ⟨⟨_, .refl, rfl⟩, fun o ho => ?_⟩
        cases ho
      · cases heq
        refine ⟨⟨_, .refl, rfl⟩, fun o' ho' => ?_⟩
        cases ho'
        exact ⟨howner, hmethod, hname, Declaration.id_mark ..⟩
      · cases heq
      · rcases eq_of_variableDeclaration? hvariable with ⟨_, value, hvalue, heq⟩ | ⟨_, _, heq⟩
        · cases heq
          have hbelow : Below x.1.node value :=
            ⟨by simp [opensType, hclass, hinterface], List.mem_of_find?_eq_some hvalue⟩
          refine ⟨⟨value, .single hbelow, rfl⟩, fun o ho => ?_⟩
          cases ho
        · cases heq

/-! ### Registered types and routines -/

section Registered

variable (hkeys : (root.sites.map (·.node.key)).Nodup) {s : Site} (hs : s ∈ root.sites)

include hkeys hs

/-- The registered types are the classes and interfaces with a name that the search comes to. -/
theorem types_eq_some_iff {id : String} :
    (initialState f root).outline.types.get? s.node.key = some id ↔
      (∃ owner, Reaches f root (s, owner)) ∧ opensType s.node = true ∧
        ∃ name, s.node.childText? f.bytes "name" = some name ∧ id = Ident.inFile f.path name := by
  have honly {id : String} (h : (initialState f root).outline.types.get? s.node.key = some id) :
      (∃ owner, Reaches f root (s, owner)) ∧ opensType s.node = true ∧
        ∃ name, s.node.childText? f.bytes "name" = some name ∧ id = Ident.inFile f.path name := by
    rw [outline_initialState] at h
    obtain ⟨name, n, isInterface, hd, rfl⟩ := Outline.type_mem_of_get? h
    obtain ⟨x, hx, hd⟩ := mem_declarations_iff.mp hd
    obtain ⟨hopens, hkey, hname, hid⟩ := type_mem_declaredAt hd
    obtain rfl : s = x.1 := List.inj_on_of_nodup_map hkeys hs hx.mem_sites hkey
    exact ⟨⟨x.2, hx⟩, hopens, name, hname, hid⟩
  refine ⟨honly, ?_⟩
  rintro ⟨⟨owner, hreaches⟩, hopens, name, hname, rfl⟩
  obtain ⟨d, hd, hkey⟩ : ∃ d ∈ declaredAt f (s, owner), (d.typeAt? s.node.key).isSome := by
    unfold declaredAt
    dsimp only
    rw [hname]
    split
    · exact ⟨_, List.mem_singleton_self _, by simp [classDeclaration, Declaration.typeAt?]⟩
    · rw [if_pos (by simpa [opensType, *] using hopens)]
      exact ⟨_, List.mem_singleton_self _, by simp [interfaceDeclaration, Declaration.typeAt?]⟩
  obtain ⟨id, hid⟩ : ∃ id, (initialState f root).outline.types.get? s.node.key = some id := by
    rw [outline_initialState, Outline.types_eq_findSome?, ← Option.isSome_iff_exists,
      List.findSome?_isSome_iff]
    exact ⟨d, mem_declarations_iff.mpr ⟨_, hreaches, hd⟩, hkey⟩
  obtain ⟨-, -, name', hname', rfl⟩ := honly hid
  rw [hid, Option.some_inj.mp (hname.symm.trans hname')]

/-- The search comes to every registered routine. -/
theorem exists_reaches_of_routine {r : Routine}
    (h : (initialState f root).outline.routines.get? s.node.key = some r) :
    ∃ owner, Reaches f root (s, owner) := by
  have hfound : (declarations f [] none root).findSome? (Declaration.routineAt? s.node.key) =
      some r.id := by
    rw [← Outline.routines_eq_findSome?, ← outline_initialState, h, Option.map_some]
  obtain ⟨d, hd, hkey⟩ := List.exists_of_findSome?_eq_some hfound
  cases d with
  | routine key name n owner =>
      obtain ⟨r', hkey, -⟩ := Option.map_eq_some_iff.mp hkey
      obtain ⟨hkey, -⟩ := Option.ite_none_right_eq_some.mp hkey
      obtain ⟨x, hx, hd⟩ := mem_declarations_iff.mp hd
      obtain ⟨⟨u, hu, hukey⟩, -⟩ := routine_mem_declaredAt hd
      obtain ⟨above, hreaches⟩ := hx.of_holds hu
      obtain rfl : s = ⟨u, above⟩ :=
        List.inj_on_of_nodup_map hkeys hs hreaches.mem_sites (hkey.trans hukey.symm)
      exact ⟨x.2, hreaches⟩
  | type => cases hkey
  | field => cases hkey
  | global => cases hkey

end Registered

end CodeGraph.TypeScript
