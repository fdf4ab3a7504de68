import CodeGraph.Proofs.Linking.Descent
import CodeGraph.Proofs.Linking.Inheritance
import CodeGraph.Proofs.Linking.Members

/-!
The methods of the classes of a TypeScript module. A class has an edge to every method that its body
holds, whether the method is a child of the body or stands deeper in it, in an object that a field
or a statement builds. So the edges are those of the methods that classes declare exactly if no
class holds a method of another name.
-/

namespace CodeGraph

open CodeGraph.Tree (Site leaf)

namespace TypeScript

/-! ### Methods in the body of a class -/

def IsMethod (f : SourceFile) (name : String) (t : Tree) : Prop :=
  t.isKind methodKinds = true ∧ t.childText? f.bytes "name" = some name

instance (f : SourceFile) (name : String) (t : Tree) : Decidable (IsMethod f name t) :=
  inferInstanceAs (Decidable (_ ∧ _))

/-- A class of the module with the ID has the method as a child of its body. -/
def DeclaresMethod (f : SourceFile) (root : Tree) (id name : String) : Prop :=
  ∃ c ∈ root.sites, c.node.isKind classKinds = true ∧
    (initialState f root).outline.types.get? c.node.key = some id ∧
    ∃ body ∈ c.node.child? "body", ∃ m ∈ body.children, IsMethod f name m

instance (f : SourceFile) (root : Tree) (id name : String) :
    Decidable (DeclaresMethod f root id name) :=
  inferInstanceAs (Decidable (∃ c ∈ _, _))

/-- A class of the module with the ID has the method anywhere in its body, but for the classes and
interfaces in it. -/
def HoldsMethod (f : SourceFile) (root : Tree) (id name : String) : Prop :=
  ∃ c ∈ root.sites, c.node.isKind classKinds = true ∧
    (initialState f root).outline.types.get? c.node.key = some id ∧
    ∃ body ∈ c.node.child? "body", ∃ t ∈ body.children, ∃ m, Holds t m ∧ IsMethod f name m

variable {f : SourceFile} {root : Tree} {id name : String}

theorem DeclaresMethod.holdsMethod (h : DeclaresMethod f root id name) :
    HoldsMethod f root id name := by
  obtain ⟨c, hc, hclass, htype, body, hbody, m, hm, hmethod⟩ := h
  exact ⟨c, hc, hclass, htype, body, hbody, m, hm, m, .refl, hmethod⟩

/-- A method that is reached with an owner is declared as its method. -/
theorem methodDeclaration_mem_declaredAt {s : Site} (h : IsMethod f name s.node) (owner : String) :
    methodDeclaration f s.node owner name ∈ declaredAt f (s, some owner) := by
  have hopens : opensType s.node = false := opensType_eq_false_of_isKind (by decide) h.1
  have hfunction : ∀ kind ∈ methodKinds, kind ∉ functionKinds := by decide
  rw [declaredAt_of_not_opensType hopens, ownDeclarations, if_neg, if_pos h.1, methodDeclarations,
    h.2]
  · exact List.mem_cons_self
  · rw [Tree.isKind, List.contains_iff_mem]
    exact hfunction _ (List.contains_iff_mem.mp h.1)

theorem edge?_methodDeclaration (t : Tree) (owner : String) :
    (methodDeclaration f t owner name).edge? =
      some ⟨owner, Ident.member owner name, Relation.hasMethod⟩ := by
  rw [methodDeclaration, Declaration.edge?, Declaration.id_mark]
  rfl

/-- A method with an owner is declared where the search comes to it with that owner. -/
theorem exists_place_of_edge? {d : Declaration} (hd : d ∈ declarations f [] none root)
    (hedge : d.edge? = some ⟨id, Ident.member id name, Relation.hasMethod⟩) :
    ∃ x, Reaches f root x ∧ x.2 = some id ∧ IsMethod f name x.1.node := by
  cases d with
  | type => cases hedge
  | field =>
      simp only [Declaration.edge?, Option.some.injEq, Edge.mk.injEq] at hedge
      exact absurd hedge.2.2 (by decide)
  | global => cases hedge
  | routine key name' n owner =>
      cases owner with
      | none => cases hedge
      | some owner =>
          obtain ⟨x, hx, hd⟩ := mem_declarations_iff.mp hd
          obtain ⟨-, hmethod⟩ := routine_mem_declaredAt hd
          obtain ⟨howner, hkind, hname, hid⟩ := hmethod owner rfl
          simp only [Declaration.edge?, Option.some.injEq, Edge.mk.injEq] at hedge
          obtain ⟨rfl, htarget, -⟩ := hedge
          have hnames : name' = name := (String.append_right_inj _).mp (hid.symm.trans htarget)
          exact ⟨x, hx, howner, hkind, hnames ▸ hname⟩

/-- The methods of a class are those that its body holds. -/
theorem mem_hasMethod_iff (hkeys : (root.sites.map (·.node.key)).Nodup) (id name : String) :
    ⟨id, Ident.member id name, Relation.hasMethod⟩ ∈ (analyze f root).edges ↔
      HoldsMethod f root id name := by
  rw [show analyze f root = linker.analyze f root from rfl,
    linker.mem_owning_analyze_iff (show Relation.hasMethod ∈ Relation.owning by decide)]
  constructor
  · rintro ⟨d, hd, hedge⟩
    obtain ⟨x, hx, howner, hmethod⟩ := exists_place_of_edge? hd hedge
    obtain ⟨y, className, hy, hid, hheld⟩ := hx.exists_class howner
    obtain ⟨body, hbody, t, ht, hheld'⟩ := hheld.held
    refine ⟨y.1, hy.mem_sites, hheld.isClass, ?_, body, hbody, t, ht, x.1.node, hheld', hmethod⟩
    exact (types_eq_some_iff hkeys hy.mem_sites).mpr
      ⟨⟨y.2, hy⟩, opensType_of_isClass hheld.isClass, className, hheld.named, hid⟩
  · rintro ⟨c, hc, hclass, htype, body, hbody, t, ht, m, hheld, hmethod⟩
    obtain ⟨⟨owner, hreaches⟩, -, className, hname, rfl⟩ := (types_eq_some_iff hkeys hc).mp htype
    obtain ⟨above, hm⟩ := Reaches.of_bodyHolds (x := (c, owner)) hreaches (u := m)
      ⟨hclass, hname, body, hbody, t, ht, hheld⟩
    exact ⟨_, mem_declarations_iff.mpr ⟨_, hm, methodDeclaration_mem_declaredAt hmethod _⟩,
      edge?_methodDeclaration ..⟩

/-- The edges to methods go to every method that the body of a class holds. They are the edges to
the methods that classes declare exactly if every method that a body holds has the name of one that
a class with the ID declares. -/
theorem class_methods_held_iff (hkeys : (root.sites.map (·.node.key)).Nodup) :
    (∀ id name, ⟨id, Ident.member id name, Relation.hasMethod⟩ ∈ (analyze f root).edges ↔
      HoldsMethod f root id name) ∧
    ((∀ id name, ⟨id, Ident.member id name, Relation.hasMethod⟩ ∈ (analyze f root).edges ↔
        DeclaresMethod f root id name) ↔
      ∀ id name, HoldsMethod f root id name → DeclaresMethod f root id name) := by
  have hheld := mem_hasMethod_iff (f := f) hkeys
  refine ⟨hheld, fun h id name hholds => ?_, fun h id name => ?_⟩
  · exact (h id name).mp ((hheld id name).mpr hholds)
  · rw [hheld id name]
    exact ⟨h id name, DeclaresMethod.holdsMethod⟩

/-- A class with a field that holds an object with a method. -/
def Sample.literal : SourceFile × Tree :=
  (⟨"a.ts", Utf8.encode "class C \x7b x = \x7b m() \x7b \x7d \x7d; \x7d".toList⟩,
    .node { kind := "program", stop := 28 }
      [.node { kind := "class_declaration", stop := 28, key := 1 }
        [leaf "type_identifier" "name" 2 6 7,
          .node { kind := "class_body", field := "body", start := 8, stop := 28, key := 3 }
            [.node { kind := "public_field_definition", start := 10, stop := 25, key := 4 }
              [leaf "property_identifier" "name" 5 10 11,
                .node { kind := "object", field := "value", start := 14, stop := 25, key := 6 }
                  [.node { kind := "method_definition", start := 16, stop := 23, key := 7 }
                    [leaf "property_identifier" "name" 8 16 17,
                      leaf "formal_parameters" "parameters" 9 17 19,
                      leaf "statement_block" "body" 10 20 23]]]]]])

/-- The class holds the method of the object and has an edge to it. -/
theorem literal_method_held :
    (Sample.literal.2.sites.map (·.node.key)).Nodup ∧
      HoldsMethod Sample.literal.1 Sample.literal.2 "a.ts:C" "m" ∧
      ⟨"a.ts:C", "a.ts:C:m", Relation.hasMethod⟩ ∈
        (analyze Sample.literal.1 Sample.literal.2).edges := by
  have hkeys : (Sample.literal.2.sites.map (·.node.key)).Nodup := by decide +kernel
  obtain ⟨c, hc, hclass, htype, body, hbody, t, ht, hopens, o, ho, hopens', m, hm, hmethod⟩ :
      ∃ c ∈ Sample.literal.2.sites, c.node.isKind classKinds = true ∧
        (initialState Sample.literal.1 Sample.literal.2).outline.types.get? c.node.key =
          some "a.ts:C" ∧
        ∃ body ∈ c.node.child? "body", ∃ t ∈ body.children, opensType t = false ∧
          ∃ o ∈ t.children, opensType o = false ∧
            ∃ m ∈ o.children, IsMethod Sample.literal.1 "m" m := by
    decide +kernel
  have hheld : HoldsMethod Sample.literal.1 Sample.literal.2 "a.ts:C" "m" :=
    ⟨c, hc, hclass, htype, body, hbody, t, ht, m,
      (Relation.ReflTransGen.single ⟨hopens, ho⟩).tail ⟨hopens', hm⟩, hmethod⟩
  exact ⟨hkeys, hheld, ((class_methods_held_iff hkeys).1 "a.ts:C" "m").mpr hheld⟩

/-- The class has an edge to the method of the object, which it does not declare. -/
theorem literal_method_not_declared :
    ¬∀ id name, ⟨id, Ident.member id name, Relation.hasMethod⟩ ∈
        (analyze Sample.literal.1 Sample.literal.2).edges ↔
      DeclaresMethod Sample.literal.1 Sample.literal.2 id name := by
  intro hlaw
  have hedge : ⟨"a.ts:C", Ident.member "a.ts:C" "m", Relation.hasMethod⟩ ∈
      (analyze Sample.literal.1 Sample.literal.2).edges := by
    decide +kernel
  exact absurd ((hlaw "a.ts:C" "m").mp hedge) (by decide +kernel)

end TypeScript

end CodeGraph
