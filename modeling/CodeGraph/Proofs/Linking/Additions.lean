import CodeGraph.Proofs.Linking.Linkers
import CodeGraph.Proofs.Linking.Members

/-!
The edges that a walk adds. If each visit adds an edge exactly in some cases, then an edge that no
declaration gives is in the fragment exactly if one of these cases arises at a site of the tree.
-/

namespace CodeGraph

open CodeGraph.Tree (Site)

namespace Outline

variable {o : Outline} {e : Edge}

theorem mem_edges_link_iff {source relation : String} {targets : List String} :
    e ∈ (o.link source targets relation).fragment.edges ↔
      e ∈ o.fragment.edges ∨ ∃ target ∈ targets, (⟨source, target, relation⟩ : Edge) = e := by
  rw [link, Fragment.addEdges_eq_addAll, Fragment.mem_edges_addAll, List.mem_map]

/-- An edge of another relation is not added. -/
theorem mem_edges_link_of_ne {source relation : String} {targets : List String}
    (he : e.relation ≠ relation) :
    e ∈ (o.link source targets relation).fragment.edges ↔ e ∈ o.fragment.edges := by
  rw [mem_edges_link_iff, or_iff_left]
  rintro ⟨target, -, rfl⟩
  exact he rfl

theorem mem_edges_addBase_of_ne {relation type base : String} (he : e.relation ≠ relation) :
    e ∈ (o.addBase relation type base).fragment.edges ↔ e ∈ o.fragment.edges := by
  rw [addBase, Fragment.mem_edges_addEdge, or_iff_left]
  rintro rfl
  exact he rfl

theorem mem_edges_foldl_addBase_of_ne {α : Type} {type : String} (relation base : α → String)
    {xs : List α} (he : ∀ x ∈ xs, e.relation ≠ relation x) :
    e ∈ (xs.foldl (fun o x => o.addBase (relation x) type (base x)) o).fragment.edges ↔
      e ∈ o.fragment.edges :=
  List.foldlRecOn (motive := fun o' : Outline => e ∈ o'.fragment.edges ↔ e ∈ o.fragment.edges) _ _
    Iff.rfl fun _ h x hx => (mem_edges_addBase_of_ne (he x hx)).trans h

theorem mem_edges_linkFieldUse_of_ne {ctx : Context} {locals : Locals} {use : FieldUse}
    {name : String} (he : e.relation ≠ Relation.uses) :
    e ∈ (o.linkFieldUse ctx locals use name).fragment.edges ↔ e ∈ o.fragment.edges := by
  have hfield : e ∈ (o.linkField ctx name).fragment.edges ↔ e ∈ o.fragment.edges := by
    unfold linkField
    split
    · rfl
    · split
      · exact mem_edges_link_of_ne he
      · rfl
  cases use with
  | none => rfl
  | bare =>
      unfold linkFieldUse
      dsimp only
      split
      · rfl
      · exact hfield
  | ofThis => exact hfield

end Outline

namespace Linker

variable {L : Linker} {f : SourceFile} {root : Tree}

/-! ### Fields -/

def DeclaresField (L : Linker) (f : SourceFile) (root : Tree) (type name : String) : Prop :=
  ∃ d ∈ L.declarations f root, (d.fieldType? type name).isSome

instance (type name : String) : Decidable (L.DeclaresField f root type name) :=
  inferInstanceAs (Decidable (∃ d ∈ _, _))

theorem isField_membersAt_iff {n : Nat} {type name : String} :
    (L.membersAt f root n).isField type name = true ↔ L.DeclaresField f root type name := by
  have hinitial : (L.membersAt f root n).fieldType? type name =
      (L.declarations f root).findSome? (Declaration.fieldType? type name) := by
    rw [← Outline.fieldType?_ofDeclarations, TypeMembers.fieldType?, membersAt,
      (L.grown_stateAt n).fieldTypes, L.outline_initialState]
    rfl
  rw [TypeMembers.isField, hinitial, List.findSome?_isSome_iff]
  rfl

theorem DeclaresField.declares {type name : String} (h : L.DeclaresField f root type name) :
    L.Declares f root type name := by
  obtain ⟨d, hd, hfield⟩ := h
  refine ⟨d, hd, ?_⟩
  cases d with
  | field name' node owner typeText =>
      obtain ⟨_, hfield⟩ := Option.isSome_iff_exists.mp hfield
      exact congrArg some (Option.ite_none_right_eq_some.mp hfield).1.symm
  | type => cases hfield
  | routine => cases hfield
  | global => cases hfield

/-- A member that a type declares is the one that its name is resolved to. -/
theorem resolveMember_of_declares {type name : String} (h : L.Declares f root type name) (n : Nat) :
    (L.membersAt f root n).resolveMember type name = Ident.member type name := by
  rw [TypeMembers.resolveMember, member?_membersAt, ownMember?, if_pos h]

/-! ### Runs -/

variable {e : Edge}

theorem not_mem_edges_initialState (he : ∀ x ∈ Relation.memberLabels, e.relation ≠ x.1) :
    e ∉ (L.outline (L.initialState f root)).fragment.edges := by
  rw [L.outline_initialState, Outline.mem_edges_ofDeclarations]
  rintro ⟨d, -, hd⟩
  obtain ⟨x, hx, hrelation⟩ := Declaration.relation_of_edge? hd
  exact he x hx hrelation

/-- An edge that no declaration gives is in the fragment exactly if a visit adds it. -/
theorem mem_edges_analyze_iff (adds : Nat → Prop)
    (he : ∀ x ∈ Relation.memberLabels, e.relation ≠ x.1)
    (hstep : ∀ n < root.sites.length,
      (e ∈ (L.outline (L.stateAt f root (n + 1))).fragment.edges ↔
        e ∈ (L.outline (L.stateAt f root n)).fragment.edges ∨ adds n)) :
    e ∈ (L.analyze f root).edges ↔ ∃ n < root.sites.length, adds n := by
  have hstate : ∀ n ≤ root.sites.length,
      (e ∈ (L.outline (L.stateAt f root n)).fragment.edges ↔ ∃ k < n, adds k) := by
    intro n hn
    induction n with
    | zero => exact iff_of_false (not_mem_edges_initialState he) (by simp)
    | succ n ih =>
        rw [hstep n hn, ih (Nat.le_of_succ_le hn)]
        simp only [Nat.lt_succ_iff_lt_or_eq, or_and_right, exists_or, exists_eq_left]
  have hlast : L.analyze f root = (L.outline (L.stateAt f root root.sites.length)).fragment := by
    rw [stateAt, List.take_length]
    rfl
  rw [hlast, hstate _ le_rfl]

end Linker

end CodeGraph
