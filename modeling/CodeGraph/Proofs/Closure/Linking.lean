import CodeGraph.CSharp.References
import CodeGraph.Java.References
import CodeGraph.Proofs.Closure.Outlines
import CodeGraph.TypeScript.References

/-!
The analyses of Java, C# and TypeScript give closed fragments. Each of them records the
declarations of a tree in an outline and then visits the sites of the tree; a visit only links
references, and what a file imports does not touch the outline.
-/

namespace CodeGraph

open CodeGraph.Tree (Site)
open Outline

/-! ### Java -/

namespace Java

namespace State

variable (st : State)

theorem relation_of_mem_supertypes {t : Tree} {relation base : String}
    (h : (relation, base) ∈ st.supertypes t) : relation ∈ Relation.supertyping := by
  obtain ⟨clause, -, h⟩ := List.mem_flatMap.mp h
  split at h
  case h_1 => cases h
  case h_2 r hr =>
    obtain ⟨ref, -, h⟩ := List.mem_flatMap.mp h
    obtain ⟨_, -, hpair⟩ := List.mem_map.mp h
    cases hpair
    unfold clauseRelation? at hr
    split_ifs at hr <;> cases hr <;> decide

theorem grown_linkSupertypes (t : Tree) : st.outline.Grown (st.linkSupertypes t).outline := by
  unfold linkSupertypes
  split
  case h_1 => exact .refl _
  case h_2 id hid =>
    refine grown_foldl_addBase Prod.fst Prod.snd ?_ ⟨t.key, hid⟩
    rintro ⟨relation, base⟩ hbase
    exact st.relation_of_mem_supertypes hbase

theorem grown_linkInvocation (s : Site) : st.outline.Grown (st.linkInvocation s).outline := by
  unfold linkInvocation
  split
  case h_1 name ctx _ hctx =>
    exact grown_link (declares_of_context? hctx) (by decide) _
  case h_2 => exact .refl _

theorem grown_linkCreation (s : Site) : st.outline.Grown (st.linkCreation s).outline := by
  unfold linkCreation
  split
  case h_1 typeText ctx _ hctx =>
    exact grown_link (declares_of_context? hctx) (by decide) _
  case h_2 => exact .refl _

theorem grown_linkFieldUse (s : Site) : st.outline.Grown (st.linkFieldUse s).outline := by
  unfold linkFieldUse
  split
  · exact .refl _
  · dsimp only
    split
    · exact .refl _
    · split
      case h_1 => exact .refl _
      case h_2 ctx hctx =>
        exact Outline.grown_linkFieldUse (declares_of_context? hctx) _ _ _

theorem grown_visit (s : Site) : st.outline.Grown (st.visit s).outline := by
  unfold visit
  split_ifs
  · exact st.grown_linkInvocation s
  · exact st.grown_linkCreation s
  · exact st.grown_linkFieldUse s
  · exact st.grown_linkSupertypes s.node
  · exact .refl _

theorem linked_visit (s : Site) : st.outline.Linked (st.visit s).outline :=
  (st.grown_visit s).toLinked

end State

/-- What imports leave as it is. -/
def State.fixed (st : State) : SourceFile × Outline :=
  (st.file, st.outline)

theorem fixed_addImport (st : State) (imp : Import) : (addImport st imp).fixed = st.fixed := by
  unfold addImport
  split
  · rfl
  · split <;> rfl
  · rfl
  · rfl

theorem fixed_initialState (f : SourceFile) (root : Tree) : (initialState f root).fixed =
    (f, ofDeclarations (declarations f (packageName f.bytes root) none root)) :=
  foldl_read State.fixed fixed_addImport _ _

theorem file_initialState (f : SourceFile) (root : Tree) : (initialState f root).file = f :=
  congrArg Prod.fst (fixed_initialState f root)

theorem outline_initialState (f : SourceFile) (root : Tree) :
    (initialState f root).outline =
      ofDeclarations (declarations f (packageName f.bytes root) none root) :=
  congrArg Prod.snd (fixed_initialState f root)

theorem closed_analyze (f : SourceFile) (root : Tree) : (analyze f root).Closed :=
  closed_foldl_of_linked State.outline State.linked_visit (outline_initialState f root) root.sites

end Java

/-! ### C# -/

namespace CSharp

namespace State

variable (st : State)

theorem baseRelation_mem (ofInterface isFirst : Bool) (text : String) :
    st.baseRelation ofInterface isFirst text ∈ Relation.supertyping := by
  unfold baseRelation
  split_ifs <;> decide

theorem grown_addBases {id : String} (hid : ∃ key, st.outline.types.get? key = some id)
    (space : String) (ofInterface isFirst : Bool) (text : String) :
    st.outline.Grown (st.addBases space id ofInterface isFirst text).outline := by
  dsimp only [addBases]
  exact grown_foldl_addBase (fun _ => st.baseRelation ofInterface isFirst text) (fun base => base)
    (fun _ _ => st.baseRelation_mem ofInterface isFirst text) hid

theorem grown_linkBases (s : Site) : st.outline.Grown (st.linkBases s).outline := by
  unfold linkBases
  split
  case h_1 id list hid _ =>
    refine List.foldlRecOn (motive := fun st' => st.outline.Grown (State.outline st')) _ _
      (.refl _) ?_
    rintro st' h ⟨text, i⟩ _
    have htype : ∃ key, st'.outline.types.get? key = some id := ⟨_, h.types ▸ hid⟩
    dsimp only
    exact h.trans (st'.grown_addBases htype _ _ _ text)
  case h_2 => exact .refl _

theorem grown_linkInvocation (s : Site) : st.outline.Grown (st.linkInvocation s).outline := by
  unfold linkInvocation
  split
  case h_1 callee ctx _ hctx =>
    exact grown_link (declares_of_context? hctx) (by decide) _
  case h_2 => exact .refl _

theorem grown_linkCreation (s : Site) : st.outline.Grown (st.linkCreation s).outline := by
  unfold linkCreation
  split
  case h_1 typeText ctx _ hctx =>
    exact grown_link (declares_of_context? hctx) (by decide) _
  case h_2 => exact .refl _

theorem grown_linkFieldUse (s : Site) : st.outline.Grown (st.linkFieldUse s).outline := by
  unfold linkFieldUse
  split
  · exact .refl _
  · dsimp only
    split
    · exact .refl _
    · split
      case h_1 => exact .refl _
      case h_2 ctx hctx =>
        exact Outline.grown_linkFieldUse (declares_of_context? hctx) _ _ _

theorem grown_visit (s : Site) : st.outline.Grown (st.visit s).outline := by
  unfold visit
  split_ifs
  · exact st.grown_linkInvocation s
  · exact st.grown_linkCreation s
  · exact st.grown_linkFieldUse s
  · exact st.grown_linkBases s
  · exact .refl _

theorem linked_visit (s : Site) : st.outline.Linked (st.visit s).outline :=
  (st.grown_visit s).toLinked

end State

def State.fixed (st : State) : SourceFile × Outline :=
  (st.file, st.outline)

theorem fixed_addImport (st : State) (imp : Import) : (addImport st imp).fixed = st.fixed := by
  unfold addImport
  split <;> rfl

theorem fixed_addName (st : State) (d : Declaration) : (addName st d).fixed = st.fixed := by
  unfold addName
  split <;> rfl

theorem fixed_initialState (f : SourceFile) (root : Tree) : (initialState f root).fixed =
    (f, ofDeclarations (declarations f (fileNamespace f.bytes root) [] none root)) :=
  (foldl_read State.fixed fixed_addName _ _).trans (foldl_read State.fixed fixed_addImport _ _)

theorem file_initialState (f : SourceFile) (root : Tree) : (initialState f root).file = f :=
  congrArg Prod.fst (fixed_initialState f root)

theorem outline_initialState (f : SourceFile) (root : Tree) :
    (initialState f root).outline =
      ofDeclarations (declarations f (fileNamespace f.bytes root) [] none root) :=
  congrArg Prod.snd (fixed_initialState f root)

theorem closed_analyze (f : SourceFile) (root : Tree) : (analyze f root).Closed :=
  closed_foldl_of_linked State.outline State.linked_visit (outline_initialState f root) root.sites

end CSharp

/-! ### TypeScript -/

namespace TypeScript

namespace State

variable (st : State)

theorem relation_of_mem_classBases {heritage : Tree} {relation base : String}
    (h : (relation, base) ∈ st.classBases heritage) : relation ∈ Relation.supertyping := by
  obtain ⟨clause, -, h⟩ := List.mem_flatMap.mp h
  split at h
  case h_1 => cases h
  case h_2 r hr =>
    obtain ⟨_, -, hpair⟩ := List.mem_map.mp h
    cases hpair
    unfold clauseRelation? at hr
    split_ifs at hr <;> cases hr <;> decide

theorem grown_linkClass (t : Tree) : st.outline.Grown (st.linkClass t).outline := by
  unfold linkClass
  split
  case h_1 id heritage hid _ =>
    refine grown_foldl_addBase Prod.fst Prod.snd ?_ ⟨t.key, hid⟩
    rintro ⟨relation, base⟩ hbase
    exact st.relation_of_mem_classBases hbase
  case h_2 => exact .refl _

theorem grown_linkInterface (t : Tree) : st.outline.Grown (st.linkInterface t).outline := by
  unfold linkInterface
  split
  · exact (linked_link_of_supertyping (by decide) _ _).grown_link
  · exact .refl _

theorem grown_linkCall (s : Site) : st.outline.Grown (st.linkCall s).outline := by
  unfold linkCall
  split
  case h_1 callee ctx _ hctx =>
    exact grown_link (declares_of_context? hctx) (by decide) _
  case h_2 => exact .refl _

theorem grown_linkNew (s : Site) : st.outline.Grown (st.linkNew s).outline := by
  unfold linkNew
  split
  case h_1 constructor ctx _ hctx =>
    exact grown_link (declares_of_context? hctx) (by decide) _
  case h_2 => exact .refl _

theorem grown_linkFieldUse (s : Site) : st.outline.Grown (st.linkFieldUse s).outline := by
  unfold linkFieldUse
  split
  · exact .refl _
  · split
    case h_1 name ctx _ hctx => exact grown_linkField (declares_of_context? hctx) name
    case h_2 => exact .refl _

theorem grown_visit (s : Site) : st.outline.Grown (st.visit s).outline := by
  unfold visit
  split_ifs
  · exact st.grown_linkClass s.node
  · exact st.grown_linkInterface s.node
  · exact st.grown_linkCall s
  · exact st.grown_linkNew s
  · exact st.grown_linkFieldUse s
  · exact .refl _

theorem linked_visit (s : Site) : st.outline.Linked (st.visit s).outline :=
  (st.grown_visit s).toLinked

end State

def State.fixed (st : State) : SourceFile × SymbolTable × Outline :=
  (st.file, st.symbols, st.outline)

theorem fixed_addImport (st : State) (imp : Import) : (addImport st imp).fixed = st.fixed := by
  refine foldl_read State.fixed (fun st n => ?_) imp.names st
  unfold addImportedName
  split <;> rfl

theorem fixed_initialState (f : SourceFile) (root : Tree) :
    let ds := declarations f [] none root
    (initialState f root).fixed = (f, ds.foldl addSymbol {}, ofDeclarations ds) :=
  foldl_read State.fixed fixed_addImport _ _

theorem file_initialState (f : SourceFile) (root : Tree) : (initialState f root).file = f :=
  congrArg Prod.fst (fixed_initialState f root)

theorem symbols_initialState (f : SourceFile) (root : Tree) :
    (initialState f root).symbols = (declarations f [] none root).foldl addSymbol {} :=
  congrArg (·.2.1) (fixed_initialState f root)

theorem outline_initialState (f : SourceFile) (root : Tree) :
    (initialState f root).outline = ofDeclarations (declarations f [] none root) :=
  congrArg (·.2.2) (fixed_initialState f root)

theorem closed_analyze (f : SourceFile) (root : Tree) : (analyze f root).Closed :=
  closed_foldl_of_linked State.outline State.linked_visit (outline_initialState f root) root.sites

end TypeScript

end CodeGraph
