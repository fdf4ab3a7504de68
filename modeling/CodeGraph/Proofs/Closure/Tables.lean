import CodeGraph.Cpp.References
import CodeGraph.Proofs.Closure.Outlines

/-!
The analysis of C and C++ gives closed fragments. The tables keep an invariant while items are
recorded: the fragment is closed and every function definition that is known by its key has its
node. Base classes and references only add edges.
-/

namespace CodeGraph.Cpp

open CodeGraph.Tree (Site)
open Declaration

namespace Tables

/-- The fragment is closed, and every known function definition has its node. -/
structure Closed (tb : Tables) : Prop where
  fragment : tb.fragment.Closed
  routines : tb.routines.Within Routine.id tb.fragment.ids

variable {tb tb' : Tables}

/-! ### Recording items -/

theorem Closed.of_addNode (h : tb.Closed) {n : Node}
    (hfragment : tb'.fragment = tb.fragment.addNode n) (hroutines : tb'.routines = tb.routines) :
    tb'.Closed := by
  constructor
  · rw [hfragment]
    exact h.fragment.addNode n
  · rw [hfragment, hroutines]
    exact h.routines.mono (Fragment.ids_subset_addNode n)

theorem Closed.recordClass (h : tb.Closed) (t : Tree) (name : String) :
    (tb.recordClass t name).Closed :=
  h.of_addNode rfl rfl

theorem Closed.recordFunction (h : tb.Closed) (t : Tree) (owner : Option String) :
    (tb.recordFunction t owner).Closed := by
  unfold Tables.recordFunction
  split
  case h_1 => exact h
  case h_2 full _ =>
    -- Only whether the definition has an owner matters, not how its target was found.
    generalize tb.functionTarget owner full = d
    let node := routineNode tb.file branchKinds t d.id d.label d.name
    rcases d with ⟨id, label, name, _ | owner⟩
    · have hsub := Fragment.ids_subset_addNode (f := tb.fragment) node
      exact
        { fragment := h.fragment.addNode node
          routines := (h.routines.mono hsub).bind (Fragment.id_mem_addNode node) }
    · have hsub := Fragment.ids_subset_addMember (f := tb.fragment) node owner
        Relation.hasMethod
      exact
        { fragment := h.fragment.addMember node owner (by decide)
          routines := (h.routines.mono hsub).bind (Fragment.id_mem_addMember node owner _) }

theorem Closed.recordField (h : tb.Closed) (owner typeText : String) (declarator : Tree) :
    (tb.recordField owner typeText declarator).Closed := by
  unfold Tables.recordField
  split
  case h_1 => exact h
  case h_2 name _ =>
    dsimp only
    split
    · exact ⟨h.fragment, h.routines⟩
    · let node := fieldNode tb.file declarator (Ident.member owner name) Label.field name typeText
      exact
        { fragment := h.fragment.addMember node owner (by decide)
          routines := h.routines.mono (Fragment.ids_subset_addMember node owner _) }

theorem Closed.recordGlobal (h : tb.Closed) (typeText : String) (declarator : Tree) :
    (tb.recordGlobal typeText declarator).Closed := by
  unfold Tables.recordGlobal
  split
  · exact h
  · dsimp only
    split
    · exact ⟨h.fragment, h.routines⟩
    · exact h.of_addNode rfl rfl

theorem Closed.record (h : tb.Closed) (item : Item) : (tb.record item).Closed := by
  cases item with
  | class_ t name => exact h.recordClass t name
  | function t owner => exact h.recordFunction t owner
  | fields t owner =>
      exact List.foldlRecOn (motive := Tables.Closed) _ _ h fun tb h d _ => h.recordField owner _ d
  | globals t =>
      exact List.foldlRecOn (motive := Tables.Closed) _ _ h fun tb h d _ => h.recordGlobal _ d
  | space name => exact ⟨h.fragment, h.routines⟩

theorem closed_initialTables (f : SourceFile) (root : Tree) : (initialTables f root).Closed :=
  List.foldlRecOn (motive := Tables.Closed) _ _ ⟨Fragment.closed_empty, Bindings.within_empty⟩
    fun _ h item _ => h.record item

/-! ### Linking references -/

theorem Closed.addEdge (h : tb.Closed) {source target relation : String}
    (hedge : Edge.Anchored tb.fragment.ids ⟨source, target, relation⟩) :
    (tb.addEdge source target relation).Closed := by
  refine ⟨h.fragment.addEdge hedge, ?_⟩
  show tb.routines.Within Routine.id (tb.fragment.addEdge source target relation).ids
  rw [Fragment.ids_addEdge]
  exact h.routines

theorem Closed.linkBase (h : tb.Closed) (s : Site) : (tb.linkBase s).Closed := by
  unfold Tables.linkBase
  split
  · exact h
  · exact h.addEdge (Edge.anchored_of_supertyping (by decide))

def Reference.relation : Reference → String
  | .name relation _ => relation
  | .access relation _ => relation

theorem relation_of_reference? {s : Site} {ref : Reference} (h : reference? s = some ref) :
    ref.relation ∈ Relation.outgoing := by
  unfold reference? at h
  dsimp only at h
  split at h
  · cases h
  · split_ifs at h <;> cases h <;> simp only [Reference.relation] <;> decide

theorem relation_of_target? {owner : Option String} {locals : Locals} {ref : Reference}
    {id relation : String} (h : tb.target? owner locals ref = some (id, relation)) :
    relation = ref.relation := by
  cases ref with
  | name r t =>
      simp only [target?] at h
      split at h <;> cases h
      rfl
  | access r t =>
      obtain ⟨_, -, hpair⟩ := Option.map_eq_some_iff.mp h
      cases hpair
      rfl

theorem Closed.linkReference (h : tb.Closed) (s : Site) : (tb.linkReference s).Closed := by
  unfold Tables.linkReference
  split
  case h_1 => exact h
  case h_2 ref href =>
    split
    case h_1 => exact h
    case h_2 site routine hroutine =>
      split
      case h_2 => exact h
      case h_1 id relation htarget =>
        -- The edge starts at the routine that was found by the key of an enclosing node.
        obtain ⟨a, -, ha⟩ := List.exists_of_findSome?_eq_some hroutine
        obtain ⟨r, hget, hpair⟩ := Option.map_eq_some_iff.mp ha
        cases hpair
        have hsource := h.routines _ _ hget
        rw [relation_of_target? htarget]
        exact h.addEdge (Edge.anchored_of_outgoing (relation_of_reference? href) hsource)

end Tables

theorem closed_analyze (f : SourceFile) (root : Tree) : (analyze f root).Closed := by
  have hrecorded := Tables.closed_initialTables f root
  have hbases : (root.sites.foldl Tables.linkBase (initialTables f root)).Closed :=
    List.foldlRecOn (motive := Tables.Closed) _ _ hrecorded fun _ h s _ => h.linkBase s
  exact (List.foldlRecOn (motive := Tables.Closed) _ _ hbases
    fun _ h s _ => h.linkReference s).fragment

end CodeGraph.Cpp
