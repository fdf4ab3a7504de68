import CodeGraph.Page.Analysis
import CodeGraph.Proofs.Graph.Fragments

/-!
What unwrapping does to the IDs and the edges of a fragment: the wrapper goes with all edges at
it, and everything else is renamed in the same way at nodes and at the ends of edges. A closed
fragment stays closed.
-/

namespace CodeGraph.Page

variable {path wrapper : String} {f : Fragment}

theorem id_liftLine (n : Node) (key : String) : (liftLine n key).id = n.id := by
  unfold liftLine
  split <;> rfl

theorem id_unwrapNode (path wrapper : String) (n : Node) :
    (unwrapNode path wrapper n).id = pageId path wrapper n.id := by
  unfold unwrapNode pageId
  split
  case h_1 id hid =>
    rw [liftLines, id_liftLine, id_liftLine, hid]
    rfl
  case h_2 hid =>
    rw [liftLines, id_liftLine, id_liftLine, hid]
    rfl

def unwrapEdge (path wrapper : String) (e : Edge) : Edge :=
  ⟨pageId path wrapper e.source, pageId path wrapper e.target, e.relation⟩

theorem unwrap_eq_addAll (path wrapper : String) (f : Fragment) :
    unwrap path wrapper f =
      (((f.nodes.filter (·.id != wrapper)).map (unwrapNode path wrapper)).foldl
        Fragment.addNode {}).addAll
        ((f.edges.filter fun e => e.source != wrapper && e.target != wrapper).map
          (unwrapEdge path wrapper)) := by
  rw [Fragment.addAll, List.foldl_map]
  rfl

theorem mem_ids_unwrap {id : String} :
    id ∈ (unwrap path wrapper f).ids ↔
      ∃ own ∈ f.ids, own ≠ wrapper ∧ pageId path wrapper own = id := by
  rw [unwrap_eq_addAll, Fragment.ids_addAll, Fragment.mem_ids_foldl_addNode]
  simp only [Fragment.ids, List.map_nil, List.not_mem_nil, false_or, List.mem_map,
    List.mem_filter, bne_iff_ne]
  constructor
  · rintro ⟨_, ⟨n, ⟨hn, hne⟩, rfl⟩, rfl⟩
    exact ⟨n.id, ⟨n, hn, rfl⟩, hne, (id_unwrapNode path wrapper n).symm⟩
  · rintro ⟨_, ⟨n, hn, rfl⟩, hne, rfl⟩
    exact ⟨_, ⟨n, ⟨hn, hne⟩, rfl⟩, id_unwrapNode path wrapper n⟩

theorem mem_edges_unwrap {e : Edge} :
    e ∈ (unwrap path wrapper f).edges ↔
      ∃ own ∈ f.edges, own.source ≠ wrapper ∧ own.target ≠ wrapper ∧
        unwrapEdge path wrapper own = e := by
  rw [unwrap_eq_addAll, Fragment.mem_edges_addAll, Fragment.edges_foldl_addNode]
  simp only [List.not_mem_nil, false_or, List.mem_map, List.mem_filter, Bool.and_eq_true,
    bne_iff_ne, and_assoc]

theorem closed_unwrap (h : f.Closed) (path wrapper : String) :
    (unwrap path wrapper f).Closed := by
  intro e he
  obtain ⟨own, hown, hsource, htarget, rfl⟩ := mem_edges_unwrap.mp he
  constructor
  · intro hrelation
    exact mem_ids_unwrap.mpr ⟨own.source, (h own hown).1 hrelation, hsource, rfl⟩
  · intro hrelation
    exact mem_ids_unwrap.mpr ⟨own.target, (h own hown).2 hrelation, htarget, rfl⟩

end CodeGraph.Page
