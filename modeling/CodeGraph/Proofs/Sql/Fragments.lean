import CodeGraph.Proofs.Graph.Lookup
import CodeGraph.Proofs.Sql.Spans

/-!
The fragment of a script in terms of its definitions. The node with an ID is that of the first
definition with the ID, and the edges are those of all definitions.
-/

namespace CodeGraph.Sql

variable {path : String} {text : List Char} {d : Definition} {f : Fragment} {id : String}

def maskedText (bytes : List UInt8) : List Char :=
  Utf8.lossy (masked bytes)

theorem analyze_eq_ok_iff {file : SourceFile} :
    analyze file = .ok f ↔ fragment? file.path (maskedText file.bytes) = some f := by
  rw [analyze, maskedText]
  split <;> simp_all

/-- The definition whose node has the ID: of the definitions with the ID, the first. -/
def leading? (path : String) (text : List Char) (id : String) : Option Definition :=
  (definitions text).find? (·.id path == id)

theorem mem_of_leading? (h : leading? path text id = some d) : d ∈ definitions text :=
  List.mem_of_find?_eq_some h

theorem id_of_leading? (h : leading? path text id = some d) : d.id path = id := by
  simpa using List.find?_some h

theorem exists_parts_of_fragment? (h : fragment? path text = some f) :
    ∃ nodes : List Node, ∃ edges : List (List Edge),
      (definitions text).map (node? path text) = nodes.map some ∧
      (definitions text).map (edges? path text (Names.ofDefinitions path (definitions text))) =
        edges.map some ∧
      f = (nodes.foldl Fragment.addNode {}).addAll edges.flatten := by
  unfold fragment? at h
  dsimp only at h
  split at h
  case h_2 => cases h
  case h_1 nodes edges hnodes hedges =>
    cases h
    exact ⟨nodes, edges, mapM_eq_some_iff.mp hnodes, mapM_eq_some_iff.mp hedges, rfl⟩

theorem nodup_ids_of_fragment? (h : fragment? path text = some f) : f.ids.Nodup := by
  obtain ⟨nodes, edges, -, -, rfl⟩ := exists_parts_of_fragment? h
  rw [Fragment.ids_addAll]
  exact Fragment.nodup_foldl_addNode nodes

/-- Searching the nodes of some definitions is searching the definitions. -/
theorem find?_nodes {ds : List Definition} {nodes : List Node}
    (h : ds.map (node? path text) = nodes.map some) (id : String) :
    nodes.find? (·.id == id) = (ds.find? (·.id path == id)).bind (node? path text) := by
  induction ds generalizing nodes with
  | nil =>
      obtain rfl : nodes = [] := List.map_eq_nil_iff.mp h.symm
      rfl
  | cons d ds ih =>
      cases nodes with
      | nil => cases h
      | cons n nodes =>
          obtain ⟨hn, hrest⟩ := List.cons.inj h
          rw [List.find?_cons, List.find?_cons, id_of_node? hn, ih hrest]
          cases d.id path == id
          · rfl
          · exact hn.symm

theorem node?_of_fragment? (h : fragment? path text = some f) (id : String) :
    f.node? id = (leading? path text id).bind (node? path text) := by
  obtain ⟨nodes, edges, hnodes, -, rfl⟩ := exists_parts_of_fragment? h
  have hempty : ({} : Fragment).node? id = none := rfl
  rw [Fragment.node?, Fragment.nodes_addAll, ← Fragment.node?, Fragment.node?_foldl_addNode, hempty,
    Option.none_or, find?_nodes hnodes, leading?]

/-- Each node is that of the definition that leads under its ID. -/
theorem exists_leading?_of_mem_nodes (h : fragment? path text = some f) {n : Node}
    (hn : n ∈ f.nodes) : ∃ d, leading? path text n.id = some d ∧ node? path text d = some n := by
  have hfound := Fragment.node?_of_mem (nodup_ids_of_fragment? h) hn
  rw [node?_of_fragment? h] at hfound
  exact Option.bind_eq_some_iff.mp hfound

theorem exists_node_of_leading? (h : fragment? path text = some f)
    (hd : leading? path text id = some d) :
    ∃ n ∈ f.nodes, n.id = id ∧ node? path text d = some n := by
  obtain ⟨nodes, edges, hnodes, -⟩ := exists_parts_of_fragment? h
  obtain ⟨n, -, hn⟩ : ∃ n ∈ nodes, some n = node? path text d :=
    List.mem_map.mp (hnodes ▸ List.mem_map_of_mem (mem_of_leading? hd))
  have hfound := node?_of_fragment? h id
  rw [hd, Option.bind_some, ← hn] at hfound
  obtain ⟨hmem, hid⟩ := Fragment.mem_nodes_of_node? hfound
  exact ⟨n, hmem, hid, hn.symm⟩

theorem mem_edges_of_fragment? (h : fragment? path text = some f) {e : Edge} :
    e ∈ f.edges ↔ ∃ d ∈ definitions text, ∃ es,
      edges? path text (Names.ofDefinitions path (definitions text)) d = some es ∧ e ∈ es := by
  obtain ⟨nodes, edges, -, hedges, rfl⟩ := exists_parts_of_fragment? h
  have hmem (es : List Edge) : es ∈ edges ↔ ∃ d ∈ definitions text,
      edges? path text (Names.ofDefinitions path (definitions text)) d = some es := by
    rw [← List.mem_map, hedges]
    simp
  rw [Fragment.mem_edges_addAll, Fragment.edges_foldl_addNode, List.mem_flatten]
  simp only [hmem]
  constructor
  · rintro (hnone | ⟨es, ⟨d, hd, hes⟩, he⟩)
    · cases hnone
    · exact ⟨d, hd, es, hes, he⟩
  · rintro ⟨d, hd, es, hes, he⟩
    exact .inr ⟨es, ⟨d, hd, hes⟩, he⟩

end CodeGraph.Sql
