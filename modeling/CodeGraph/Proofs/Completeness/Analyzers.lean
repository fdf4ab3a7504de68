import CodeGraph.Proofs.Completeness.Blocks
import CodeGraph.Proofs.Graph.Lookup
import CodeGraph.Registry

/-!
Complete nodes of every analyzer. All nodes have their place and all routines their extent, and a
routine is measured exactly if it has a body; only in Visual Basic, in a file or on a page, can it
be without one.
-/

namespace CodeGraph

namespace Page

def wrappedVb (f : SourceFile) : SourceFile :=
  ⟨f.path, wrapVb (maskMarkup f.bytes)⟩

/-- The node on the page is that of a routine with a body in the wrapped code. -/
def HasBody (f : SourceFile) (n : Node) : Prop :=
  ∃ m ∈ (Vb.analyze (wrappedVb f)).nodes, unwrapNode f.path (vbWrapper f.path) m = n ∧
    ∃ r ∈ Vb.bodiesOf (wrappedVb f), r.id = m.id

theorem complete_of_mem_analyzeVb {f : SourceFile} {n : Node} (hn : n ∈ (analyzeVb f).nodes) :
    n.Placed f.path ∧ (Label.isCallable n.label = true →
      n.Extended ∧ (n.Measured ↔ HasBody f n)) := by
  obtain ⟨m, hm, -, rfl⟩ := mem_nodes_unwrap hn
  obtain ⟨hplaced, hroutine⟩ := Vb.complete_of_mem_analyze hm
  refine ⟨placed_unwrapNode hplaced, fun hlabel => ?_⟩
  rw [label_unwrapNode] at hlabel
  obtain ⟨hextended, hmeasured⟩ := hroutine hlabel
  refine ⟨extended_unwrapNode hextended, ?_, ?_⟩
  · intro h
    rw [measured_unwrapNode_iff] at h
    exact ⟨m, hm, rfl, hmeasured.mp h⟩
  · -- Another node of the wrapped code may come to the same node of the page.
    rintro ⟨m', hm', heq, hbody⟩
    rw [← heq, measured_unwrapNode_iff]
    refine ((Vb.complete_of_mem_analyze hm').2 ?_).2.mpr hbody
    rw [← label_unwrapNode f.path (vbWrapper f.path), heq, label_unwrapNode, hlabel]

theorem complete_unwrap {g : Fragment} {path wrapper : String} (h : g.Each (Node.Complete path)) :
    (unwrap path wrapper g).Each (Node.Complete path) := by
  intro n hn
  obtain ⟨m, hm, -, rfl⟩ := mem_nodes_unwrap hn
  refine ⟨placed_unwrapNode (h m hm).placed, fun hlabel => ?_⟩
  rw [label_unwrapNode] at hlabel
  obtain ⟨hextended, hmeasured⟩ := (h m hm).routine hlabel
  exact ⟨extended_unwrapNode hextended, (measured_unwrapNode_iff ..).mpr hmeasured⟩

end Page

namespace Analyzer

/-- Whether the routine of a node has a body; outside Visual Basic every routine counts as having
one. -/
def HasBody (l : Language) (f : SourceFile) (n : Node) : Prop :=
  match l with
  | .vbnet => ∃ r ∈ Vb.bodiesOf f, r.id = n.id
  | .asp => Page.language f.path f.bytes = .visualBasic → Page.HasBody f n
  | _ => True

variable {l : Language} {f : SourceFile} {tree : Option Tree} {g : Fragment}

/-- Every node of an analysis says its name, its file and its line, and every routine its signature
and a last line that is not before its line; it says a complexity exactly if it has a body. -/
theorem nodes_complete_iff_body (htree : ∀ root ∈ tree, root.Spanned)
    (h : (ofLanguage l).analyze f tree = .ok g) {n : Node} (hn : n ∈ g.nodes) :
    n.Placed f.path ∧ (Label.isCallable n.label = true →
      n.Extended ∧ (n.Measured ↔ HasBody l f n)) := by
  have hcomplete (hg : g.Each (Node.Complete f.path)) (hbody : HasBody l f n) :
      n.Placed f.path ∧ (Label.isCallable n.label = true →
        n.Extended ∧ (n.Measured ↔ HasBody l f n)) := by
    obtain ⟨hplaced, hroutine⟩ := hg n hn
    refine ⟨hplaced, fun hlabel => ?_⟩
    obtain ⟨hextended, hmeasured⟩ := hroutine hlabel
    exact ⟨hextended, fun _ => hbody, fun _ => hmeasured⟩
  have honTree {run : SourceFile → Tree → Fragment}
      (hrun : ∀ {root : Tree}, root.Spanned → (run f root).Each (Node.Complete f.path))
      (h : onTree run f tree = .ok g) : g.Each (Node.Complete f.path) :=
    of_onTree_eq_ok (fun root hroot => hrun (htree root hroot)) h
  have hQ := Tree.hereditary_spanned
  have hP := makes_complete f
  cases l with
  | cpp => exact hcomplete (honTree (Cpp.each_analyze hQ hP) h) trivial
  | csharp => exact hcomplete (honTree (CSharp.each_analyze hQ hP) h) trivial
  | java => exact hcomplete (honTree (Java.each_analyze hQ hP) h) trivial
  | typescript => exact hcomplete (honTree (TypeScript.each_analyze hQ hP) h) trivial
  | tsx => exact hcomplete (honTree (TypeScript.each_analyze hQ hP) h) trivial
  | sql =>
      exact hcomplete (Sql.each_of_analyze_eq_ok h fun _ _ hn => Sql.complete_of_node? hn) trivial
  | vbnet =>
      obtain rfl := Except.ok.inj h
      exact Vb.complete_of_mem_analyze hn
  | asp =>
      change Page.analyze f tree = .ok g at h
      unfold Page.analyze at h
      split at h
      case h_1 hlanguage =>
        refine hcomplete ?_ fun hvb => by simp [hlanguage] at hvb
        unfold Page.analyzeCSharp at h
        split at h
        case h_1 => cases h
        case h_2 => cases h
        case h_3 wrapped root _ =>
          obtain rfl := Except.ok.inj h
          exact Page.complete_unwrap
            (CSharp.each_analyze hQ (makes_complete ⟨f.path, wrapped⟩) (htree root rfl))
      case h_2 hlanguage =>
        obtain rfl := Except.ok.inj h
        obtain ⟨hplaced, hroutine⟩ := Page.complete_of_mem_analyzeVb hn
        refine ⟨hplaced, fun hlabel => ?_⟩
        obtain ⟨hextended, hmeasured⟩ := hroutine hlabel
        exact ⟨hextended, hmeasured.trans ⟨fun hbody _ => hbody, fun hbody => hbody hlanguage⟩⟩

/-- A function with an empty body, and its tree. -/
theorem empty_function_complete :
    let f : SourceFile := ⟨"a.ts", Utf8.encode "\nfunction f() \x7b\n\x7d".toList⟩
    let root : Tree := .node { kind := "program", start := 1, stop := 17 }
      [.node { kind := "function_declaration", start := 1, stop := 17, key := 1 }
        [.node { kind := "identifier", field := "name", start := 10, stop := 11, key := 2 } [],
          .node { kind := "statement_block", field := "body", start := 14, stop := 17,
                  key := 3 } []]]
    ∃ g n, (ofLanguage .typescript).analyze f (some root) = .ok g ∧ n ∈ g.nodes ∧
      n.id = "a.ts:f" ∧ Label.isCallable n.label = true ∧ n.Placed "a.ts" ∧ n.Extended ∧
      n.Measured := by
  intro f root
  have hroot : root.Spanned := by
    refine .node (by decide) fun c hc => ?_
    rw [List.mem_singleton.mp hc]
    refine .node (by decide) fun c hc => ?_
    simp only [List.mem_cons, List.not_mem_nil, or_false] at hc
    rcases hc with rfl | rfl
    · exact .node (by decide) (by simp)
    · exact .node (by decide) (by simp)
  have hfound : ((TypeScript.analyze f root).node? "a.ts:f").map Node.label =
      some Label.function := by
    decide +kernel
  obtain ⟨n, hnode, hlabel⟩ := Option.map_eq_some_iff.mp hfound
  obtain ⟨hn, hid⟩ := Fragment.mem_nodes_of_node? hnode
  have hcallable : Label.isCallable n.label = true := by
    rw [hlabel]
    decide
  have hanalyze : (ofLanguage .typescript).analyze f (some root) =
      .ok (TypeScript.analyze f root) := rfl
  obtain ⟨hplaced, hroutine⟩ := nodes_complete_iff_body (by simpa using hroot) hanalyze hn
  obtain ⟨hextended, hmeasured⟩ := hroutine hcallable
  exact ⟨_, n, hanalyze, hn, hid, hcallable, hplaced, hextended, hmeasured.mpr trivial⟩

/-- A routine of an interface has no body and is not measured. -/
theorem interface_routine_not_measured :
    ∃ g n, (ofLanguage .vbnet).analyze
        ⟨"a.vb", Utf8.encode "Interface I\nSub F()\nEnd Interface\n".toList⟩ none = .ok g ∧
      n ∈ g.nodes ∧ n.id = "a.vb:I:F" ∧ n.label = Label.method ∧ ¬n.Measured := by
  let f : SourceFile := ⟨"a.vb", Utf8.encode "Interface I\nSub F()\nEnd Interface\n".toList⟩
  have hfound : ((Vb.analyze f).node? "a.vb:I:F").map
      (fun n => (n.label, (n.get? Key.complexity).isNone)) = some (Label.method, true) := by
    decide +kernel
  obtain ⟨n, hnode, hboth⟩ := Option.map_eq_some_iff.mp hfound
  obtain ⟨hlabel, hnone⟩ := Prod.mk.inj hboth
  obtain ⟨hn, hid⟩ := Fragment.mem_nodes_of_node? hnode
  refine ⟨Vb.analyze f, n, rfl, hn, hid, hlabel, ?_⟩
  rintro ⟨complexity, -, hcomplexity⟩
  simp [hcomplexity] at hnone

end Analyzer

end CodeGraph
