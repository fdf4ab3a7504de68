import CodeGraph.Proofs.Closure.Linking
import CodeGraph.Proofs.Closure.Scripts
import CodeGraph.Proofs.Closure.Tables
import CodeGraph.Proofs.Page.Unwrap
import CodeGraph.Registry

/-!
Every analyzer gives closed fragments: whatever the file and, where the language has one, whatever
the tree, an edge for a call, a use or a watch starts at a node of the fragment, and an edge to a
method or field ends at one.
-/

namespace CodeGraph

theorem Page.closed_of_analyze_eq_ok {f : SourceFile} {tree : Option Tree} {g : Fragment}
    (h : Page.analyze f tree = .ok g) : g.Closed := by
  unfold Page.analyze at h
  split at h
  case h_1 =>
    unfold analyzeCSharp at h
    split at h
    · cases h
    · cases h
    · obtain rfl := Except.ok.inj h
      exact closed_unwrap (CSharp.closed_analyze _ _) _ _
  case h_2 =>
    obtain rfl := Except.ok.inj h
    rw [analyzeVb]
    exact closed_unwrap (Vb.closed_analyze _) _ _

namespace Analyzer

/-- The fragment of any file in any language is closed, and it stays so when it is unwrapped. -/
theorem analyze_closed (l : Language) (f : SourceFile) (tree : Option Tree) {g : Fragment}
    (h : (ofLanguage l).analyze f tree = .ok g) :
    g.Closed ∧ ∀ path wrapper, (Page.unwrap path wrapper g).Closed := by
  have hclosed : g.Closed := by
    cases l with
    | cpp => exact of_onTree_eq_ok (fun root _ => Cpp.closed_analyze f root) h
    | csharp => exact of_onTree_eq_ok (fun root _ => CSharp.closed_analyze f root) h
    | java => exact of_onTree_eq_ok (fun root _ => Java.closed_analyze f root) h
    | typescript => exact of_onTree_eq_ok (fun root _ => TypeScript.closed_analyze f root) h
    | tsx => exact of_onTree_eq_ok (fun root _ => TypeScript.closed_analyze f root) h
    | sql => exact Sql.closed_of_analyze_eq_ok h
    | vbnet =>
        obtain rfl := Except.ok.inj h
        exact Vb.closed_analyze f
    | asp => exact Page.closed_of_analyze_eq_ok h
  exact ⟨hclosed, Page.closed_unwrap hclosed⟩

/-- A page with a class, whose method calls a routine of the page. -/
theorem page_with_class_closed :
    ∃ g : Fragment,
      (ofLanguage .asp).analyze ⟨"p.asp", Utf8.encode
        "<%\nClass C\nSub A()\nB()\nEnd Sub\nEnd Class\nSub B()\nEnd Sub\n%>".toList⟩ none =
          .ok g ∧
      g.ids = ["p.asp:C", "p.asp:C:A", "p.asp:B"] ∧
      g.edges = [⟨"p.asp:C", "p.asp:C:A", Relation.hasMethod⟩,
        ⟨"p.asp:C:A", "p.asp:B", Relation.calls⟩] ∧
      g.Closed ∧ ∀ path wrapper, (Page.unwrap path wrapper g).Closed := by
  let f : SourceFile := ⟨"p.asp", Utf8.encode
    "<%\nClass C\nSub A()\nB()\nEnd Sub\nEnd Class\nSub B()\nEnd Sub\n%>".toList⟩
  have hok : (ofLanguage .asp).analyze f none = .ok (Page.analyzeVb f) := by
    have hlanguage : Page.language f.path f.bytes = .visualBasic := by decide +kernel
    show Page.analyze f none = _
    rw [Page.analyze, hlanguage]
  have hparts : (Page.analyzeVb f).ids = ["p.asp:C", "p.asp:C:A", "p.asp:B"] ∧
      (Page.analyzeVb f).edges = [⟨"p.asp:C", "p.asp:C:A", Relation.hasMethod⟩,
        ⟨"p.asp:C:A", "p.asp:B", Relation.calls⟩] := by
    decide +kernel
  exact ⟨Page.analyzeVb f, hok, hparts.1, hparts.2, analyze_closed .asp f none hok⟩

end Analyzer

end CodeGraph
