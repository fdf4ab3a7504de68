import CodeGraph.Cpp.References
import CodeGraph.Java.References
import CodeGraph.Language
import CodeGraph.Page.Analysis
import CodeGraph.Sql.Analysis
import CodeGraph.Text.Basic
import CodeGraph.TypeScript.References

/-!
The choice of an analyzer by the extension of a file. A file without an analyzer is skipped, which
is no error.
-/

namespace CodeGraph

/-- What turns a file, with its tree where the language has one, into a fragment. -/
structure Analyzer where
  language : String
  analyze : SourceFile → Option Tree → Except Fault Fragment

namespace Analyzer

def onTree (run : SourceFile → Tree → Fragment) (f : SourceFile) :
    Option Tree → Except Fault Fragment
  | some tree => .ok (run f tree)
  | none => .error f.noTree

/-- An analysis that needs a tree gives the fragment of the tree. -/
theorem of_onTree_eq_ok {run : SourceFile → Tree → Fragment} {f : SourceFile} {tree : Option Tree}
    {g : Fragment} {P : Fragment → Prop} (hrun : ∀ root ∈ tree, P (run f root))
    (h : onTree run f tree = .ok g) : P g := by
  cases tree with
  | none => cases h
  | some root =>
      obtain rfl := Except.ok.inj h
      exact hrun root rfl

def ofLanguage (l : Language) : Analyzer where
  language := l.name
  analyze :=
    match l with
    | .cpp => onTree Cpp.analyze
    | .csharp => onTree CSharp.analyze
    | .java => onTree Java.analyze
    | .typescript | .tsx => onTree TypeScript.analyze
    | .sql => fun f _ => Sql.analyze f
    | .vbnet => fun f _ => .ok (Vb.analyze f)
    | .asp => Page.analyze

end Analyzer

/-- Analyzers by extension, each extension once. -/
structure Registry where
  analyzers : List (String × Analyzer) := []

namespace Registry

/-- Binds an extension, in place of what it was bound to. -/
def register (r : Registry) (ext : String) (a : Analyzer) : Registry :=
  ⟨r.analyzers.filter (·.1 != ext) ++ [(ext, a)]⟩

def default : Registry :=
  Language.all.foldl
    (fun r l => l.extensions.foldl (fun r ext => r.register ext (Analyzer.ofLanguage l)) r) {}

def lookup? (r : Registry) (ext : String) : Option Analyzer :=
  r.analyzers.lookup ext

def lookupPath? (r : Registry) (path : String) : Option Analyzer :=
  (Language.extensionOf? path).bind r.lookup?

def extensions (r : Registry) : List String :=
  (r.analyzers.map (·.1)).mergeSort fun a b => a ≤ b

def describe (r : Registry) : String :=
  "AnalyzerRegistry \x7b extensions: [" ++ Text.join ", " (r.extensions.map Text.quoted)
    ++ "] \x7d"

end Registry

end CodeGraph
