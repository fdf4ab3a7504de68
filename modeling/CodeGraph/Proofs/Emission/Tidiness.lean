import CodeGraph.Proofs.Closure.Analyzers
import CodeGraph.Proofs.Emission.Jobs
import CodeGraph.Proofs.Graph.Making
import CodeGraph.Proofs.Page.Lines

/-!
Everything that is emitted is tidy. Each analyzer builds its nodes by setting properties under
names of its own, none of them reserved, and what comes after the analysis, bringing a page back
into place or attaching embeddings, sets no others. So whatever the file, the properties of a node
never compete with what the line of a record needs for itself.
-/

namespace CodeGraph

open Declaration

/-! ### Fragments -/

theorem makes_tidy (f : SourceFile) : Makes Node.Tidy (fun _ => True) f where
  definition := fun _ _ _ _ _ => Node.tidy_definition ..
  spanning := fun _ _ _ _ _ => tidy_spanning ..
  routine := fun _ _ _ _ _ _ => tidy_routineNode ..
  detail := fun h hkey hvalue => by
    have hfree : ∀ key ∈ Key.details, key ∉ Key.reserved := by decide
    exact h.set (hfree _ hkey) hvalue

theorem Cpp.tidy_analyze (f : SourceFile) (root : Tree) : (analyze f root).Each Node.Tidy :=
  each_analyze Tree.hereditary_true (makes_tidy f) trivial

theorem Java.tidy_analyze (f : SourceFile) (root : Tree) : (analyze f root).Each Node.Tidy :=
  each_analyze Tree.hereditary_true (makes_tidy f) trivial

theorem CSharp.tidy_analyze (f : SourceFile) (root : Tree) : (analyze f root).Each Node.Tidy :=
  each_analyze Tree.hereditary_true (makes_tidy f) trivial

theorem TypeScript.tidy_analyze (f : SourceFile) (root : Tree) :
    (analyze f root).Each Node.Tidy :=
  each_analyze Tree.hereditary_true (makes_tidy f) trivial

theorem Sql.tidy_of_node? {path : String} {text : List Char} {d : Definition} {n : Node}
    (h : node? path text d = some n) : n.Tidy := by
  have hbase : (baseNode path text d).Tidy :=
    ((Node.tidy_definition ..).set (by decide) (.int _)).set (by decide) (.str _)
  unfold node? at h
  dsimp only at h
  split at h
  · obtain ⟨body, -, rfl⟩ := Option.map_eq_some_iff.mp h
    exact (hbase.set (by decide) (.str _)).set (by decide) (.int _)
  · cases h
    exact hbase

theorem Sql.tidy_of_analyze_eq_ok {f : SourceFile} {g : Fragment} (h : analyze f = .ok g) :
    g.Each Node.Tidy :=
  each_of_analyze_eq_ok h fun _ _ hn => tidy_of_node? hn

theorem Vb.tidy_analyze (f : SourceFile) : (analyze f).Each Node.Tidy := by
  have hlasting : Lasting Node.Tidy := by
    intro n key count hkey h
    have hfree : ∀ key ∈ laterKeys, key ∉ Key.reserved := by decide
    exact h.set (hfree key hkey) (.int count)
  have hnew : ∀ raw number n, IntroducedOn raw number n → n.Tidy := by
    intro raw number n h
    cases h <;> exact (Node.tidy_definition ..).set (by decide) (.str _)
  exact each_fragmentOf hlasting hnew f.path _

namespace Page

theorem tidy_liftLine {n : Node} (h : n.Tidy) {key : String} (hkey : key ∉ Key.reserved) :
    (liftLine n key).Tidy := by
  unfold liftLine
  split
  · exact h.set hkey (.int _)
  · exact h

theorem tidy_unwrap {f : Fragment} (h : f.Each Node.Tidy) (path wrapper : String) :
    (unwrap path wrapper f).Each Node.Tidy := by
  have hlines : ∀ n : Node, n.Tidy → (liftLines n).Tidy :=
    fun n hn => tidy_liftLine (tidy_liftLine hn (by decide)) (by decide)
  intro n hn
  obtain ⟨m, hm, -, rfl⟩ := mem_nodes_unwrap hn
  unfold unwrapNode
  split
  · exact hlines _ ((h m hm).renamed _ _)
  · exact hlines m (h m hm)

theorem tidy_of_analyze_eq_ok {f : SourceFile} {tree : Option Tree} {g : Fragment}
    (h : analyze f tree = .ok g) : g.Each Node.Tidy := by
  unfold analyze at h
  split at h
  case h_1 =>
    unfold analyzeCSharp at h
    split at h
    · cases h
    · cases h
    · obtain rfl := Except.ok.inj h
      exact tidy_unwrap (CSharp.tidy_analyze _ _) _ _
  case h_2 =>
    obtain rfl := Except.ok.inj h
    exact tidy_unwrap (Vb.tidy_analyze _) _ _

end Page

/-! ### The analyzers of the default registry -/

namespace Analyzer

theorem tidy_of_analyze_eq_ok {l : Language} {f : SourceFile} {tree : Option Tree} {g : Fragment}
    (h : (ofLanguage l).analyze f tree = .ok g) : g.Each Node.Tidy := by
  cases l with
  | cpp => exact of_onTree_eq_ok (fun root _ => Cpp.tidy_analyze f root) h
  | csharp => exact of_onTree_eq_ok (fun root _ => CSharp.tidy_analyze f root) h
  | java => exact of_onTree_eq_ok (fun root _ => Java.tidy_analyze f root) h
  | typescript => exact of_onTree_eq_ok (fun root _ => TypeScript.tidy_analyze f root) h
  | tsx => exact of_onTree_eq_ok (fun root _ => TypeScript.tidy_analyze f root) h
  | sql => exact Sql.tidy_of_analyze_eq_ok h
  | vbnet =>
      obtain rfl := Except.ok.inj h
      exact Vb.tidy_analyze f
  | asp => exact Page.tidy_of_analyze_eq_ok h

/-- No analyzer fails with something found. -/
theorem found?_of_analyze_eq_error {l : Language} {f : SourceFile} {tree : Option Tree}
    {e : Failure} (h : (ofLanguage l).analyze f tree = .error (.failure e)) : e.found? = none := by
  have honTree : ∀ run, onTree run f tree = .error (.failure e) → e.found? = none := by
    intro run hrun
    cases tree with
    | none =>
        cases hrun
        rfl
    | some => cases hrun
  cases l with
  | cpp => exact honTree _ h
  | csharp => exact honTree _ h
  | java => exact honTree _ h
  | typescript => exact honTree _ h
  | tsx => exact honTree _ h
  | sql =>
      change Sql.analyze f = _ at h
      unfold Sql.analyze at h
      split at h <;> cases h
  | vbnet => cases h
  | asp =>
      change Page.analyze f tree = _ at h
      unfold Page.analyze at h
      split at h
      · unfold Page.analyzeCSharp at h
        split at h <;> cases h
        rfl
      · cases h

end Analyzer

namespace Registry

theorem mem_analyzers_register {r : Registry} {ext : String} {a : Analyzer}
    {entry : String × Analyzer} (h : entry ∈ (r.register ext a).analyzers) :
    entry ∈ r.analyzers ∨ entry = (ext, a) := by
  rcases List.mem_append.mp h with h | h
  · exact .inl (List.mem_of_mem_filter h)
  · exact .inr (List.mem_singleton.mp h)

/-- The default registry binds no analyzer but those of the languages. -/
theorem exists_ofLanguage_of_mem_default {entry : String × Analyzer}
    (h : entry ∈ default.analyzers) : ∃ l, entry.2 = Analyzer.ofLanguage l := by
  let Known (r : Registry) : Prop := ∀ entry ∈ r.analyzers, ∃ l, entry.2 = Analyzer.ofLanguage l
  have hregister : ∀ r l, Known r → ∀ ext, Known (r.register ext (Analyzer.ofLanguage l)) := by
    intro r l hr ext entry hentry
    rcases mem_analyzers_register hentry with hentry | rfl
    · exact hr entry hentry
    · exact ⟨l, rfl⟩
  have hdefault : Known default := by
    refine List.foldlRecOn (motive := Known) _ _ ?_ fun r hr l _ => ?_
    · intro _ hnil
      cases hnil
    · exact List.foldlRecOn (motive := Known) _ _ hr fun r hr ext _ => hregister r l hr ext
  exact hdefault entry h

theorem exists_ofLanguage_of_lookupPath? {path : String} {a : Analyzer}
    (h : default.lookupPath? path = some a) : ∃ l, a = Analyzer.ofLanguage l := by
  obtain ⟨ext, -, hlookup⟩ := Option.bind_eq_some_iff.mp h
  obtain ⟨before, after, hentries, -⟩ := List.lookup_eq_some_iff.mp hlookup
  have hmem : (ext, a) ∈ default.analyzers := hentries ▸ List.mem_append_right _ List.mem_cons_self
  exact exists_ofLanguage_of_mem_default hmem

end Registry

/-! ### Emitted records -/

namespace Processor

theorem tidy_fileNode (path language : String) : (fileNode path language).Tidy :=
  (((Node.tidy_bare path Label.file).set (by decide) (.str path)).set (by decide) (.str path)).set
    (by decide) (.str language)

theorem canonical_json (v : Embedding) : (Embedding.json v).Canonical := by
  refine .list fun x hx => ?_
  obtain ⟨c, -, rfl⟩ := List.mem_map.mp hx
  unfold Embedding.coordinate
  split
  case isTrue h => exact .float h
  case isFalse => exact .null

theorem tidy_attach {nodes : List Node} (h : ∀ n ∈ nodes, n.Tidy) (vectors : List Embedding) :
    ∀ n ∈ attach nodes vectors, n.Tidy := by
  induction nodes generalizing vectors with
  | nil => exact h
  | cons n nodes ih =>
      obtain ⟨hn, hnodes⟩ := List.forall_mem_cons.mp h
      cases vectors with
      | nil => exact h
      | cons v vectors =>
          rw [attach]
          split
          · exact List.forall_mem_cons.mpr
              ⟨hn.set (by decide) (canonical_json v), ih hnodes vectors⟩
          · exact List.forall_mem_cons.mpr ⟨hn, ih hnodes (v :: vectors)⟩

theorem tidy_embed {nodes : List Node} (h : ∀ n ∈ nodes, n.Tidy) (embedder : Embedder) :
    ∀ n ∈ embed embedder nodes, n.Tidy := by
  unfold embed
  dsimp only
  split
  · exact h
  · split
    · split
      · exact tidy_attach h _
      · exact h
    · exact h

theorem tidy_of_mem_records {embedder : Embedder} {path language : String} {f : Fragment}
    (h : f.Each Node.Tidy) {n : Node} (hn : .node n ∈ records embedder path language f) :
    n.Tidy := by
  simp only [records, List.cons_append, List.mem_cons, List.mem_append, List.mem_map,
    Record.node.injEq, exists_eq_right, reduceCtorEq, and_false, exists_false, false_or,
    or_false] at hn
  rcases hn with rfl | hn
  · exact tidy_fileNode path language
  · exact tidy_embed h embedder n hn

/-- Whatever a processor with the default analyzers emits for a file, its nodes are tidy. -/
theorem tidy_of_study {p : Processor} (hp : p.registry = Registry.default) {path : String}
    {rs : List Record} (h : p.study path = .records rs) {n : Node} (hn : .node n ∈ rs) :
    n.Tidy := by
  obtain ⟨language, f, ⟨analyzer, content, hlookup, -, -, hanalyze⟩, rfl⟩ :=
    study_eq_records_iff.mp h
  rw [hp] at hlookup
  obtain ⟨l, rfl⟩ := Registry.exists_ofLanguage_of_lookupPath? hlookup
  rcases hanalyze with hok | ⟨-, e, hfound, herror⟩
  · exact tidy_of_mem_records (Analyzer.tidy_of_analyze_eq_ok hok) hn
  · rw [Analyzer.found?_of_analyze_eq_error herror] at hfound
    cases hfound

end Processor

end CodeGraph
