import CodeGraph.Page.Analysis
import CodeGraph.Proofs.Linking.ClassMethods
import CodeGraph.Proofs.Linking.Members
import CodeGraph.Proofs.Page.Renaming
import CodeGraph.Proofs.Vb.Nesting
import CodeGraph.Proofs.Vb.Rooting

/-!
The labels of methods on a page. Unwrapping relabels by the ID: every method whose ID continues that
of the wrapper becomes a function. Edges go by their ends: only those at the wrapper itself are
dropped. A type that is nested in the wrapper stands between the two rules. Its methods become
functions, and the edges that lead from it to them stay.
-/

namespace CodeGraph

/-- Every edge from a type to a method leads to a node that is labelled a method. -/
def Fragment.MethodsTyped (g : Fragment) : Prop :=
  ∀ e ∈ g.edgesOf Relation.hasMethod, ∃ n ∈ g.nodes, n.id = e.target ∧ n.label = Label.method

instance (g : Fragment) : Decidable g.MethodsTyped :=
  inferInstanceAs (Decidable (∀ e ∈ _, _))

/-! ### Owners of methods -/

/-- The edges to methods lead from a type to the ID of the type with the name of the method behind
it, and the ID in question is not that of such a member. -/
structure Fragment.MethodsOwned (g : Fragment) (id : String) : Prop where
  member : ∀ e ∈ g.edgesOf Relation.hasMethod, ∃ name, e.target = Ident.member e.source name
  outer : ∀ e ∈ g.edgesOf Relation.hasMethod, ∀ name, id ≠ Ident.member e.source name

theorem Fragment.MethodsOwned.target_ne {g : Fragment} {id : String} (h : g.MethodsOwned id)
    {e : Edge} (he : e ∈ g.edgesOf Relation.hasMethod) : e.target ≠ id := by
  obtain ⟨name, hname⟩ := h.member e he
  exact fun heq => h.outer e he name (heq.symm.trans hname)

theorem mem_edgesOf {g : Fragment} {relation : String} {e : Edge} :
    e ∈ g.edgesOf relation ↔ e ∈ g.edges ∧ e.relation = relation := by
  rw [Fragment.edgesOf, List.mem_filter, beq_iff_eq]

theorem CSharp.methodsOwned_analyze (f : SourceFile) (root : Tree) {id : String}
    (hid : ':' ∉ id.toList) : (analyze f root).MethodsOwned id where
  member e he := by
    obtain ⟨he, hrelation⟩ := mem_edgesOf.mp he
    have howning : e.relation ∈ Relation.owning := by rw [hrelation]; decide
    obtain ⟨d, hd, hedge⟩ := (linker.mem_owning_analyze_iff howning).mp he
    cases d with
    | type => cases hedge
    | global => cases hedge
    | field name n owner typeText => exact ⟨name, by
        cases hedge
        exact linker.member_id f root _ hd owner name rfl⟩
    | routine key name n owner =>
        cases owner with
        | none => cases hedge
        | some owner => exact ⟨name, by
            cases hedge
            exact linker.member_id f root _ hd owner name rfl⟩
  outer e _ name h := hid (h ▸ Ident.colon_mem_member e.source name)

namespace Vb

namespace Blocks

/-- Supertypes and calls give no edge to a method. -/
theorem mem_edges_scanned_of_hasMethod {path : String} {lines : List (List Char)} {e : Edge}
    (h : e ∈ (fragmentOf path lines).edgesOf Relation.hasMethod) :
    e ∈ (scanned path lines).fragment.edges := by
  rw [fragmentOf, methods_foldl_linkCalls, ofLines_eq] at h
  obtain ⟨h, hrelation⟩ := mem_edgesOf.mp h
  refine List.foldlRecOn (motive := fun b : Blocks => e ∈ b.fragment.edges →
    e ∈ (scanned path lines).fragment.edges) _ _ id (fun b hb s hs he => ?_) h
  rcases Fragment.mem_edges_addEdge.mp he with he | rfl
  · exact hb he
  · have hother : ∀ relation ∈ Relation.supertyping, relation ≠ Relation.hasMethod := by decide
    exact absurd hrelation (hother _ ((closed_scanned path lines).supertypes s hs))

end Blocks

theorem methodsOwned_analyze (f : SourceFile) {name : String} (hname : ':' ∉ name.toList) :
    (analyze f).MethodsOwned (Ident.inFile f.path name) where
  member e he := by
    obtain ⟨-, name, -, htarget⟩ :=
      Blocks.rooted_of_mem_edges_scanned (Blocks.mem_edges_scanned_of_hasMethod he)
    exact ⟨name, htarget⟩
  outer e he member heq := by
    obtain ⟨rest, -, hsource, -⟩ :=
      Blocks.rooted_of_mem_edges_scanned (Blocks.mem_edges_scanned_of_hasMethod he)
    have hmember : name = Ident.member rest member := by
      simpa [hsource, Ident.inFile, Ident.member, String.append_assoc, String.append_right_inj]
        using heq
    exact hname (hmember ▸ Ident.colon_mem_member rest member)

end Vb

namespace Page

variable {path wrapper : String} {code : Fragment}

/-! ### Inside the wrapper -/

/-- What belongs to the wrapper or to a type in it, by its ID. -/
def Inside (wrapper id : String) : Prop :=
  ∃ name, id = wrapper ++ ":" ++ name ∨ id = wrapper ++ "." ++ name

theorem isSome_pageId?_iff (path : String) {id : String} :
    (pageId? path wrapper id).isSome ↔ Inside wrapper id := by
  constructor
  · intro h
    obtain ⟨id', hid'⟩ := Option.isSome_iff_exists.mp h
    exact exists_name_of_pageId?_eq_some hid'
  · rintro ⟨name, rfl | rfl⟩
    · rw [pageId?_member, Option.isSome_some]
    · rw [pageId?_nested, Option.isSome_some]

theorem not_inside_self (wrapper : String) : ¬Inside wrapper wrapper := by
  rintro ⟨name, h | h⟩
  all_goals
    have hlength := congrArg String.length h
    simp only [String.length_append] at hlength
    have hmark : (":" : String).length = 1 ∧ ("." : String).length = 1 := by decide
    omega

/-- A mark in front of a name. -/
theorem inside_iff_toList {id : String} :
    Inside wrapper id ↔ ∃ c ∈ [':', '.'], ∃ s, id.toList = wrapper.toList ++ c :: s := by
  constructor
  · rintro ⟨name, rfl | rfl⟩
    · exact ⟨':', by simp, name.toList, by simp [String.toList_append]⟩
    · exact ⟨'.', by simp, name.toList, by simp [String.toList_append]⟩
  · rintro ⟨c, hc, s, hs⟩
    refine ⟨String.ofList s, ?_⟩
    rcases List.mem_pair.mp hc with rfl | rfl
    · exact .inl (String.toList_inj.mp (by simpa [String.toList_append] using hs))
    · exact .inr (String.toList_inj.mp (by simpa [String.toList_append] using hs))

/-- A member is inside the wrapper exactly if its owner is the wrapper or inside it, unless the
wrapper is itself a member of that owner. -/
theorem inside_member_iff {owner name : String} (h : ∀ name, wrapper ≠ Ident.member owner name) :
    Inside wrapper (Ident.member owner name) ↔ owner = wrapper ∨ Inside wrapper owner := by
  have hmember : (Ident.member owner name).toList = owner.toList ++ ':' :: name.toList := by
    simp [Ident.member, String.toList_append]
  rw [inside_iff_toList, inside_iff_toList, hmember]
  constructor
  · rintro ⟨c, hc, s, hs⟩
    rcases List.append_eq_append_iff.mp hs with ⟨more, hwrapper, htail⟩ | ⟨more, howner, htail⟩
    · cases more with
      | nil => exact .inl (String.toList_inj.mp (by simpa using hwrapper.symm))
      | cons d more =>
          -- The wrapper would be a member of the owner.
          obtain ⟨rfl, -⟩ := List.cons.inj htail
          refine absurd (String.toList_inj.mp ?_) (h (String.ofList more))
          rw [hwrapper]
          simp [Ident.member, String.toList_append]
    · cases more with
      | nil => exact .inl (String.toList_inj.mp (by simpa using howner))
      | cons d more =>
          obtain ⟨rfl, -⟩ := List.cons.inj htail
          exact .inr ⟨c, hc, more, howner⟩
  · rintro (rfl | ⟨c, hc, s, hs⟩)
    · exact ⟨':', by simp, name.toList, rfl⟩
    · exact ⟨c, hc, s ++ ':' :: name.toList, by rw [hs, List.append_assoc, List.cons_append]⟩

/-! ### Nodes of a page -/

theorem label_liftLine (n : Node) (key : String) : (liftLine n key).label = n.label := by
  unfold liftLine
  split <;> rfl

theorem label_unwrapNode_eq_ite (path wrapper : String) (n : Node) :
    (unwrapNode path wrapper n).label =
      if n.label = Label.method ∧ (pageId? path wrapper n.id).isSome then Label.function
      else n.label := by
  unfold unwrapNode
  split
  case h_1 id hid =>
    rw [liftLines, label_liftLine, label_liftLine, hid]
    simp only [beq_iff_eq, Option.isSome_some, and_true]
  case h_2 hid =>
    rw [liftLines, label_liftLine, label_liftLine, hid]
    simp

/-- What is still labelled a method on the page was one outside the wrapper. -/
theorem label_unwrapNode_eq_method_iff {n : Node} :
    (unwrapNode path wrapper n).label = Label.method ↔
      n.label = Label.method ∧ ¬Inside wrapper n.id := by
  rw [label_unwrapNode_eq_ite, ← isSome_pageId?_iff path]
  split_ifs with h
  · exact iff_of_false (by decide) fun hmethod => hmethod.2 h.2
  · exact ⟨fun hmethod => ⟨hmethod, fun hsome => h ⟨hmethod, hsome⟩⟩, And.left⟩

/-- The node that stands for an ID of the page: of the nodes that get the ID, the first. -/
def standing? (path wrapper : String) (code : Fragment) (id : String) : Option Node :=
  code.nodes.find? fun n => n.id != wrapper && pageId path wrapper n.id == id

theorem node?_unwrap (path wrapper : String) (code : Fragment) (id : String) :
    (unwrap path wrapper code).node? id =
      (standing? path wrapper code id).map (unwrapNode path wrapper) := by
  have hnodes : (unwrap path wrapper code).node? id =
      (((code.nodes.filter (·.id != wrapper)).map (unwrapNode path wrapper)).foldl
        Fragment.addNode {}).node? id := by
    rw [unwrap_eq_addAll, Fragment.node?, Fragment.nodes_addAll, Fragment.node?]
  have hid : ((fun n : Node => n.id == id) ∘ unwrapNode path wrapper) =
      fun n => pageId path wrapper n.id == id := by
    funext n
    simp only [Function.comp_apply, id_unwrapNode]
  have hempty : ({} : Fragment).node? id = none := rfl
  rw [hnodes, Fragment.node?_foldl_addNode, List.find?_map, hid, List.find?_filter, hempty,
    Option.none_or, standing?]
  refine congrArg _ (congrArg (List.find? · code.nodes) (funext fun n => ?_))
  rw [Bool.decide_and, Bool.decide_eq_true, Bool.decide_eq_true]

theorem nodup_ids_unwrap (path wrapper : String) (code : Fragment) :
    (unwrap path wrapper code).ids.Nodup := by
  rw [unwrap_eq_addAll, Fragment.ids_addAll]
  exact Fragment.nodup_foldl_addNode _

theorem exists_labelled_iff {id label : String} :
    (∃ n ∈ (unwrap path wrapper code).nodes, n.id = id ∧ n.label = label) ↔
      ∃ n, standing? path wrapper code id = some n ∧
        (unwrapNode path wrapper n).label = label := by
  have hnode := node?_unwrap path wrapper code id
  constructor
  · rintro ⟨n, hn, rfl, rfl⟩
    rw [Fragment.node?_of_mem (nodup_ids_unwrap ..) hn, eq_comm, Option.map_eq_some_iff] at hnode
    obtain ⟨own, hown, rfl⟩ := hnode
    exact ⟨own, hown, rfl⟩
  · rintro ⟨own, hown, rfl⟩
    rw [hown, Option.map_some] at hnode
    obtain ⟨hmem, hid⟩ := Fragment.mem_nodes_of_node? hnode
    exact ⟨_, hmem, hid, rfl⟩

/-! ### Pages -/

/-- The analyzed code of a page in its wrapper, and the ID of the wrapper. -/
inductive IsWrapped (f : SourceFile) (tree : Option Tree) : String → Fragment → Prop where
  | csharp {bytes : List UInt8} {t : Tree} (hlanguage : language f.path f.bytes = .csharp)
      (hbytes : wrappedCSharp? f.bytes = some bytes) (htree : tree = some t) :
      IsWrapped f tree csharpWrapper (CSharp.analyze ⟨f.path, bytes⟩ t)
  | visualBasic (hlanguage : language f.path f.bytes = .visualBasic) :
      IsWrapped f tree (vbWrapper f.path) (Vb.analyze ⟨f.path, wrapVb (maskMarkup f.bytes)⟩)

variable {f : SourceFile} {tree : Option Tree} {page : Fragment}

theorem exists_isWrapped (h : analyze f tree = .ok page) :
    ∃ wrapper code, IsWrapped f tree wrapper code ∧ page = unwrap f.path wrapper code := by
  unfold analyze at h
  split at h
  case h_1 hlanguage =>
    unfold analyzeCSharp at h
    split at h
    · cases h
    · cases h
    case h_3 bytes t hbytes =>
      exact ⟨_, _, .csharp hlanguage hbytes rfl, (Except.ok.inj h).symm⟩
  case h_2 hlanguage =>
    exact ⟨_, _, .visualBasic hlanguage, (Except.ok.inj h).symm⟩

theorem IsWrapped.methodsOwned (h : IsWrapped f tree wrapper code) : code.MethodsOwned wrapper := by
  cases h with
  | csharp => exact CSharp.methodsOwned_analyze _ _ (by decide)
  | visualBasic => exact Vb.methodsOwned_analyze ⟨f.path, _⟩ (by decide)

section

variable (howned : code.MethodsOwned wrapper) {e : Edge}
  (he : e ∈ code.edgesOf Relation.hasMethod)

include howned he

theorem inside_target_iff :
    Inside wrapper e.target ↔ e.source = wrapper ∨ Inside wrapper e.source := by
  obtain ⟨name, hname⟩ := howned.member e he
  rw [hname, inside_member_iff (howned.outer e he)]

/-- Only the edges from the wrapper to its methods are dropped. -/
theorem unwrapEdge_mem (path : String) (hsource : e.source ≠ wrapper) :
    unwrapEdge path wrapper e ∈ (unwrap path wrapper code).edgesOf Relation.hasMethod := by
  obtain ⟨hmem, hrelation⟩ := mem_edgesOf.mp he
  exact mem_edgesOf.mpr
    ⟨mem_edges_unwrap.mpr ⟨e, hmem, hsource, howned.target_ne he, rfl⟩, hrelation⟩

end

/-- No two nodes of the code, other than the wrapper, get the same ID on the page. -/
def Apart (path wrapper : String) (code : Fragment) : Prop :=
  ((code.nodes.filter (·.id != wrapper)).map fun n => pageId path wrapper n.id).Nodup

instance (path wrapper : String) (code : Fragment) : Decidable (Apart path wrapper code) :=
  inferInstanceAs (Decidable (List.Nodup _))

def StandsMethod (path wrapper : String) (code : Fragment) (id : String) : Prop :=
  ∃ n, standing? path wrapper code id = some n ∧ n.label = Label.method ∧ ¬Inside wrapper n.id

theorem standing?_eq_of_apart (h : Apart path wrapper code) {n : Node} (hn : n ∈ code.nodes)
    (hne : n.id ≠ wrapper) : standing? path wrapper code (pageId path wrapper n.id) = some n := by
  obtain ⟨m, hm⟩ : ∃ m, standing? path wrapper code (pageId path wrapper n.id) = some m :=
    Option.isSome_iff_exists.mp (List.find?_isSome.mpr ⟨n, hn, by simp [hne]⟩)
  have hfound : m.id ≠ wrapper ∧ pageId path wrapper m.id = pageId path wrapper n.id := by
    simpa using List.find?_some hm
  have hmem : ∀ {k : Node}, k ∈ code.nodes → k.id ≠ wrapper →
      k ∈ code.nodes.filter (·.id != wrapper) :=
    fun hk hne => List.mem_filter.mpr ⟨hk, bne_iff_ne.mpr hne⟩
  rw [hm, List.inj_on_of_nodup_map h (hmem (List.mem_of_find?_eq_some hm) hfound.1) (hmem hn hne)
    hfound.2]

/-- The edges to methods on a page are those of the code away from the wrapper. -/
theorem methodsTyped_unwrap_iff (howned : code.MethodsOwned wrapper) :
    (unwrap path wrapper code).MethodsTyped ↔
      ∀ e ∈ code.edgesOf Relation.hasMethod, e.source ≠ wrapper →
        StandsMethod path wrapper code (pageId path wrapper e.target) := by
  have hstands : ∀ id, (∃ n ∈ (unwrap path wrapper code).nodes,
      n.id = id ∧ n.label = Label.method) ↔ StandsMethod path wrapper code id := by
    intro id
    rw [exists_labelled_iff]
    simp only [label_unwrapNode_eq_method_iff, StandsMethod]
  constructor
  · intro htyped e he hsource
    exact (hstands _).mp (htyped _ (unwrapEdge_mem howned he path hsource))
  · intro hall e he
    obtain ⟨he, hrelation⟩ := mem_edgesOf.mp he
    obtain ⟨own, hown, hsource, -, rfl⟩ := mem_edges_unwrap.mp he
    exact (hstands _).mpr (hall own (mem_edgesOf.mpr ⟨hown, hrelation⟩) hsource)

/-- Where no two nodes come together on the page, the node that stands for the target of an edge is
the target itself. -/
theorem standsMethod_iff (howned : code.MethodsOwned wrapper) (htyped : code.MethodsTyped)
    (hapart : Apart path wrapper code) {e : Edge} (he : e ∈ code.edgesOf Relation.hasMethod) :
    StandsMethod path wrapper code (pageId path wrapper e.target) ↔ ¬Inside wrapper e.target := by
  obtain ⟨n, hn, hid, hlabel⟩ := htyped e he
  have hne : n.id ≠ wrapper := hid ▸ howned.target_ne he
  have hstanding := standing?_eq_of_apart hapart hn hne
  rw [← hid, StandsMethod, hstanding]
  constructor
  · rintro ⟨m, hm, -, houtside⟩
    obtain rfl := Option.some.inj hm
    exact houtside
  · exact fun houtside => ⟨n, rfl, hlabel, houtside⟩

/-- Every page comes from code in a wrapper. Exactly the methods that are inside the wrapper by
their IDs become functions, those of types nested in it included, whose edges are kept. So all edges
to methods on the page lead to methods exactly if each edge of the code that does not start at the
wrapper leads to an ID for which a method from outside the wrapper stands. Where the code itself
has its methods labelled and no two of its nodes come together, that is the case exactly if no type
inside the wrapper has a method. -/
theorem methods_typed_iff_none_nested (h : analyze f tree = .ok page) :
    ∃ wrapper code, IsWrapped f tree wrapper code ∧ page = unwrap f.path wrapper code ∧
      (∀ n ∈ code.nodes, n.label = Label.method →
        ((unwrapNode f.path wrapper n).label = Label.function ↔ Inside wrapper n.id)) ∧
      (∀ e ∈ code.edgesOf Relation.hasMethod, Inside wrapper e.source →
        unwrapEdge f.path wrapper e ∈ page.edgesOf Relation.hasMethod ∧ Inside wrapper e.target) ∧
      (page.MethodsTyped ↔ ∀ e ∈ code.edgesOf Relation.hasMethod, e.source ≠ wrapper →
        StandsMethod f.path wrapper code (pageId f.path wrapper e.target)) ∧
      (code.MethodsTyped → Apart f.path wrapper code →
        (page.MethodsTyped ↔ ∀ e ∈ code.edgesOf Relation.hasMethod, ¬Inside wrapper e.source)) := by
  obtain ⟨wrapper, code, hwrapped, rfl⟩ := exists_isWrapped h
  have howned := hwrapped.methodsOwned
  have htyped_iff : (unwrap f.path wrapper code).MethodsTyped ↔ _ :=
    methodsTyped_unwrap_iff howned
  refine ⟨wrapper, code, hwrapped, rfl, fun n _ hlabel => ?_, fun e he hsource => ?_, htyped_iff,
    fun htyped hapart => htyped_iff.trans (forall₂_congr fun e he => ?_)⟩
  · rw [label_unwrapNode_eq_ite, hlabel, ← isSome_pageId?_iff f.path]
    cases (pageId? f.path wrapper n.id).isSome <;> decide
  · have hne : e.source ≠ wrapper := fun heq => not_inside_self wrapper (heq ▸ hsource)
    exact ⟨unwrapEdge_mem howned he f.path hne, (inside_target_iff howned he).mpr (.inr hsource)⟩
  · rw [standsMethod_iff howned htyped hapart he, inside_target_iff howned he, not_or]
    constructor
    · intro houtside hsource
      exact (houtside fun heq => not_inside_self wrapper (heq ▸ hsource)).2 hsource
    · exact fun houtside hne => ⟨hne, houtside⟩

/-- A page whose code closes the module around it before it declares a class. -/
def Sample.outerClassPage : SourceFile :=
  ⟨"p.asp", encodeText "<%\nEnd Module\nClass C\nSub A()\nEnd Sub\nEnd Class\n%>"⟩

/-- The method of a class behind the module stays a method. -/
theorem outer_class_methods_typed :
    ∃ page, analyze Sample.outerClassPage none = .ok page ∧ page.MethodsTyped ∧
      ⟨"p.asp:C", "p.asp:C:A", Relation.hasMethod⟩ ∈ page.edges ∧
      ∃ wrapper code, IsWrapped Sample.outerClassPage none wrapper code ∧
        code.MethodsTyped ∧ Apart "p.asp" wrapper code ∧
        ∀ e ∈ code.edgesOf Relation.hasMethod, ¬Inside wrapper e.source := by
  have hlanguage :
      language Sample.outerClassPage.path Sample.outerClassPage.bytes = .visualBasic := by
    decide +kernel
  have hpage : analyze Sample.outerClassPage none = .ok (analyzeVb Sample.outerClassPage) := by
    rw [analyze, hlanguage]
  have htyped : (analyzeVb Sample.outerClassPage).MethodsTyped ∧
      ⟨"p.asp:C", "p.asp:C:A", Relation.hasMethod⟩ ∈ (analyzeVb Sample.outerClassPage).edges := by
    decide +kernel
  obtain ⟨wrapper, code, hwrapped, -, -, -, -, hiff⟩ := methods_typed_iff_none_nested hpage
  have hcode : code.MethodsTyped ∧ Apart "p.asp" wrapper code := by
    cases hwrapped with
    | csharp hother => rw [hlanguage] at hother; cases hother
    | visualBasic => decide +kernel
  exact ⟨_, hpage, htyped.1, htyped.2, wrapper, code, hwrapped, hcode.1, hcode.2,
    (hiff hcode.1 hcode.2).mp htyped.1⟩

def Sample.classPage : SourceFile :=
  ⟨"p.asp", encodeText "<%\nClass C\nSub A()\nEnd Sub\nEnd Class\n%>"⟩

/-- The class keeps the edge to its method, which is labelled a function. -/
theorem nested_method_labelled_function :
    ∃ page, analyze Sample.classPage none = .ok page ∧
      page.edges = [⟨"p.asp:C", "p.asp:C:A", Relation.hasMethod⟩] ∧
      page.nodes.map (fun n => (n.id, n.label)) =
        [("p.asp:C", Label.class_), ("p.asp:C:A", Label.function)] ∧
      ¬page.MethodsTyped := by
  have hpage : analyze Sample.classPage none = .ok (analyzeVb Sample.classPage) := by
    have hlanguage : language Sample.classPage.path Sample.classPage.bytes = .visualBasic := by
      decide +kernel
    rw [analyze, hlanguage]
  exact ⟨_, hpage, by decide +kernel⟩

end Page

end CodeGraph
