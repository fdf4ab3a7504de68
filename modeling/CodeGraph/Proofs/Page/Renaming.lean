import CodeGraph.Proofs.Graph.Occurrences
import CodeGraph.Proofs.Page.Lines

/-!
Unwrapping as a renaming of the graph. Whatever the fragment, the nodes and edges of the page are
those of the wrapped code away from the wrapper, with one renaming applied to the IDs of nodes and
to both ends of edges; of what becomes equal the first is kept. So an end of an edge that has its
node keeps it, and no edge between two such nodes is lost.
-/

namespace CodeGraph

theorem Text.stripStart?_eq_some {lead s rest : String} :
    Text.stripStart? lead s = some rest ↔ s = lead ++ rest := by
  rw [Text.stripStart?, Option.map_eq_some_iff]
  simp only [Seq.stripStart?_eq_some]
  constructor
  · rintro ⟨chars, hs, rfl⟩
    exact String.toList_inj.mp (by rw [hs, String.toList_append, String.toList_ofList])
  · rintro rfl
    exact ⟨rest.toList, String.toList_append, String.ofList_toList⟩

namespace Page

variable {path wrapper id : String}

/-! ### IDs -/

/-- The renaming of a page: a member of the wrapper and a type nested in it belong to the page, and
everything else keeps its ID, also where the ID only begins like that of the wrapper. -/
structure IsPageRenaming (path wrapper : String) (rename : String → String) : Prop where
  member : ∀ name, rename (wrapper ++ ":" ++ name) = Ident.inFile path name
  nested : ∀ name, rename (wrapper ++ "." ++ name) = Ident.inFile path name
  other : ∀ id, (∀ name, id ≠ wrapper ++ ":" ++ name ∧ id ≠ wrapper ++ "." ++ name) →
    rename id = id

theorem colon_append_ne_dot_append (s t : String) : ":" ++ s ≠ "." ++ t := by
  intro h
  have hhead := congrArg (fun u => u.toList.head?) h
  simp [String.toList_append] at hhead

theorem pageId?_member (name : String) :
    pageId? path wrapper (wrapper ++ ":" ++ name) = some (Ident.inFile path name) := by
  have hwrapper : Text.stripStart? wrapper (wrapper ++ ":" ++ name) = some (":" ++ name) :=
    Text.stripStart?_eq_some.mpr (String.append_assoc ..)
  have hcolon : Text.stripStart? ":" (":" ++ name) = some name :=
    Text.stripStart?_eq_some.mpr rfl
  rw [pageId?, hwrapper]
  dsimp only
  rw [hcolon]
  rfl

theorem pageId?_nested (name : String) :
    pageId? path wrapper (wrapper ++ "." ++ name) = some (Ident.inFile path name) := by
  have hwrapper : Text.stripStart? wrapper (wrapper ++ "." ++ name) = some ("." ++ name) :=
    Text.stripStart?_eq_some.mpr (String.append_assoc ..)
  have hcolon : Text.stripStart? ":" ("." ++ name) = none := by
    rw [Option.eq_none_iff_forall_ne_some]
    intro rest hrest
    exact colon_append_ne_dot_append rest name (Text.stripStart?_eq_some.mp hrest).symm
  have hdot : Text.stripStart? "." ("." ++ name) = some name :=
    Text.stripStart?_eq_some.mpr rfl
  rw [pageId?, hwrapper]
  dsimp only
  rw [hcolon, hdot]
  rfl

/-- Only a name behind the wrapper and one of the two marks is renamed. -/
theorem exists_name_of_pageId?_eq_some {id' : String} (h : pageId? path wrapper id = some id') :
    ∃ name, id = wrapper ++ ":" ++ name ∨ id = wrapper ++ "." ++ name := by
  unfold pageId? at h
  split at h
  case h_1 => cases h
  case h_2 rest hrest =>
    obtain ⟨name, hname, -⟩ := Option.map_eq_some_iff.mp h
    have hid := Text.stripStart?_eq_some.mp hrest
    refine ⟨name, ?_⟩
    rcases Option.or_eq_some_iff.mp hname with hname | ⟨-, hname⟩
    · exact .inl (by rw [hid, Text.stripStart?_eq_some.mp hname, String.append_assoc])
    · exact .inr (by rw [hid, Text.stripStart?_eq_some.mp hname, String.append_assoc])

theorem isPageRenaming_pageId (path wrapper : String) :
    IsPageRenaming path wrapper (pageId path wrapper) where
  member name := by rw [pageId, pageId?_member, Option.getD_some]
  nested name := by rw [pageId, pageId?_nested, Option.getD_some]
  other id h := by
    rw [pageId]
    cases hid : pageId? path wrapper id with
    | none => rfl
    | some id' =>
        obtain ⟨name, hname | hname⟩ := exists_name_of_pageId?_eq_some hid
        · exact absurd hname (h name).1
        · exact absurd hname (h name).2

/-- The renaming is the only one of its kind. -/
theorem IsPageRenaming.eq_pageId {rename : String → String}
    (h : IsPageRenaming path wrapper rename) : rename = pageId path wrapper := by
  have hpage := isPageRenaming_pageId path wrapper
  funext id
  by_cases howned : ∃ name, id = wrapper ++ ":" ++ name ∨ id = wrapper ++ "." ++ name
  · obtain ⟨name, rfl | rfl⟩ := howned
    · rw [h.member, hpage.member]
    · rw [h.nested, hpage.nested]
  · push Not at howned
    rw [h.other id howned, hpage.other id howned]

/-! ### Nodes and edges -/

theorem nodes_unwrap (path wrapper : String) (f : Fragment) :
    (unwrap path wrapper f).nodes =
      ((f.nodes.filter (·.id != wrapper)).map (unwrapNode path wrapper)).eraseDupsBy
        Fragment.sameId := by
  rw [unwrap_eq_addAll, Fragment.nodes_addAll, Fragment.nodes_foldl_addNode]

theorem edges_unwrap (path wrapper : String) (f : Fragment) :
    (unwrap path wrapper f).edges =
      ((f.edges.filter fun e => e.source != wrapper && e.target != wrapper).map
        (unwrapEdge path wrapper)).eraseDups := by
  rw [unwrap_eq_addAll, Fragment.edges_addAll (Fragment.edges_foldl_addNode ..)]

/-- The fragment of a page under the renaming `rename`: its edges are the edges away from the
wrapper with both ends renamed, each once and in order of first occurrence; its nodes are the nodes
other than the wrapper under their new IDs, of each ID the first, in order, and only their lines
differ. If one end of the edges of some relation always has its node, it has it on the page, and an
edge between two nodes other than the wrapper is there with both of them. -/
theorem unwrap_renames {rename : String → String} (h : IsPageRenaming path wrapper rename)
    (f : Fragment) :
    let page := unwrap path wrapper f
    page.edges = ((f.edges.filter fun e => e.source != wrapper && e.target != wrapper).map
        fun e => ⟨rename e.source, rename e.target, e.relation⟩).eraseDups ∧
      page.nodes = ((f.nodes.filter (·.id != wrapper)).map (unwrapNode path wrapper)).eraseDupsBy
        Fragment.sameId ∧
      (∀ n : Node, (unwrapNode path wrapper n).id = rename n.id ∧
        ∀ key, key ≠ Key.line → key ≠ Key.endLine →
          (unwrapNode path wrapper n).get? key = n.get? key) ∧
      (∀ relation, (∀ e ∈ f.edges, e.relation = relation → e.source ∈ f.ids) →
        ∀ e ∈ page.edges, e.relation = relation → e.source ∈ page.ids) ∧
      (∀ relation, (∀ e ∈ f.edges, e.relation = relation → e.target ∈ f.ids) →
        ∀ e ∈ page.edges, e.relation = relation → e.target ∈ page.ids) ∧
      ∀ e ∈ f.edges, e.source ∈ f.ids → e.target ∈ f.ids →
        e.source ≠ wrapper → e.target ≠ wrapper →
          ⟨rename e.source, rename e.target, e.relation⟩ ∈ page.edges ∧
            rename e.source ∈ page.ids ∧ rename e.target ∈ page.ids := by
  obtain rfl := h.eq_pageId
  have hid : ∀ {own : String}, own ∈ f.ids → own ≠ wrapper →
      pageId path wrapper own ∈ (unwrap path wrapper f).ids :=
    fun hown hne => mem_ids_unwrap.mpr ⟨_, hown, hne, rfl⟩
  refine ⟨edges_unwrap path wrapper f, nodes_unwrap path wrapper f, fun n => ?_, ?_, ?_, ?_⟩
  · exact ⟨id_unwrapNode path wrapper n, fun key hline hendLine =>
      get?_unwrapNode hline hendLine path wrapper n⟩
  · intro relation hsources e he hrelation
    obtain ⟨own, hown, hsource, -, rfl⟩ := mem_edges_unwrap.mp he
    exact hid (hsources own hown hrelation) hsource
  · intro relation htargets e he hrelation
    obtain ⟨own, hown, -, htarget, rfl⟩ := mem_edges_unwrap.mp he
    exact hid (htargets own hown hrelation) htarget
  · intro e he hsource htarget hne hne'
    exact ⟨mem_edges_unwrap.mpr ⟨e, he, hne, hne', rfl⟩, hid hsource hne, hid htarget hne'⟩

/-- Code in a wrapper `W`: a method and a nested type of one name, which the page does not tell
apart, and a type whose name only begins like that of the wrapper. -/
def Sample.wrapped : Fragment where
  nodes := [.definition "W" Label.class_ "W" "p" 1, .definition "W:a" Label.method "a" "p" 2,
    .definition "W.a" Label.class_ "a" "p" 5, .definition "W2:b" Label.method "b" "p" 1]
  edges := [⟨"W", "W:a", Relation.hasMethod⟩, ⟨"W:a", "W2:b", Relation.calls⟩,
    ⟨"W.a", "W2:b", Relation.calls⟩, ⟨"W2:b", "UNKNOWN:c", Relation.calls⟩]

theorem Sample.wrapped_renames :
    (unwrap "p" "W" wrapped).ids = ["p:a", "W2:b"] ∧
      (unwrap "p" "W" wrapped).edges =
        [⟨"p:a", "W2:b", Relation.calls⟩, ⟨"W2:b", "UNKNOWN:c", Relation.calls⟩] ∧
      (unwrap "p" "W" wrapped).nodes.map Node.line? = [some 1, some 1] ∧
      (∀ e ∈ (unwrap "p" "W" wrapped).edges, e.relation = Relation.calls →
        e.source ∈ (unwrap "p" "W" wrapped).ids) ∧
      ⟨pageId "p" "W" "W.a", pageId "p" "W" "W2:b", Relation.calls⟩ ∈
        (unwrap "p" "W" wrapped).edges := by
  obtain ⟨-, -, -, hsources, -, hkept⟩ := unwrap_renames (isPageRenaming_pageId "p" "W") wrapped
  refine ⟨by decide +kernel, by decide +kernel, by decide +kernel, ?_, ?_⟩
  · exact hsources Relation.calls (by decide)
  · exact (hkept ⟨"W.a", "W2:b", Relation.calls⟩ (by decide) (by decide) (by decide) (by decide)
      (by decide)).1

end Page

end CodeGraph
