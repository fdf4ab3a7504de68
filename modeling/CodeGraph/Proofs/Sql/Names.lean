import CodeGraph.Proofs.Linking.Scopes
import CodeGraph.Proofs.Sql.Fragments

/-!
Names that differ only in the case of letters. Calls are looked up in any letter case and lead to
the first routine of a name, while the node and the references of a definition belong to its name
as it is spelled there. The two meet if all definitions of the name that show in the fragment spell
it in one way.
-/

namespace CodeGraph.Sql

/-! ### Lookup -/

/-- Whether the definition is a routine, or a table or view, of that name in any letter case. -/
def Definition.named (routine : Bool) (name : String) (d : Definition) : Bool :=
  d.kind.isRoutine == routine && Text.lower d.name == Text.lower name

def Names.sort (names : Names) (routine : Bool) : SymbolTable :=
  if routine then names.routines else names.tables

section

variable {path : String} {text : List Char} {d e : Definition} {f : Fragment} {n : Node}
  {routine : Bool} {name : String}

theorem named_iff : e.named routine name = true ↔
    e.kind.isRoutine = routine ∧ Text.lower e.name = Text.lower name := by
  rw [Definition.named, Bool.and_eq_true, beq_iff_eq, beq_iff_eq]

theorem sort_add (path : String) (names : Names) (d : Definition) (routine : Bool) :
    (names.add path d).sort routine =
      if d.kind.isRoutine = routine then (names.sort routine).insert d.name (d.id path)
      else names.sort routine := by
  cases hkind : d.kind.isRoutine <;> cases routine <;> simp [Names.sort, Names.add, hkind]

theorem ignoresCase_sort_add (names : Names) (d : Definition) (routine : Bool) :
    ((names.add path d).sort routine).ignoresCase = (names.sort routine).ignoresCase := by
  rw [sort_add]
  split <;> rfl

theorem get?_sort_foldl_add (ds : List Definition) {names : Names}
    (hcase : (names.sort routine).ignoresCase = true) (name : String) :
    ((ds.foldl (Names.add path) names).sort routine).get? name =
      ((names.sort routine).get? name).or ((ds.find? (·.named routine name)).map (·.id path)) := by
  induction ds generalizing names with
  | nil => simp
  | cons d ds ih =>
      rw [List.foldl_cons, ih ((ignoresCase_sort_add names d routine).trans hcase), sort_add,
        List.find?_cons]
      by_cases hkind : d.kind.isRoutine = routine
      · rw [if_pos hkind, SymbolTable.get?_insert_ignoringCase hcase, Option.or_assoc]
        by_cases hname : Text.lower name = Text.lower d.name
        · have hnamed : d.named routine name = true := named_iff.mpr ⟨hkind, hname.symm⟩
          simp [hname, hnamed]
        · have hnamed : d.named routine name = false :=
            Bool.eq_false_iff.mpr fun h => hname (named_iff.mp h).2.symm
          simp [hname, hnamed]
      · have hnamed : d.named routine name = false :=
          Bool.eq_false_iff.mpr fun h => hkind (named_iff.mp h).1
        rw [if_neg hkind, hnamed]

/-- A name leads to the first definition that has it in any letter case. -/
theorem get?_sort_ofDefinitions (path : String) (ds : List Definition) (routine : Bool)
    (name : String) : ((Names.ofDefinitions path ds).sort routine).get? name =
      (ds.find? (·.named routine name)).map (·.id path) := by
  have hempty : (({} : Names).sort routine).get? name = none := by cases routine <;> rfl
  rw [Names.ofDefinitions, get?_sort_foldl_add ds (by cases routine <;> rfl), hempty,
    Option.none_or]

/-! ### Nodes and references -/

/-- The node with the ID of the definition is its own. -/
def Leads (path : String) (text : List Char) (d : Definition) : Prop :=
  leading? path text (d.id path) = some d

theorem id_inj (path : String) : d.id path = e.id path ↔ d.name = e.name := by
  rw [Definition.id, Definition.id, Ident.inFile, Ident.inFile, String.append_right_inj]

theorem label_of_node? (h : node? path text d = some n) :
    n.label = if d.kind.isRoutine then Label.function else Label.table := by
  unfold node? at h
  dsimp only at h
  split at h
  · obtain ⟨body, -, rfl⟩ := Option.map_eq_some_iff.mp h
    rfl
  · cases h
    rfl

theorem name?_of_node? (h : node? path text d = some n) : n.name? = some d.name := by
  have hname : (baseNode path text d).name? = some d.name := by
    rw [baseNode, Node.name?_set_of_ne (by decide), Node.name?_set_of_ne (by decide),
      Node.name?_definition]
  rw [Node.name?, get?_of_node? h (by decide) (by decide), ← Node.name?, hname]

/-- The calls and uses that come from the body of a definition. -/
def bodyEdges (path : String) (text : List Char) (d : Definition) : List Edge :=
  ((edges? path text (Names.ofDefinitions path (definitions text)) d).getD []).filter fun e =>
    e.relation == Relation.calls || e.relation == Relation.uses

theorem mem_bodyEdges (h : fragment? path text = some f) (hd : d ∈ definitions text) {e : Edge}
    (he : e ∈ bodyEdges path text d) : e ∈ f.edges ∧ e.source = d.id path := by
  obtain ⟨he, -⟩ := List.mem_filter.mp he
  obtain ⟨-, edges, -, hedges, -⟩ := exists_parts_of_fragment? h
  obtain ⟨es, -, hes⟩ : ∃ es ∈ edges, some es = edges? path text _ d :=
    List.mem_map.mp (hedges ▸ List.mem_map_of_mem hd)
  rw [← hes] at he
  exact ⟨(mem_edges_of_fragment? h).mpr ⟨d, hd, es, hes.symm, he⟩, (mem_edges? hes.symm he).1⟩

def IsNodeOf (routine : Bool) (name : String) (n : Node) : Prop :=
  n.label = (if routine then Label.function else Label.table) ∧
    ∃ own, n.name? = some own ∧ Text.lower own = Text.lower name

theorem isNodeOf_iff (h : node? path text d = some n) :
    IsNodeOf routine name n ↔ d.named routine name = true := by
  rw [IsNodeOf, label_of_node? h, name?_of_node? h, named_iff]
  have hlabel : (if d.kind.isRoutine then Label.function else Label.table) =
      (if routine then Label.function else Label.table) ↔ d.kind.isRoutine = routine := by
    cases d.kind.isRoutine <;> cases routine <;> decide
  rw [hlabel]
  simp

/-- A node of a name is that of a definition of the name that leads. -/
theorem exists_leads_of_isNodeOf (h : fragment? path text = some f) (hn : n ∈ f.nodes)
    (hof : IsNodeOf routine name n) : ∃ d ∈ definitions text, Leads path text d ∧
      d.id path = n.id ∧ d.kind.isRoutine = routine ∧ Text.lower d.name = Text.lower name := by
  obtain ⟨d, hd, hnode⟩ := exists_leading?_of_mem_nodes h hn
  have hid := id_of_leading? hd
  exact ⟨d, mem_of_leading? hd, by rw [Leads, hid, hd], hid,
    named_iff.mp ((isNodeOf_iff hnode).mp hof)⟩

theorem exists_isNodeOf_of_leads (h : fragment? path text = some f) (hd : Leads path text d)
    (hnamed : d.named routine name = true) :
    ∃ n ∈ f.nodes, n.id = d.id path ∧ IsNodeOf routine name n := by
  obtain ⟨n, hn, hid, hnode⟩ := exists_node_of_leading? h hd
  exact ⟨n, hn, hid, (isNodeOf_iff hnode).mpr hnamed⟩

/-! ### One node for each name -/

def OneNodePerName (f : Fragment) : Prop :=
  ∀ routine name, ∀ n ∈ f.nodes, ∀ m ∈ f.nodes, IsNodeOf routine name n → IsNodeOf routine name m →
    n = m

/-- What a routine refers to, it refers to from the node of its name. -/
def ReferencesMeet (path : String) (text : List Char) (f : Fragment) : Prop :=
  ∀ d ∈ definitions text, d.kind.isRoutine = true → ∀ e ∈ bodyEdges path text d, ∀ n ∈ f.nodes,
    IsNodeOf true d.name n → e.source = n.id

/-- Calls of a routine lead to the node of its name, however they spell it. -/
def CallsMeet (path : String) (text : List Char) (f : Fragment) : Prop :=
  ∀ name, ∀ n ∈ f.nodes, IsNodeOf true name n →
    (Names.ofDefinitions path (definitions text)).routines.get? name = some n.id

/-- The definition shows in the fragment: it has its node, or it is a routine that refers to
something or to which calls of its name lead. -/
def Shows (path : String) (text : List Char) (d : Definition) : Prop :=
  Leads path text d ∨ d.kind.isRoutine = true ∧
    (bodyEdges path text d ≠ [] ∨ (definitions text).find? (·.named true d.name) = some d)

/-- All definitions of one name that show spell it like the one that has the node. -/
def SpelledAlike (path : String) (text : List Char) : Prop :=
  ∀ d ∈ definitions text, Leads path text d → ∀ e ∈ definitions text, Shows path text e →
    e.named d.kind.isRoutine d.name = true → e.name = d.name

theorem find?_named_congr {ds : List Definition} {name' : String}
    (h : Text.lower name = Text.lower name') :
    ds.find? (·.named routine name) = ds.find? (·.named routine name') := by
  simp only [Definition.named, h]

namespace SpelledAlike

variable (hspelled : SpelledAlike path text) (h : fragment? path text = some f)

include hspelled h

/-- What shows of a name belongs to the node of the name. -/
theorem id_eq (hn : n ∈ f.nodes) (hof : IsNodeOf routine name n) (he : e ∈ definitions text)
    (hshows : Shows path text e) (hnamed : e.named routine name = true) : e.id path = n.id := by
  obtain ⟨d, hd, hleads, hid, hkind, hlower⟩ := exists_leads_of_isNodeOf h hn hof
  obtain ⟨hkind', hlower'⟩ := named_iff.mp hnamed
  rw [← hid, id_inj]
  exact hspelled d hd hleads e he hshows
    (named_iff.mpr ⟨hkind'.trans hkind.symm, hlower'.trans hlower.symm⟩)

theorem oneNodePerName : OneNodePerName f := by
  intro routine name n hn m hm hof hof'
  obtain ⟨e, he, hleads, hid, hnamed⟩ := exists_leads_of_isNodeOf h hm hof'
  have hsame : n.id = m.id := by
    rw [← hid]
    exact (hspelled.id_eq h hn hof he (.inl hleads) (named_iff.mpr hnamed)).symm
  have hnodup := nodup_ids_of_fragment? h
  have hfound := Fragment.node?_of_mem hnodup hn
  rw [hsame, Fragment.node?_of_mem hnodup hm] at hfound
  exact (Option.some.inj hfound).symm

theorem referencesMeet : ReferencesMeet path text f := by
  intro d hd hroutine edge hedge n hn hof
  rw [(mem_bodyEdges h hd hedge).2]
  exact hspelled.id_eq h hn hof hd (.inr ⟨hroutine, .inl (List.ne_nil_of_mem hedge)⟩)
    (named_iff.mpr ⟨hroutine, rfl⟩)

theorem callsMeet : CallsMeet path text f := by
  intro name n hn hof
  obtain ⟨d, hd, -, -, hnamed⟩ := exists_leads_of_isNodeOf h hn hof
  obtain ⟨first, hfirst⟩ := Option.isSome_iff_exists.mp
    (List.find?_isSome.mpr ⟨d, hd, named_iff.mpr hnamed⟩)
  have hnamed' : first.named true name = true := List.find?_some hfirst
  obtain ⟨hroutine, hlower⟩ := named_iff.mp hnamed'
  have hid := hspelled.id_eq h hn hof (List.mem_of_find?_eq_some hfirst)
    (.inr ⟨hroutine, .inr ((find?_named_congr hlower).trans hfirst)⟩) hnamed'
  have hget := get?_sort_ofDefinitions path (definitions text) true name
  rw [hfirst, Option.map_some, hid] at hget
  exact hget

end SpelledAlike

theorem spelledAlike_of_meet (h : fragment? path text = some f) (hone : OneNodePerName f)
    (hreferences : ReferencesMeet path text f) (hcalls : CallsMeet path text f) :
    SpelledAlike path text := by
  intro d hd hleads e he hshows hnamed
  obtain ⟨n, hn, hid, hof⟩ :=
    exists_isNodeOf_of_leads h hleads (named_iff.mpr ⟨rfl, (named_iff.mp hnamed).2.symm⟩)
  rw [← id_inj path, ← hid]
  rcases hshows with hleads' | ⟨hroutine, hshows⟩
  · obtain ⟨m, hm, hid', hof'⟩ := exists_isNodeOf_of_leads h hleads'
      (named_iff.mpr ⟨(named_iff.mp hnamed).1, rfl⟩)
    rw [← hid', hone _ _ n hn m hm hof hof']
  · rw [← (named_iff.mp hnamed).1, hroutine] at hof
    rcases hshows with hedges | hfirst
    · obtain ⟨edge, hedge⟩ := List.exists_mem_of_ne_nil _ hedges
      rw [← (mem_bodyEdges h he hedge).2]
      exact hreferences e he hroutine edge hedge n hn hof
    · have hget := get?_sort_ofDefinitions path (definitions text) true e.name
      rw [hfirst] at hget
      exact Option.some.inj (hget.symm.trans (hcalls e.name n hn hof))

/-- Calls are looked up in any letter case and lead to the first routine of the name, if there is
one, and the references of a definition belong to the ID of its own spelling. So each name has one
node, from which all its routines refer to what they refer to and to which all calls of the name
lead, exactly if all definitions of the name that show in the fragment spell it like the one that
has the node. -/
theorem names_meet_iff_spelled_alike {file : SourceFile} (h : analyze file = .ok f) :
    let text := maskedText file.bytes
    let names := Names.ofDefinitions file.path (definitions text)
    (∀ routine name, (names.sort routine).get? name =
      ((definitions text).find? (·.named routine name)).map (·.id file.path)) ∧
    (∀ d ∈ definitions text, ∀ e ∈ bodyEdges file.path text d,
      e ∈ f.edges ∧ e.source = d.id file.path) ∧
    (OneNodePerName f ∧ ReferencesMeet file.path text f ∧ CallsMeet file.path text f ↔
      SpelledAlike file.path text) := by
  rw [analyze_eq_ok_iff] at h
  refine ⟨get?_sort_ofDefinitions file.path _, fun d hd e he => mem_bodyEdges h hd he, ?_, ?_⟩
  · rintro ⟨hone, hreferences, hcalls⟩
    exact spelledAlike_of_meet h hone hreferences hcalls
  · intro hspelled
    exact ⟨hspelled.oneNodePerName h, hspelled.referencesMeet h, hspelled.callsMeet h⟩

def Sample.alteredProcedure : SourceFile :=
  ⟨"t.sql", Utf8.encode "CREATE PROC Foo AS EXEC Bar\nGO\nALTER PROC Foo AS EXEC Baz\n".toList⟩

/-- Both definitions refer to what they refer to from the one node. -/
theorem altered_procedure_has_one_node :
    ∃ f, analyze Sample.alteredProcedure = .ok f ∧ f.ids = ["t.sql:Foo"] ∧
      f.edges = [⟨"t.sql:Foo", "UNKNOWN:Bar", Relation.calls⟩,
        ⟨"t.sql:Foo", "UNKNOWN:Baz", Relation.calls⟩] ∧ OneNodePerName f := by
  have hparts : (fragment? "t.sql" (maskedText Sample.alteredProcedure.bytes)).map
      (fun f => (f.ids, f.edges)) =
        some (["t.sql:Foo"], [⟨"t.sql:Foo", "UNKNOWN:Bar", Relation.calls⟩,
          ⟨"t.sql:Foo", "UNKNOWN:Baz", Relation.calls⟩]) := by decide +kernel
  have hspelled : SpelledAlike "t.sql" (maskedText Sample.alteredProcedure.bytes) := by
    have halike : ∀ d ∈ definitions (maskedText Sample.alteredProcedure.bytes),
        ∀ e ∈ definitions (maskedText Sample.alteredProcedure.bytes), e.name = d.name := by
      decide +kernel
    exact fun d hd _ e he _ _ => halike d hd e he
  obtain ⟨f, hf, hparts⟩ := Option.map_eq_some_iff.mp hparts
  obtain ⟨hids, hedges⟩ := Prod.mk.inj hparts
  have hok : analyze Sample.alteredProcedure = .ok f := analyze_eq_ok_iff.mpr hf
  exact ⟨f, hok, hids, hedges, ((names_meet_iff_spelled_alike hok).2.2.mpr hspelled).1⟩

def Sample.respelledProcedure : SourceFile :=
  ⟨"t.sql", Utf8.encode "CREATE PROC Foo AS EXEC Bar\nGO\nALTER PROC foo AS EXEC Baz\n".toList⟩

/-- Each spelling gets a node of its own, with the calls of its definition. -/
theorem respelled_procedure_has_two_nodes :
    ∃ f, analyze Sample.respelledProcedure = .ok f ∧
      f.nodes.map (fun n => (n.id, n.label, n.name?)) =
        [("t.sql:Foo", Label.function, some "Foo"), ("t.sql:foo", Label.function, some "foo")] ∧
      f.edges = [⟨"t.sql:Foo", "UNKNOWN:Bar", Relation.calls⟩,
        ⟨"t.sql:foo", "UNKNOWN:Baz", Relation.calls⟩] ∧ ¬OneNodePerName f := by
  have hparts : (fragment? "t.sql" (maskedText Sample.respelledProcedure.bytes)).map
      (fun f => (f.nodes.map (fun n => (n.id, n.label, n.name?)), f.edges)) =
        some ([("t.sql:Foo", Label.function, some "Foo"),
            ("t.sql:foo", Label.function, some "foo")],
          [⟨"t.sql:Foo", "UNKNOWN:Bar", Relation.calls⟩,
            ⟨"t.sql:foo", "UNKNOWN:Baz", Relation.calls⟩]) := by decide +kernel
  obtain ⟨f, hf, hparts⟩ := Option.map_eq_some_iff.mp hparts
  obtain ⟨hnodes, hedges⟩ := Prod.mk.inj hparts
  refine ⟨f, analyze_eq_ok_iff.mpr hf, hnodes, hedges, fun hone => ?_⟩
  have hof (id name : String) (hlower : Text.lower name = "foo")
      (hmem : (id, Label.function, some name) ∈ f.nodes.map fun n => (n.id, n.label, n.name?)) :
      ∃ n ∈ f.nodes, n.id = id ∧ IsNodeOf true "foo" n := by
    obtain ⟨n, hn, hparts⟩ := List.mem_map.mp hmem
    obtain ⟨hid, hlabel, hname⟩ : n.id = id ∧ n.label = Label.function ∧ n.name? = some name := by
      simpa using hparts
    exact ⟨n, hn, hid, hlabel, name, hname, hlower.trans (by decide)⟩
  obtain ⟨n, hn, hid, hnamed⟩ := hof "t.sql:Foo" "Foo" (by decide) (by simp [hnodes])
  obtain ⟨m, hm, hid', hnamed'⟩ := hof "t.sql:foo" "foo" (by decide) (by simp [hnodes])
  rw [hone true "foo" n hn m hm hnamed hnamed', hid'] at hid
  exact absurd hid (by decide)

end

end CodeGraph.Sql
