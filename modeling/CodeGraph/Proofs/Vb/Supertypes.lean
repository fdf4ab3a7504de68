import CodeGraph.Proofs.Linking.Scopes
import CodeGraph.Proofs.Text.Preference
import CodeGraph.Proofs.Vb.Repetition
import CodeGraph.Proofs.Vb.Rooting

/-!
Supertypes of a Visual Basic file. All names of a file go to one table, in which the first
declaration of a name counts, whether it is that of a type or of a routine and in whatever letter
case the name is written. A clause that names a supertype leads to the node of that declaration, so
supertypes are types exactly if the first declaration of each name that is named is one.
-/

namespace CodeGraph.Vb

/-! ### Names -/

/-- Whether a character sets off the parts of an ID. -/
def isMark (c : Char) : Bool :=
  c == '.' || c == ':'

def Plain (name : String) : Prop :=
  ∀ c ∈ name.toList, isMark c = false

theorem plain_of_avoids {p : Pattern} (hp : p.avoids '.' = true ∧ p.avoids ':' = true)
    {line : List Char} {m : Pattern.Match} {g : Pattern.Group} {index : Nat}
    (hm : shapeOf? p line = some m) (hg : m.group? index = some g) : Plain g.string := by
  have hdot := Pattern.not_mem_chars_of_avoids hp.1 (by decide) hm hg
  have hcolon := Pattern.not_mem_chars_of_avoids hp.2 (by decide) hm hg
  intro c hc
  have hchars : c ∈ g.chars := by rwa [Pattern.Group.string, String.toList_ofList] at hc
  refine Bool.eq_false_iff.mpr fun hmark => ?_
  rcases (Bool.or_eq_true _ _).mp hmark with h | h
  · exact hdot (beq_iff_eq.mp h ▸ hchars)
  · exact hcolon (beq_iff_eq.mp h ▸ hchars)

theorem plain_of_typeStart {line : List Char} {keyword name : String}
    (h : Reading.outside line = .typeStart keyword name) : Plain name := by
  unfold Reading.outside at h
  split at h
  case h_1 m hm =>
    split at h
    case h_1 hname =>
      cases h
      exact plain_of_avoids (by decide) hm hname
    case h_2 => cases h
  case h_2 =>
    split at h
    · cases h
    · split at h <;> split at h <;> cases h

theorem plain_of_routineStart {line : List Char} {name : String}
    (h : Reading.outside line = .routineStart name) : Plain name := by
  unfold Reading.outside at h
  split at h
  case h_1 => split at h <;> cases h
  case h_2 =>
    split at h
    · cases h
    · split at h
      · split at h <;> cases h
      · split at h
        case h_1 hname =>
          cases h
          obtain ⟨m, hm, hg⟩ := Option.bind_eq_some_iff.mp hname
          exact plain_of_avoids (by decide) hm hg
        case h_2 => cases h

/-- A declaration under a name: the name is plain and ends the ID. -/
structure Declared.Names (d : Declared) (name : String) : Prop where
  name? : d.node.name? = some name
  plain : Plain name
  tail : Seq.lastPiece isMark d.node.id.toList = name.toList

def Declared.named (name : String) (d : Declared) : Bool :=
  d.node.name?.map Text.lower == some (Text.lower name)

theorem Declared.Names.named_iff {d : Declared} {own name : String} (h : d.Names own) :
    d.named name = true ↔ Text.lower own = Text.lower name := by
  rw [Declared.named, h.name?]
  simp

/-- Declarations with one ID have one name. -/
theorem Declared.Names.eq_of_id_eq {d d' : Declared} {name name' : String} (h : d.Names name)
    (h' : d'.Names name') (hid : d.node.id = d'.node.id) : name = name' := by
  rw [← String.toList_inj, ← h.tail, hid, h'.tail]

namespace Blocks

variable {b : Blocks} {index : Nat} {raw : List Char} {rest : List (List Char)} {d : Declared}
  {name : String}

theorem lastPiece_mark {c : Char} (hc : isMark c = true) (h : Plain name) (owner : List Char) :
    Seq.lastPiece isMark (owner ++ c :: name.toList) = name.toList := by
  rw [Seq.lastPiece_append_cons hc, Seq.lastPiece_of_not_sep h]

theorem lastPiece_typeId (b : Blocks) (h : Plain name) :
    Seq.lastPiece isMark (b.typeId name).toList = name.toList := by
  unfold typeId
  split
  · rw [String.toList_append, String.toList_append, List.append_assoc]
    exact lastPiece_mark (c := '.') rfl h _
  · rw [Ident.inFile, String.toList_append, String.toList_append, List.append_assoc]
    exact lastPiece_mark (c := ':') rfl h _

theorem lastPiece_routineId (b : Blocks) (h : Plain name) :
    Seq.lastPiece isMark (b.routineId name).toList = name.toList := by
  unfold routineId
  split
  · rw [Ident.member, String.toList_append, String.toList_append, List.append_assoc]
    exact lastPiece_mark (c := ':') rfl h _
  · rw [Ident.inFile, String.toList_append, String.toList_append, List.append_assoc]
    exact lastPiece_mark (c := ':') rfl h _

theorem names_typeNode {keyword : String} (h : b.reading raw = .typeStart keyword name)
    (hd : d.node = b.typeNode index keyword name) : d.Names name := by
  have hroutine : b.routine = none := routine_eq_none h (by simp) (by simp)
  have hplain : Plain name := plain_of_typeStart (reading_of_no_routine hroutine raw ▸ h)
  refine ⟨?_, hplain, ?_⟩
  · rw [hd, typeNode, Node.name?_set_of_ne (by decide), Node.name?_definition]
  · rw [hd, id_typeNode, lastPiece_typeId b hplain]

theorem names_routineNode (h : b.reading raw = .routineStart name)
    (hd : d.node = b.routineNode index raw name) : d.Names name := by
  have hroutine : b.routine = none := routine_eq_none h (by simp) (by simp)
  have hplain : Plain name := plain_of_routineStart (reading_of_no_routine hroutine raw ▸ h)
  refine ⟨?_, hplain, ?_⟩
  · rw [hd, routineNode, Node.name?_set_of_ne (by decide), Node.name?_definition]
  · rw [hd, id_routineNode, lastPiece_routineId b hplain]

/-! ### The table of names -/

theorem symbols_openRoutine (raw line : List Char) (name : String) :
    (b.openRoutine index raw line name).symbols = b.symbols.insert name (b.routineId name) := by
  have hadded : (b.addRoutine index raw name).symbols =
      b.symbols.insert name (b.routineId name) := by
    unfold addRoutine
    dsimp only
    split <;> rfl
  unfold openRoutine
  dsimp only
  split <;> exact hadded

/-- A line binds the name that it declares, and nothing else. -/
theorem symbols_step_cases (b : Blocks) (index : Nat) (raw : List Char) (rest : List (List Char)) :
    (b.declared? index raw rest = none ∧ (b.step raw index).symbols = b.symbols) ∨
      ∃ d name, b.declared? index raw rest = some d ∧ d.Names name ∧
        (b.step raw index).symbols = b.symbols.insert name d.node.id := by
  rw [step_eq_act]
  cases hreading : b.reading raw with
  | plain => exact .inl ⟨by simp [declared?, hreading], rfl⟩
  | typeStart keyword name =>
      refine .inr ?_
      simp only [declared?, hreading]
      exact ⟨_, name, rfl, names_typeNode hreading rfl, rfl⟩
  | typeEnd =>
      refine .inl ⟨by simp [declared?, hreading], ?_⟩
      unfold act closeType
      dsimp only
      split <;> rfl
  | supertypes keyword list =>
      refine .inl ⟨by simp [declared?, hreading], ?_⟩
      unfold act addSupertypes
      dsimp only
      split <;> rfl
  | routineStart name =>
      refine .inr ?_
      simp only [declared?, hreading]
      split
      · exact ⟨_, name, rfl, names_routineNode hreading rfl, symbols_openRoutine ..⟩
      · exact ⟨_, name, rfl, names_routineNode hreading rfl, symbols_openRoutine ..⟩
  | routineEnd =>
      refine .inl ⟨by simp [declared?, hreading], ?_⟩
      unfold act endRoutine
      dsimp only
      split <;> rfl

theorem exists_names_of_mem {lines : List (List Char)}
    (h : d ∈ b.declarationsFrom index lines) : ∃ name, d.Names name := by
  obtain ⟨b', index', raw, rest, -, hd⟩ := exists_declared?_of_mem (I := fun _ _ => True)
    (fun _ _ _ _ => trivial) trivial h
  rcases symbols_step_cases b' index' raw rest with ⟨hnone, -⟩ | ⟨d', name, hd', hnames, -⟩
  · rw [hnone] at hd
    cases hd
  · rw [hd'] at hd
    cases hd
    exact ⟨name, hnames⟩

/-- In the table of a file, a name in any letter case leads to the first declaration of it. -/
theorem get?_symbols_readFrom (hcase : b.symbols.ignoresCase = true) (lines : List (List Char))
    (key : String) : (b.readFrom index lines).symbols.get? key = (b.symbols.get? key).or
      (((b.declarationsFrom index lines).find? (·.named key)).map (·.node.id)) := by
  induction lines generalizing b index with
  | nil => simp [readFrom, declarationsFrom]
  | cons raw rest ih =>
      rw [readFrom, declarationsFrom]
      rcases symbols_step_cases b index raw rest with
        ⟨hnone, hsymbols⟩ | ⟨d, name, hd, hnames, hsymbols⟩
      · rw [ih (hsymbols ▸ hcase), hsymbols, hnone]
        rfl
      · rw [ih (by rw [hsymbols]; exact hcase), hsymbols, hd,
          SymbolTable.get?_insert_ignoringCase hcase, Option.or_assoc, Option.toList_some,
          List.singleton_append, List.find?_cons]
        by_cases hname : Text.lower key = Text.lower name
        · rw [if_pos hname, hnames.named_iff.mpr hname.symm]
          rfl
        · rw [if_neg hname, Bool.eq_false_iff.mpr fun h => hname (hnames.named_iff.mp h).symm,
            Option.none_or]

/-- Closing what is open binds no name and names no supertype. -/
theorem finish_frame (b : Blocks) (count : Nat) :
    (b.finish count).symbols = b.symbols ∧ (b.finish count).supertypes = b.supertypes := by
  rw [finish_eq]
  refine List.foldlRecOn
    (motive := fun c : Blocks => c.symbols = b.symbols ∧ c.supertypes = b.supertypes) _ _ ?_
    fun _ h _ _ => h
  unfold endRoutine
  split <;> exact ⟨rfl, rfl⟩

/-! ### Clauses of lines -/

/-- The supertypes that a line names for the innermost open type. -/
def clausesOn (b : Blocks) (raw : List Char) : List Supertype :=
  match b.reading raw, b.types.head? with
  | .supertypes keyword list, some t =>
      (((Text.splitOn (· == ',') list).map Text.trim).filter (· != "")).map fun base =>
        ⟨t.id, base, supertypeRelation keyword t.isInterface⟩
  | _, _ => []

def clausesFrom (b : Blocks) (index : Nat) : List (List Char) → List Supertype
  | [] => []
  | raw :: rest => b.clausesOn raw ++ (b.step raw index).clausesFrom (index + 1) rest

theorem supertypes_step (b : Blocks) (index : Nat) (raw : List Char) :
    (b.step raw index).supertypes = b.supertypes ++ b.clausesOn raw := by
  rw [step_eq_act]
  cases hreading : b.reading raw with
  | plain => simp [clausesOn, hreading, act]
  | typeStart keyword name => simp [clausesOn, hreading, act, openType]
  | typeEnd =>
      simp only [clausesOn, hreading, act, closeType, List.append_nil]
      split <;> rfl
  | supertypes keyword list =>
      simp only [clausesOn, hreading, act, addSupertypes]
      cases b.types.head? with
      | none => exact (List.append_nil _).symm
      | some t => rfl
  | routineStart name =>
      simp only [clausesOn, hreading, act, openRoutine, List.append_nil]
      split <;> exact supertypes_addRoutine ..
  | routineEnd =>
      simp only [clausesOn, hreading, act, endRoutine, List.append_nil]
      split <;> rfl

theorem supertypes_readFrom (b : Blocks) (index : Nat) (lines : List (List Char)) :
    (b.readFrom index lines).supertypes = b.supertypes ++ b.clausesFrom index lines := by
  induction lines generalizing b index with
  | nil => exact (List.append_nil _).symm
  | cons raw rest ih => rw [readFrom, ih, supertypes_step, clausesFrom, List.append_assoc]

/-- All clauses are linked by the same table. -/
theorem mem_edges_foldl_linkSupertype (b : Blocks) (clauses : List Supertype) {e : Edge} :
    e ∈ (clauses.foldl linkSupertype b).fragment.edges ↔ e ∈ b.fragment.edges ∨
      ∃ s ∈ clauses,
        e = ⟨s.type, (b.symbols.get? s.base).getD (Ident.unresolved s.base), s.relation⟩ := by
  induction clauses generalizing b with
  | nil => simp
  | cons s clauses ih =>
      have hsymbols : (b.linkSupertype s).symbols = b.symbols := rfl
      rw [List.foldl_cons, ih, hsymbols, linkSupertype, Fragment.mem_edges_addEdge, or_assoc,
        List.exists_mem_cons_iff]

end Blocks

/-! ### Clauses -/

def declarations (f : SourceFile) : List Declared :=
  Blocks.declarationsFrom { path := f.path } 0 (Chars.lines (Utf8.lossy f.bytes))

def clauses (f : SourceFile) : List Supertype :=
  Blocks.clausesFrom { path := f.path } 0 (Chars.lines (Utf8.lossy f.bytes))

theorem supertypes_scanned (f : SourceFile) :
    (Blocks.scanned f.path (Chars.lines (Utf8.lossy f.bytes))).supertypes = clauses f := by
  rw [Blocks.scanned, (Blocks.finish_frame _ _).2, Blocks.supertypes_readFrom]
  rfl

/-- The first declaration of a name in any letter case. -/
def declaration? (f : SourceFile) (name : String) : Option Declared :=
  (declarations f).find? (·.named name)

def supertypeTarget (f : SourceFile) (base : String) : String :=
  ((declaration? f base).map (·.node.id)).getD (Ident.unresolved base)

theorem supertypeTarget_eq (f : SourceFile) (base : String) :
    ((Blocks.scanned f.path (Chars.lines (Utf8.lossy f.bytes))).symbols.get? base).getD
      (Ident.unresolved base) = supertypeTarget f base := by
  have hempty : ({ path := f.path } : Blocks).symbols.get? base = none := rfl
  rw [Blocks.scanned, (Blocks.finish_frame _ _).1, Blocks.get?_symbols_readFrom rfl, hempty,
    Option.none_or]
  rfl

/-- The edges to supertypes are those of the clauses. -/
theorem mem_supertyping_iff {f : SourceFile} {e : Edge} :
    e ∈ (analyze f).edges ∧ e.relation ∈ Relation.supertyping ↔
      ∃ s ∈ clauses f, e = ⟨s.type, supertypeTarget f s.base, s.relation⟩ := by
  have hedges : e ∈ (analyze f).edges ↔ _ := Blocks.mem_edges_foldl_linkCalls
    (Blocks.ofLines f.path (Chars.lines (Utf8.lossy f.bytes))) (Chars.lines (Utf8.lossy f.bytes)) _
  rw [hedges, Blocks.ofLines_eq, Blocks.mem_edges_foldl_linkSupertype]
  simp only [supertypeTarget_eq, supertypes_scanned]
  constructor
  · rintro ⟨(he | hclause) | ⟨r, -, line, -, c, -, rfl⟩, hrelation⟩
    · rw [Blocks.relation_of_mem_edges_scanned he] at hrelation
      exact absurd hrelation (by decide)
    · exact hclause
    · have hcalls : Relation.calls ∉ Relation.supertyping := by decide
      exact absurd hrelation hcalls
  · rintro ⟨s, hs, rfl⟩
    have hclosed := Blocks.closed_scanned f.path (Chars.lines (Utf8.lossy f.bytes))
    exact ⟨.inl (.inr ⟨s, hs, rfl⟩), hclosed.supertypes s (supertypes_scanned f ▸ hs)⟩

/-! ### Nodes -/

def IsType (label : String) : Prop :=
  label = Label.class_ ∨ label = Label.interface

instance (label : String) : Decidable (IsType label) :=
  inferInstanceAs (Decidable (_ ∨ _))

/-- The first declaration of a name is also the first one with its ID. -/
theorem find?_id_of_declaration? {f : SourceFile} {name : String} {d : Declared}
    (h : declaration? f name = some d) :
    (declarations f).find? (·.node.id == d.node.id) = some d := by
  obtain ⟨own, hown⟩ := Blocks.exists_names_of_mem (List.mem_of_find?_eq_some h)
  obtain ⟨hnamed, before, after, hsplit, hbefore⟩ := List.find?_eq_some_iff_append.mp h
  refine List.find?_eq_some_iff_append.mpr ⟨by simp, before, after, hsplit, fun a ha => ?_⟩
  have hmem : a ∈ declarations f := by
    rw [hsplit]
    exact List.mem_append_left _ ha
  obtain ⟨other, hother⟩ := Blocks.exists_names_of_mem hmem
  have hnot : a.named name = false := by simpa using hbefore a ha
  rw [Bool.not_eq_true', beq_eq_false_iff_ne]
  -- A declaration with the same ID would have the same name and be found before.
  intro hid
  obtain rfl := hother.eq_of_id_eq hown hid
  rw [hother.named_iff.mpr (hown.named_iff.mp hnamed)] at hnot
  cases hnot

/-- The node with the ID of the first declaration of a name is that of the declaration. -/
theorem exists_node?_of_declaration? {f : SourceFile} {name : String} {d : Declared}
    (h : declaration? f name = some d) :
    ∃ n, (analyze f).node? d.node.id = some n ∧ n.label = d.node.label := by
  have hfirst := find?_id_of_declaration? h
  rw [declarations, ← List.head?_filter] at hfirst
  have hnode := Blocks.node?_fragmentOf f.path (Chars.lines (Utf8.lossy f.bytes)) d.node.id
  rw [Blocks.declaredAs, hfirst, Option.map_some] at hnode
  exact ⟨_, hnode, Declared.label_recorded⟩

def SupertypesAreTypes (g : Fragment) : Prop :=
  ∀ e ∈ g.edges, e.relation ∈ Relation.supertyping → ∀ n ∈ g.nodes, n.id = e.target →
    IsType n.label

/-- The clause names something whose first declaration is a type. If the file declares nothing of
the name, no node but that of a type has the ID that stands for the unknown name. -/
def NamesType (f : SourceFile) (s : Supertype) : Prop :=
  match declaration? f s.base with
  | some d => IsType d.node.label
  | none => ∀ n ∈ (analyze f).nodes, n.id = Ident.unresolved s.base → IsType n.label

theorem namesType_iff {f : SourceFile} {s : Supertype} :
    NamesType f s ↔
      ∀ n ∈ (analyze f).nodes, n.id = supertypeTarget f s.base → IsType n.label := by
  cases h : declaration? f s.base with
  | none => simp [NamesType, supertypeTarget, h]
  | some d =>
      obtain ⟨own, hown, hlabel⟩ := exists_node?_of_declaration? h
      obtain ⟨hmem, hid⟩ := Fragment.mem_nodes_of_node? hown
      have htarget : supertypeTarget f s.base = d.node.id := by simp [supertypeTarget, h]
      simp only [NamesType, h, htarget, ← hlabel]
      constructor
      · intro htype n hn hid
        have hfound := Fragment.node?_of_mem (Blocks.nodup_ids_fragmentOf _ _) hn
        rw [hid, ← analyze, hown] at hfound
        obtain rfl := Option.some.inj hfound
        exact htype
      · exact fun hall => hall own hmem hid

/-- An ID of the file is none of an unknown name, unless the path of the file makes it one. -/
theorem isUnresolved_of_inFile {path base : String}
    (h : ∃ rest, Ident.unresolved base = Ident.inFile path rest) :
    Ident.isUnresolved (path ++ ":") = true := by
  obtain ⟨rest, hrest⟩ := h
  have hlists : ("UNKNOWN:".toList ++ base.toList) = (path ++ ":").toList ++ rest.toList := by
    rw [← String.toList_append, ← String.toList_append]
    exact congrArg String.toList hrest
  refine Seq.startsWith_iff.mpr ?_
  show "UNKNOWN:".toList <+: (path ++ ":").toList
  rcases List.append_eq_append_iff.mp hlists with ⟨more, hmore, -⟩ | ⟨more, hmore, -⟩
  · exact ⟨more, hmore.symm⟩
  · rcases List.eq_nil_or_concat more with rfl | ⟨most, c, rfl⟩
    · rw [hmore, List.append_nil]
    · -- A shorter path would end with the mark inside the word.
      have hword : "UNKNOWN".toList ++ [':'] = (path.toList ++ ':' :: most) ++ [c] := by
        simpa [String.toList_append] using hmore
      have hmark : ':' ∈ "UNKNOWN".toList := by
        rw [(List.append_inj' hword rfl).1]
        simp
      exact absurd hmark (by decide)

theorem inFile_of_mem_analyze {f : SourceFile} {n : Node} (hn : n ∈ (analyze f).nodes) :
    ∃ rest, n.id = Ident.inFile f.path rest := by
  have hfound := Fragment.node?_of_mem (Blocks.nodup_ids_fragmentOf _ _) hn
  rw [Blocks.node?_fragmentOf] at hfound
  obtain ⟨first, hfirst, -⟩ := Option.map_eq_some_iff.mp hfound
  obtain ⟨hd, hid⟩ := List.mem_filter.mp (List.mem_of_head? hfirst)
  rw [← beq_iff_eq.mp hid]
  exact (Blocks.Rooted.start f.path).declarationsFrom hd

theorem supertypesAreTypes_iff (f : SourceFile) :
    SupertypesAreTypes (analyze f) ↔ ∀ s ∈ clauses f, NamesType f s := by
  constructor
  · intro hall s hs
    obtain ⟨he, hrelation⟩ := mem_supertyping_iff.mpr ⟨s, hs, rfl⟩
    exact namesType_iff.mpr (hall _ he hrelation)
  · intro hall e he hrelation n hn hid
    obtain ⟨s, hs, rfl⟩ := mem_supertyping_iff.mp ⟨he, hrelation⟩
    exact namesType_iff.mp (hall s hs) n hn hid

/-- The edges to supertypes are those of the clauses: a clause leads to the first declaration of the
name that it gives, in any letter case and of a type or a routine, and the node of that ID is the
node of the declaration. So all supertypes with a node are types exactly if the first declaration of
each name that is given is a type, and the node of no routine has the ID of an unknown name that is
given. No node has such an ID unless the path of the file begins like one. -/
theorem supertypes_are_types_iff (f : SourceFile) :
    (∀ e, e ∈ (analyze f).edges ∧ e.relation ∈ Relation.supertyping ↔
      ∃ s ∈ clauses f, e = ⟨s.type, supertypeTarget f s.base, s.relation⟩) ∧
    (∀ name d, declaration? f name = some d → supertypeTarget f name = d.node.id ∧
      ∃ n, (analyze f).node? d.node.id = some n ∧ n.label = d.node.label) ∧
    (SupertypesAreTypes (analyze f) ↔ ∀ s ∈ clauses f, NamesType f s) ∧
    (Ident.isUnresolved (f.path ++ ":") = false →
      (SupertypesAreTypes (analyze f) ↔
        ∀ s ∈ clauses f, ∀ d, declaration? f s.base = some d → IsType d.node.label)) := by
  refine ⟨fun e => mem_supertyping_iff, fun name d h => ?_, supertypesAreTypes_iff f,
    fun hpath => (supertypesAreTypes_iff f).trans (forall₂_congr fun s _ => ?_)⟩
  · exact ⟨by simp [supertypeTarget, h], exists_node?_of_declaration? h⟩
  · cases h : declaration? f s.base with
    | some d => simp [NamesType, h]
    | none =>
        simp only [NamesType, h]
        refine iff_of_true (fun n hn hid => ?_) (by simp)
        have hunresolved := isUnresolved_of_inFile (hid ▸ inFile_of_mem_analyze hn)
        rw [hpath] at hunresolved
        cases hunresolved

def Sample.precedingType : SourceFile :=
  ⟨"a.vb", Utf8.encode ("Class Base\nEnd Class\nClass A\nSub BASE()\nEnd Sub\nEnd Class\n" ++
    "Class B\nInherits base\nEnd Class\n").toList⟩

/-- The class inherits from the type, which the routine does not replace. -/
theorem preceding_type_inherited :
    ⟨"a.vb:B", "a.vb:Base", Relation.inherits⟩ ∈ (analyze Sample.precedingType).edges ∧
      (declaration? Sample.precedingType "base").map (·.node.id) = some "a.vb:Base" ∧
      SupertypesAreTypes (analyze Sample.precedingType) := by
  obtain ⟨-, -, -, hiff⟩ := supertypes_are_types_iff Sample.precedingType
  refine ⟨by decide +kernel, by decide +kernel, (hiff (by decide +kernel)).mpr ?_⟩
  have hlabels : ∀ s ∈ clauses Sample.precedingType,
      ∀ d ∈ declaration? Sample.precedingType s.base, IsType d.node.label := by decide +kernel
  exact hlabels

def Sample.eclipsedType : SourceFile :=
  ⟨"a.vb", Utf8.encode ("Class A\nSub Base()\nEnd Sub\nEnd Class\nClass Base\nEnd Class\n" ++
    "Class B\nInherits Base\nEnd Class\n").toList⟩

/-- The class inherits from the routine. -/
theorem eclipsed_type_not_inherited :
    (analyze Sample.eclipsedType).nodes.map (fun n => (n.id, n.label)) =
      [("a.vb:A", Label.class_), ("a.vb:A:Base", Label.method), ("a.vb:Base", Label.class_),
        ("a.vb:B", Label.class_)] ∧
    (analyze Sample.eclipsedType).edges =
      [⟨"a.vb:A", "a.vb:A:Base", Relation.hasMethod⟩,
        ⟨"a.vb:B", "a.vb:A:Base", Relation.inherits⟩] ∧
    ¬SupertypesAreTypes (analyze Sample.eclipsedType) := by
  have hnodes : (analyze Sample.eclipsedType).nodes.map (fun n => (n.id, n.label)) =
      [("a.vb:A", Label.class_), ("a.vb:A:Base", Label.method), ("a.vb:Base", Label.class_),
        ("a.vb:B", Label.class_)] := by decide +kernel
  have hedges : (analyze Sample.eclipsedType).edges =
      [⟨"a.vb:A", "a.vb:A:Base", Relation.hasMethod⟩,
        ⟨"a.vb:B", "a.vb:A:Base", Relation.inherits⟩] := by decide +kernel
  refine ⟨hnodes, hedges, fun hall => ?_⟩
  have hmem : ("a.vb:A:Base", Label.method) ∈
      (analyze Sample.eclipsedType).nodes.map fun n => (n.id, n.label) := by simp [hnodes]
  obtain ⟨n, hn, hparts⟩ := List.mem_map.mp hmem
  obtain ⟨hid, hlabel⟩ := Prod.mk.inj hparts
  have hedge : ⟨"a.vb:B", "a.vb:A:Base", Relation.inherits⟩ ∈
      (analyze Sample.eclipsedType).edges := by simp [hedges]
  have htype := hall _ hedge (by decide) n hn hid
  rw [hlabel] at htype
  exact absurd htype (by decide)

end CodeGraph.Vb
