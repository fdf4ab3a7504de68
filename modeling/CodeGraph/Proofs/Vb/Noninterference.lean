import CodeGraph.Proofs.Graph.Properties
import CodeGraph.Proofs.Vb.Steps

/-!
Comments and the contents of strings do not matter to a Visual Basic file. A line is looked at
only without them, except that a routine keeps its first line as a signature. Two files that
differ in comments and strings alone are therefore scanned in step: with the signatures hidden, the
states agree after every line, and so do the fragments.
-/

namespace CodeGraph

/-! ### Hiding the values of one property -/

namespace Properties

/-- The properties with every value under `key` made the same. -/
def hide (key : String) (props : Properties) : Properties :=
  props.map fun x => if x.1 = key then (x.1, .null) else x

variable {key k : String}

theorem hide_set_of_ne (h : k ≠ key) (value : Json) (props : Properties) :
    (props.set k value).hide key = (props.hide key).set k value := by
  induction props with
  | nil => simp [set, hide, h]
  | cons entry rest ih =>
      obtain ⟨k', v⟩ := entry
      -- Hiding keeps the keys, so the place of `k` is the same.
      have hcons : hide key ((k', v) :: rest) =
          (k', if k' = key then .null else v) :: hide key rest := by
        rw [hide, List.map_cons, apply_ite (Prod.mk k')]
        rfl
      rw [hcons, set, set]
      split
      · simp [hide, h]
      · split
        · rw [← hcons]
          simp [hide, h]
        · rw [← ih, hide, hide, List.map_cons, apply_ite (Prod.mk k')]

theorem hide_set_self (props : Properties) (value value' : Json) :
    (props.set key value).hide key = (props.set key value').hide key := by
  induction props with
  | nil => simp [set, hide]
  | cons entry rest ih =>
      obtain ⟨k', v⟩ := entry
      rw [set, set]
      split
      · simp [hide]
      · split
        · simp [hide]
        · simp only [hide, List.map_cons] at ih ⊢
          rw [ih]

theorem erase_hide (props : Properties) (key : String) :
    (props.hide key).erase key = props.erase key := by
  induction props with
  | nil => rfl
  | cons entry rest ih =>
      simp only [hide, erase, List.map_cons, List.filter_cons] at ih ⊢
      rw [ih]
      by_cases h : entry.1 = key <;> simp [h]

end Properties

namespace Node

def hide (key : String) (n : Node) : Node :=
  { n with properties := n.properties.hide key }

@[simp] theorem id_hide (key : String) (n : Node) : (n.hide key).id = n.id := rfl

theorem hide_set_of_ne {key k : String} (h : k ≠ key) (value : Json) (n : Node) :
    (n.set k value).hide key = (n.hide key).set k value := by
  simp only [hide, set, Properties.hide_set_of_ne h]

theorem hide_set_self (n : Node) (key : String) (value value' : Json) :
    (n.set key value).hide key = (n.set key value').hide key := by
  simp only [hide, set, Properties.hide_set_self n.properties value value']

theorem erase_hide (n : Node) (key : String) : (n.hide key).erase key = n.erase key := by
  simp only [hide, erase, Properties.erase_hide]

end Node

namespace Fragment

def hide (key : String) (f : Fragment) : Fragment :=
  { f with nodes := f.nodes.map (Node.hide key) }

variable (key : String) (f : Fragment)

@[simp] theorem edges_hide : (f.hide key).edges = f.edges := rfl

theorem contains_hide (id : String) : (f.hide key).contains id = f.contains id := by
  simp [contains, hide, Function.comp_def]

theorem hide_addNode (n : Node) :
    (f.addNode n).hide key = (f.hide key).addNode (n.hide key) := by
  rw [addNode, addNode, contains_hide, Node.id_hide]
  split
  · rfl
  · simp [hide]

theorem hide_addEdge (source target relation : String) :
    (f.addEdge source target relation).hide key =
      (f.hide key).addEdge source target relation := by
  rw [addEdge, apply_ite (Fragment.hide key)]
  rfl

theorem hide_addEdges (source : String) (targets : List String) (relation : String) :
    (f.addEdges source targets relation).hide key =
      (f.hide key).addEdges source targets relation := by
  induction targets generalizing f with
  | nil => rfl
  | cons target targets ih => exact (ih _).trans (by rw [hide_addEdge]; rfl)

theorem hide_setProperty {k : String} (h : k ≠ key) (id : String) (value : Json) :
    (f.setProperty id k value).hide key = (f.hide key).setProperty id k value := by
  simp only [setProperty, hide, List.map_map, Fragment.mk.injEq, and_true]
  refine List.map_congr_left fun n _ => ?_
  rw [Function.comp_apply, Function.comp_apply, Node.id_hide, apply_ite (Node.hide key),
    Node.hide_set_of_ne h]

end Fragment

namespace Vb

/-! ### Lines with the same code -/

/-- Two lines that differ at most in the text behind the apostrophe that begins their comment and
in the characters inside string literals. A literal that is not closed reaches to the end of the
line. -/
inductive SameCode : List Char → List Char → Prop where
  | done : SameCode [] []
  | comment (s t : List Char) : SameCode ('\'' :: s) ('\'' :: t)
  | code {c : Char} {s t : List Char} : c ≠ '"' → c ≠ '\'' → SameCode s t →
      SameCode (c :: s) (c :: t)
  | literal {u v s t : List Char} : u.length = v.length → '"' ∉ u → '"' ∉ v → SameCode s t →
      SameCode ('"' :: (u ++ '"' :: s)) ('"' :: (v ++ '"' :: t))
  | unclosed {u v : List Char} : u.length = v.length → '"' ∉ u → '"' ∉ v →
      SameCode ('"' :: u) ('"' :: v)

/-- The inside of a string becomes blanks. -/
theorem stripFrom_true_append {u : List Char} (h : '"' ∉ u) (s : List Char) :
    stripFrom true (u ++ s) = List.replicate u.length ' ' ++ stripFrom true s := by
  induction u with
  | nil => rfl
  | cons c u ih =>
      obtain ⟨hc, hu⟩ := List.ne_and_not_mem_of_not_mem_cons h
      rw [List.cons_append, stripFrom, if_neg (by simpa using hc.symm), if_pos rfl, ih hu,
        List.length_cons, List.replicate_succ, List.cons_append]

namespace SameCode

variable {s t : List Char}

/-- Code in front of lines with the same code. -/
theorem append {u : List Char} (hquotes : '"' ∉ u) (hcomments : '\'' ∉ u) (h : SameCode s t) :
    SameCode (u ++ s) (u ++ t) := by
  induction u with
  | nil => exact h
  | cons c u ih =>
      obtain ⟨hquote, hquotes⟩ := List.ne_and_not_mem_of_not_mem_cons hquotes
      obtain ⟨hcomment, hcomments⟩ := List.ne_and_not_mem_of_not_mem_cons hcomments
      exact .code hquote.symm hcomment.symm (ih hquotes hcomments)

theorem stripFrom_eq (h : SameCode s t) : stripFrom false s = stripFrom false t := by
  induction h with
  | done => rfl
  | comment s t => rfl
  | code hquote hcomment _ ih => simp [stripFrom, hquote, hcomment, ih]
  | literal hlength hu hv _ ih =>
      simp [stripFrom, stripFrom_true_append hu, stripFrom_true_append hv, hlength, ih]
  | @unclosed u v hlength hu hv =>
      have hblank := stripFrom_true_append hu []
      have hblank' := stripFrom_true_append hv []
      rw [List.append_nil] at hblank hblank'
      simp [stripFrom, hblank, hblank', hlength]

theorem trimStart (h : SameCode s t) : SameCode (Chars.trimStart s) (Chars.trimStart t) := by
  induction h with
  | done => exact .done
  | comment s t => exact .comment s t
  | @code c s t hquote hcomment hrest ih =>
      by_cases hspace : Text.isSpace c = true
      · simpa [Chars.trimStart, hspace] using ih
      · simpa [Chars.trimStart, hspace] using SameCode.code hquote hcomment hrest
  | literal hlength hu hv hrest _ => exact .literal hlength hu hv hrest
  | unclosed hlength hu hv => exact .unclosed hlength hu hv

/-- A start without quotes and apostrophes is common to both lines or to none. -/
theorem startsWith_lower_eq (h : SameCode s t) {lead : List Char} (hquote : '"' ∉ lead)
    (hcomment : '\'' ∉ lead) :
    Seq.startsWith lead (Chars.lower s) = Seq.startsWith lead (Chars.lower t) := by
  induction lead generalizing s t with
  | nil => rfl
  | cons a lead ih =>
      obtain ⟨haq, hquote⟩ := List.ne_and_not_mem_of_not_mem_cons hquote
      obtain ⟨hac, hcomment⟩ := List.ne_and_not_mem_of_not_mem_cons hcomment
      have hquote' : a ≠ Text.lowerChar '"' := fun h => haq (h.trans (by decide)).symm
      have hcomment' : a ≠ Text.lowerChar '\'' := fun h => hac (h.trans (by decide)).symm
      cases h with
      | done => rfl
      | comment => simp [Chars.lower, Seq.startsWith, Seq.stripStart?, hcomment']
      | @code c s t _ _ hrest =>
          have hrest := ih hrest hquote hcomment
          simp only [Chars.lower, Seq.startsWith, List.map_cons, Seq.stripStart?] at hrest ⊢
          split
          · exact hrest
          · rfl
      | literal => simp [Chars.lower, Seq.startsWith, Seq.stripStart?, hquote']
      | unclosed => simp [Chars.lower, Seq.startsWith, Seq.stripStart?, hquote']

/-- Lines with the same code are seen alike. -/
theorem strip_eq (h : SameCode s t) : strip s = strip t := by
  have hremark : Seq.startsWith "rem ".toList (Chars.lower (Chars.trimStart s)) =
      Seq.startsWith "rem ".toList (Chars.lower (Chars.trimStart t)) :=
    h.trimStart.startsWith_lower_eq (by decide) (by decide)
  rw [strip, strip, hremark, h.stripFrom_eq]

theorem map_strip_eq {lines lines' : List (List Char)} (h : List.Forall₂ SameCode lines lines') :
    lines.map strip = lines'.map strip := by
  induction h with
  | nil => rfl
  | cons hline _ ih => rw [List.map_cons, List.map_cons, hline.strip_eq, ih]

end SameCode

/-! ### The scan with signatures hidden -/

namespace Blocks

def hide (b : Blocks) : Blocks :=
  { b with fragment := b.fragment.hide Key.signature }

variable (b : Blocks) (index : Nat)

@[simp] theorem types_hide : b.hide.types = b.types := rfl

@[simp] theorem bodies_hide : b.hide.bodies = b.bodies := rfl

@[simp] theorem supertypes_hide : b.hide.supertypes = b.supertypes := rfl

theorem hide_close (id : String) (line : Nat) : (b.close id line).hide = b.hide.close id line := by
  simp only [close, hide,
    Fragment.hide_setProperty _ _ (show Key.endLine ≠ Key.signature by decide)]

theorem hide_definition (id label name file : String) (line : Nat) :
    (Node.definition id label name file line).hide Key.signature =
      Node.definition id label name file line := by
  rw [Node.definition, Node.hide_set_of_ne (by decide), Node.hide_set_of_ne (by decide),
    Node.hide_set_of_ne (by decide)]
  rfl

theorem hide_openType (keyword name : String) :
    (b.openType index keyword name).hide = b.hide.openType index keyword name := by
  simp only [openType, hide, Fragment.hide_addNode]
  rw [Node.hide_set_of_ne (by decide), hide_definition]

theorem hide_closeType : (b.closeType index).hide = b.hide.closeType index := by
  cases b with
  | mk path fragment symbols members bodies supertypes types routine =>
      cases types with
      | nil => rfl
      | cons t types =>
          simp only [closeType, close, hide,
            Fragment.hide_setProperty _ _ (show Key.endLine ≠ Key.signature by decide)]

theorem hide_addSupertypes (keyword list : String) :
    (b.addSupertypes keyword list).hide = b.hide.addSupertypes keyword list := by
  unfold addSupertypes
  simp only [hide]
  split <;> rfl

theorem hide_endRoutine (stop line : Nat) :
    (b.endRoutine stop line).hide = b.hide.endRoutine stop line := by
  unfold endRoutine
  simp only [hide, close]
  split
  · rfl
  · simp only [Fragment.hide_setProperty _ _ (show Key.endLine ≠ Key.signature by decide)]

variable {b} {b' : Blocks} {raw raw' : List Char}

/-- States that agree up to signatures differ in their fragments only. -/
theorem exists_eq_of_hide_eq (h : b.hide = b'.hide) :
    ∃ g : Fragment, b' = { b with fragment := g } ∧
      b.fragment.hide Key.signature = g.hide Key.signature := by
  refine ⟨b'.fragment, ?_, congrArg fragment h⟩
  cases b
  cases b'
  simp only [hide, mk.injEq] at h
  simp [h]

/-- The text of the first line goes into the signature alone. -/
theorem hide_addRoutine_congr (h : b.hide = b'.hide) (raw raw' : List Char) (name : String) :
    (b.addRoutine index raw name).hide = (b'.addRoutine index raw' name).hide := by
  obtain ⟨g, rfl, hg⟩ := exists_eq_of_hide_eq h
  have hnode : (b.routineNode index raw name).hide Key.signature =
      (b.routineNode index raw' name).hide Key.signature :=
    Node.hide_set_self ..
  have hadd : (b.fragment.addNode (b.routineNode index raw name)).hide Key.signature =
      (g.addNode (b.routineNode index raw' name)).hide Key.signature := by
    rw [Fragment.hide_addNode, Fragment.hide_addNode, hg, hnode]
  unfold routineNode at hadd
  unfold addRoutine
  dsimp only
  cases b.types.head? with
  | none =>
      simp only [hide, hadd]
      rfl
  | some t =>
      simp only [hide, Fragment.hide_addEdge, hadd]
      rfl

theorem hide_openRoutine_congr (h : b.hide = b'.hide) (raw raw' line : List Char) (name : String) :
    (b.openRoutine index raw line name).hide = (b'.openRoutine index raw' line name).hide := by
  have hadded := hide_addRoutine_congr index h raw raw' name
  have hclosed : ((b.addRoutine index raw name).close (b.routineId name) (index + 1)).hide =
      ((b'.addRoutine index raw' name).close (b.routineId name) (index + 1)).hide := by
    rw [hide_close, hide_close, hadded]
  obtain ⟨g, rfl, -⟩ := exists_eq_of_hide_eq h
  unfold openRoutine
  dsimp only
  rw [apply_ite hide, apply_ite hide]
  have hopened := congrArg
    (fun c : Blocks => { c with routine := some (b.opened index name) }) hadded
  exact congrArg₂ (ite _) hopened hclosed

/-- The effect of a line goes through what is left of the line without comments and strings. -/
theorem hide_act_congr (h : b.hide = b'.hide) (hline : strip raw = strip raw')
    (reading : Reading) : (b.act index raw reading).hide = (b'.act index raw' reading).hide := by
  cases reading with
  | plain => exact h
  | typeStart keyword name => simp only [act, hide_openType, h]
  | typeEnd => simp only [act, hide_closeType, h]
  | supertypes keyword list => simp only [act, hide_addSupertypes, h]
  | routineStart name =>
      simp only [act, hline]
      exact hide_openRoutine_congr index h raw raw' (strip raw') name
  | routineEnd => simp only [act, hide_endRoutine, h]

theorem reading_congr (h : b.hide = b'.hide) (hline : strip raw = strip raw') :
    b.reading raw = b'.reading raw' := by
  obtain ⟨g, rfl, -⟩ := exists_eq_of_hide_eq h
  unfold reading endsRoutine
  rw [hline]

theorem hide_step_congr (h : b.hide = b'.hide) (hline : strip raw = strip raw') :
    (b.step raw index).hide = (b'.step raw' index).hide := by
  rw [step_eq_act, step_eq_act, reading_congr h hline]
  exact hide_act_congr index h hline _

/-- The scans of two files with the same code stay in step. -/
theorem hide_readFrom_congr {lines lines' : List (List Char)} (h : b.hide = b'.hide)
    (hlines : lines.map strip = lines'.map strip) :
    (b.readFrom index lines).hide = (b'.readFrom index lines').hide := by
  induction lines generalizing b b' index lines' with
  | nil =>
      obtain rfl : lines' = [] := List.map_eq_nil_iff.mp hlines.symm
      exact h
  | cons raw lines ih =>
      obtain ⟨raw', rest', rfl, hline, hrest⟩ := List.map_eq_cons_iff.mp hlines.symm
      exact ih _ (hide_step_congr index h hline.symm) hrest.symm

/-- An operation that does not look at signatures may be repeated. -/
theorem hide_foldl_congr {α : Type} {op : Blocks → α → Blocks}
    (hop : ∀ b x, (op b x).hide = op b.hide x) (h : b.hide = b'.hide) (xs : List α) :
    (xs.foldl op b).hide = (xs.foldl op b').hide := by
  rw [← List.foldl_hom hide fun b x => (hop b x).symm, h,
    List.foldl_hom hide fun b x => (hop b x).symm]

theorem hide_finish_congr (h : b.hide = b'.hide) (count : Nat) :
    (b.finish count).hide = (b'.finish count).hide := by
  have hended : (b.endRoutine count count).hide = (b'.endRoutine count count).hide := by
    rw [hide_endRoutine, hide_endRoutine, h]
  have htypes : b.types = b'.types := by simpa using congrArg types h
  rw [finish_eq, finish_eq, htypes]
  exact hide_foldl_congr (fun b t => hide_close b t.id count) hended b'.types

theorem hide_linkSupertype (b : Blocks) (s : Supertype) :
    (b.linkSupertype s).hide = b.hide.linkSupertype s := by
  simp only [linkSupertype, hide, Fragment.hide_addEdge]

/-- The calls of a routine come from its lines without comments and strings. -/
theorem linkCalls_congr {lines lines' : List (List Char)}
    (h : lines.map strip = lines'.map strip) : linkCalls lines = linkCalls lines' := by
  have hbody : bodyLines lines = bodyLines lines' := by
    funext r
    simp only [bodyLines, Seq.slice, List.map_take, List.map_drop, h]
  have hheader (i : Nat) : strip (lines[i]?.getD []) = strip (lines'[i]?.getD []) := by
    have hget (ls : List (List Char)) : strip (ls[i]?.getD []) = (ls.map strip)[i]?.getD [] := by
      rw [List.getElem?_map]
      exact Option.getD_map strip [] ls[i]? |>.symm
    rw [hget, hget, h]
  funext b r
  simp only [linkCalls, localsOf, complexityOf, hbody, hheader]

theorem hide_linkCalls (lines : List (List Char)) (b : Blocks) (r : Body) :
    (linkCalls lines b r).hide = linkCalls lines b.hide r := by
  simp only [linkCalls, hide, Fragment.hide_addEdges,
    Fragment.hide_setProperty _ _ (show Key.complexity ≠ Key.signature by decide)]
  rfl

end Blocks

/-- Files with the same code give the same fragment up to signatures. -/
theorem hide_fragmentOf_congr (path : String) {lines lines' : List (List Char)}
    (h : lines.map strip = lines'.map strip) :
    (fragmentOf path lines).hide Key.signature = (fragmentOf path lines').hide Key.signature := by
  have hlength : lines.length = lines'.length := by
    simpa using congrArg List.length h
  have hread : (Blocks.readFrom { path } 0 lines).hide = (Blocks.readFrom { path } 0 lines').hide :=
    Blocks.hide_readFrom_congr 0 rfl h
  have hscanned : (Blocks.scanned path lines).hide = (Blocks.scanned path lines').hide := by
    rw [Blocks.scanned, Blocks.scanned, hlength]
    exact Blocks.hide_finish_congr hread lines'.length
  have hsupertypes : (Blocks.scanned path lines).supertypes =
      (Blocks.scanned path lines').supertypes := by
    simpa using congrArg Blocks.supertypes hscanned
  have hblocks : (Blocks.ofLines path lines).hide = (Blocks.ofLines path lines').hide := by
    rw [Blocks.ofLines_eq, Blocks.ofLines_eq, hsupertypes]
    exact Blocks.hide_foldl_congr Blocks.hide_linkSupertype hscanned _
  have hbodies : (Blocks.ofLines path lines).bodies = (Blocks.ofLines path lines').bodies := by
    simpa using congrArg Blocks.bodies hblocks
  unfold fragmentOf
  dsimp only
  rw [hbodies, Blocks.linkCalls_congr h]
  exact congrArg Blocks.fragment
    (Blocks.hide_foldl_congr (Blocks.hide_linkCalls lines') hblocks _)

/-- Comments and the contents of strings are not looked at: files of one path whose lines have the
same code have the same nodes, in one order and with the same properties except the signature, and
the same edges in one order. -/
theorem analyze_eq_up_to_signatures {f g : SourceFile} (hpath : f.path = g.path)
    (hlines : List.Forall₂ SameCode (Chars.lines (Utf8.lossy f.bytes))
      (Chars.lines (Utf8.lossy g.bytes))) :
    (analyze f).nodes.map (·.erase Key.signature) = (analyze g).nodes.map (·.erase Key.signature) ∧
      (analyze f).edges = (analyze g).edges := by
  have hhide : (analyze f).hide Key.signature = (analyze g).hide Key.signature := by
    rw [analyze, analyze, hpath]
    exact hide_fragmentOf_congr g.path (SameCode.map_strip_eq hlines)
  constructor
  · have hnodes := congrArg (fun h : Fragment => h.nodes.map (·.erase Key.signature)) hhide
    simpa [Fragment.hide, Function.comp_def, Node.erase_hide] using hnodes
  · simpa using congrArg Fragment.edges hhide

/-- A file with a string literal in a header and in a call, and with a comment. -/
def greetingFile (greeting remark : String) : SourceFile :=
  ⟨"a.vb", Utf8.encode
    ("Sub Greet(Optional who = \"" ++ greeting ++ "\")\nSay(\"" ++ greeting ++ "\") '" ++ remark ++
      "\nEnd Sub\n").toList⟩

def greetingLines (greeting remark : String) : List (List Char) :=
  ["Sub Greet(Optional who = ".toList ++ '"' :: (greeting.toList ++ '"' :: (")".toList ++ [])),
    "Say(".toList ++ '"' :: (greeting.toList ++ '"' :: (") ".toList ++ '\'' :: remark.toList)),
    "End Sub".toList ++ []]

/-- Neither an apostrophe in a string nor a quote in a comment shows. -/
theorem greetingFile_same_up_to_signatures :
    (analyze (greetingFile "it's" "Hush()")).nodes.map (·.erase Key.signature) =
        (analyze (greetingFile "F(2)" "say \"no\"")).nodes.map (·.erase Key.signature) ∧
      (analyze (greetingFile "it's" "Hush()")).edges =
        (analyze (greetingFile "F(2)" "say \"no\"")).edges := by
  have hlines : Chars.lines (Utf8.lossy (greetingFile "it's" "Hush()").bytes) =
      greetingLines "it's" "Hush()" := by decide +kernel
  have hlines' : Chars.lines (Utf8.lossy (greetingFile "F(2)" "say \"no\"").bytes) =
      greetingLines "F(2)" "say \"no\"" := by decide +kernel
  refine analyze_eq_up_to_signatures rfl ?_
  rw [hlines, hlines']
  refine .cons (.append (by decide) (by decide) ?_) (.cons (.append (by decide) (by decide) ?_)
    (.cons (.append (by decide) (by decide) .done) .nil))
  · exact .literal rfl (by decide) (by decide) (.append (by decide) (by decide) .done)
  · exact .literal rfl (by decide) (by decide) (.append (by decide) (by decide) (.comment _ _))

end Vb

end CodeGraph
