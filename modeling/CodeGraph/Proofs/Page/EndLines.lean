import CodeGraph.Proofs.Page.MethodLabels
import CodeGraph.Proofs.Vb.Repetition

/-!
Last lines on pages in Visual Basic. A block that is closed on the page ends on one of its lines,
since no empty line closes anything. What is still open where the page ends is closed by the last
line of the wrapper or by the end of the wrapped code, and that line is not taken off again: only
the head of the wrapper is. So the last line of such a block lies behind the page.
-/

namespace CodeGraph

/-! ### Closing lines -/

namespace Vb

namespace Blocks

variable {b : Blocks} {index : Nat} {id : String}

/-- An empty line closes nothing. -/
theorem closes?_nil (b : Blocks) : b.closes? [] = none := by
  have houtside : Reading.outside (strip []) = .plain := by decide +kernel
  have hends : endsRoutine [] = false := by decide +kernel
  have hreading : b.reading [] = .plain := by
    rw [reading, houtside, hends]
    simp
  rw [closes?, hreading]

/-- What the first lines write as a last line comes from one of them that is not empty. -/
theorem endsFrom_append (id : String) (b : Blocks) (index : Nat) (lines rest : List (List Char)) :
    ∃ closed, endsFrom id b index (lines ++ rest) =
        closed ++ endsFrom id (b.readFrom index lines) (index + lines.length) rest ∧
      ∀ line ∈ closed, ∃ i raw, lines[i]? = some raw ∧ raw ≠ [] ∧ line = index + i + 1 := by
  induction lines generalizing b index with
  | nil => exact ⟨[], rfl, by simp⟩
  | cons raw lines ih =>
      obtain ⟨closed, hclosed, hlines⟩ := ih (b.step raw index) (index + 1)
      refine ⟨(if b.closes? raw = some id then [index + 1] else []) ++ closed, ?_,
        fun line hline => ?_⟩
      · rw [List.cons_append, endsFrom, hclosed, List.append_assoc, List.length_cons, readFrom,
          Nat.add_right_comm, Nat.add_assoc index]
      · rcases List.mem_append.mp hline with hline | hline
        · split at hline
          case isTrue hcloses =>
            refine ⟨0, raw, rfl, ?_, List.mem_singleton.mp hline⟩
            rintro rfl
            rw [closes?_nil] at hcloses
            cases hcloses
          case isFalse => cases hline
        · obtain ⟨i, raw', hraw, hne, rfl⟩ := hlines line hline
          exact ⟨i + 1, raw', hraw, hne, by omega⟩

/-- A single line and the end of the file behind it close what is open, both under one number. -/
theorem eq_of_mem_endsFrom_singleton {raw : List Char} {line : Nat}
    (h : line ∈ endsFrom id b index [raw]) : line = index + 1 := by
  rw [endsFrom, endsFrom] at h
  rcases List.mem_append.mp h with h | h
  · split at h
    · exact List.mem_singleton.mp h
    · cases h
  · obtain ⟨-, -, rfl⟩ := List.mem_map.mp h
    rfl

theorem pending_ne_nil (h : id ∈ b.openIds) (index : Nat) (lines : List (List Char)) :
    pending id b index lines ≠ [] := by
  have htypes (ts : List OpenType) (hts : id ∈ ts.map (·.id)) :
      pendingTypes id b index lines ts ≠ [] := by
    induction ts with
    | nil => cases hts
    | cons t around ih =>
        rcases List.mem_cons.mp hts with rfl | hts
        · simp [pendingTypes]
        · simp [pendingTypes, ih hts]
  rw [pending]
  rcases List.mem_append.mp h with h | h
  · obtain ⟨r, hr, rfl⟩ := List.mem_map.mp h
    simp [Option.mem_toList.mp hr]
  · simp [htypes b.types h]

/-- Behind the last line that declares something, exactly the open blocks are still to be closed. -/
theorem endsFrom_eq_nil_iff (h : b.Stacked) {lines : List (List Char)}
    (hnone : b.declarationsFrom index lines = []) :
    endsFrom id b index lines = [] ↔ id ∉ b.openIds := by
  rw [endsFrom_eq h, declaredAs, hnone, List.filter_nil, List.map_nil, List.append_nil]
  exact ⟨fun hnil hid => pending_ne_nil hid index lines hnil, fun hid => pending_eq_nil hid lines⟩

theorem stacked_readFrom (path : String) (lines : List (List Char)) :
    (readFrom { path } 0 lines).Stacked :=
  readFrom_induction (I := fun _ b => b.Stacked) (fun _ _ _ h => h.act rfl) (stacked_start path)
    lines

end Blocks

open Blocks

/-- The last line of a node in a file whose last line declares nothing: the number of that line if
the block is open in front of it, and else the number of a line in front of it that is not empty. -/
theorem endLine_of_node? {path id : String} {lines : List (List Char)} {final : List Char}
    {n : Node} (hfinal : ∀ b index, declarationsFrom b index [final] = [])
    (hn : (fragmentOf path (lines ++ [final])).node? id = some n) :
    ∃ endLine : Nat, n.get? Key.endLine = some (.int endLine) ∧
      (id ∈ (readFrom { path } 0 lines).openIds → endLine = lines.length + 1) ∧
      (id ∉ (readFrom { path } 0 lines).openIds →
        ∃ i raw, lines[i]? = some raw ∧ raw ≠ [] ∧ endLine = i + 1) := by
  obtain ⟨closed, hclosed, hlines⟩ := endsFrom_append id { path } 0 lines [final]
  have hends := endsFrom_start path (lines ++ [final]) id
  have hnil : endsFrom id (readFrom { path } 0 lines) (0 + lines.length) [final] = [] ↔ _ :=
    endsFrom_eq_nil_iff (stacked_readFrom path lines) (hfinal _ _)
  rw [node?_fragmentOf] at hn
  obtain ⟨first, hfirst, rfl⟩ := Option.map_eq_some_iff.mp hn
  obtain ⟨last, hlast⟩ : ∃ last, (declaredAs id { path } 0 (lines ++ [final])).getLast? =
      some last :=
    ⟨_, List.getLast?_eq_some_getLast (List.ne_nil_of_mem (List.mem_of_head? hfirst))⟩
  have hendLine : (endsFrom id { path } 0 (lines ++ [final])).getLast? = some last.endLine := by
    rw [hends, List.getLast?_map, hlast]
    rfl
  refine ⟨last.endLine, Declared.get?_recorded_endLine hlast, fun hopen => ?_, fun hclosed' => ?_⟩
  · rw [hclosed, List.getLast?_append_of_ne_nil _ (fun h => hnil.mp h hopen)] at hendLine
    have hlast := eq_of_mem_endsFrom_singleton (List.mem_of_getLast? hendLine)
    omega
  · rw [hclosed, hnil.mpr hclosed', List.append_nil] at hendLine
    obtain ⟨i, raw, hraw, hne, hi⟩ := hlines _ (List.mem_of_getLast? hendLine)
    exact ⟨i, raw, hraw, hne, by omega⟩

/-- A block that is open in front of the last line has its node. -/
theorem exists_node?_of_open {path id : String} {lines : List (List Char)} {final : List Char}
    (hfinal : ∀ b index, declarationsFrom b index [final] = [])
    (h : id ∈ (readFrom { path } 0 lines).openIds) :
    ∃ n, (fragmentOf path (lines ++ [final])).node? id = some n := by
  obtain ⟨closed, hclosed, -⟩ := endsFrom_append id { path } 0 lines [final]
  have hends : endsFrom id { path } 0 (lines ++ [final]) ≠ [] := by
    rw [hclosed]
    refine List.append_ne_nil_of_right_ne_nil _ fun hnil => ?_
    exact (endsFrom_eq_nil_iff (stacked_readFrom path lines) (hfinal _ _)).mp hnil h
  rw [endsFrom_start, Ne, List.map_eq_nil_iff] at hends
  rw [node?_fragmentOf, List.head?_eq_some_head hends]
  exact ⟨_, rfl⟩

/-- No node ends before it begins. -/
theorem line_le_endLine {path : String} {lines : List (List Char)} {n : Node}
    (hn : n ∈ (fragmentOf path lines).nodes) :
    ∃ line : Nat, n.get? Key.line = some (.int line) ∧
      ∀ endLine : Nat, n.get? Key.endLine = some (.int endLine) → line ≤ endLine := by
  obtain ⟨m, hm, hmn⟩ := measuredBy_of_mem_foldl hn
  obtain ⟨line, -, hline, hend⟩ := ((recording_ofLines path lines).nodes m hm).lines
  refine ⟨line, (hmn.other _ (by decide)).trans hline, fun endLine hendLine => ?_⟩
  rw [hmn.other _ (by decide)] at hendLine
  rcases hend with hnone | ⟨own, hle, hown⟩
  · rw [hnone] at hendLine
    cases hendLine
  · rw [hown] at hendLine
    have hsame := Json.int.inj (Option.some.inj hendLine)
    omega

end Vb

namespace Page

open Vb.Blocks

/-! ### Open blocks -/

theorem declarationsFrom_vbEnd (b : Vb.Blocks) (index : Nat) :
    b.declarationsFrom index [vbEnd] = [] := by
  have houtside : Vb.Reading.outside (Vb.strip vbEnd) = .typeEnd := by decide +kernel
  have hends : Vb.endsRoutine vbEnd = false := by decide +kernel
  have hnone : b.declared? index vbEnd [] = none := by
    rw [declared?, reading, houtside, hends]
    cases b.routine <;> rfl
  rw [declarationsFrom, hnone]
  rfl

def linesToEnd (page : List UInt8) : List (List Char) :=
  vbHead :: (Seq.splitOn (· == Mask.lf) (maskMarkup page)).map lineText

/-- The IDs of the blocks that are open where a page ends; one of them is the wrapper unless the
page has closed it. -/
def openAtEnd (f : SourceFile) : List String :=
  (readFrom { path := f.path } 0 (linesToEnd f.bytes)).openIds

def wrappedFragment (f : SourceFile) : Fragment :=
  Vb.analyze ⟨f.path, wrapVb (maskMarkup f.bytes)⟩

theorem wrappedFragment_eq (f : SourceFile) :
    wrappedFragment f = Vb.fragmentOf f.path (linesToEnd f.bytes ++ [vbEnd]) := by
  rw [wrappedFragment, Vb.analyze, lines_wrapVb]
  rfl

theorem nodup_ids_wrappedFragment (f : SourceFile) : (wrappedFragment f).ids.Nodup := by
  rw [wrappedFragment_eq]
  exact Vb.Blocks.nodup_ids_fragmentOf _ _

theorem analyzeVb_eq (f : SourceFile) :
    analyzeVb f = unwrap f.path (vbWrapper f.path) (wrappedFragment f) := rfl

def lineCount (page : List UInt8) : Nat :=
  (Chars.lines (Utf8.lossy page)).length

theorem lineCount_lt_length_linesToEnd (page : List UInt8) :
    lineCount page < (linesToEnd page).length := by
  have hsame := congrArg List.length (map_length_splitOn_maskMarkup page)
  simp only [List.length_map] at hsame
  obtain ⟨closed, last, hsplit⟩ : ∃ closed last,
      Seq.splitOn (· == Mask.lf) page = closed ++ [last] :=
    ⟨_, _, (List.dropLast_append_getLast (Seq.splitOn_ne_nil (· == Mask.lf) page)).symm⟩
  have hpieces := Utf8.splitOn_lossy page
  rw [hsplit, List.map_append] at hpieces
  have hlast : (if Utf8.lossy last = [] then [] else [Utf8.lossy last]).length ≤ 1 := by
    split <;> simp
  rw [lineCount, Chars.lines_eq hpieces, linesToEnd, List.length_cons, List.length_map, hsame,
    hsplit, List.length_append, List.length_append, List.length_map, List.length_map,
    List.length_singleton]
  omega

/-! ### Last lines -/

/-- The node ends on a line of the page, and not in front of its first line. -/
def EndsOnPage (page : List UInt8) (n : Node) : Prop :=
  ∃ line endLine : Nat, n.get? Key.line = some (.int line) ∧
    n.get? Key.endLine = some (.int endLine) ∧ line ≤ endLine ∧ endLine ≤ lineCount page

/-- The first and the last line of a node of the wrapped code. A block that is open where the page
ends lasts until the last line of the wrapper; every other one ends on a line of the page, moved
down by one. -/
theorem lines_of_mem_wrappedFragment {f : SourceFile} {n : Node}
    (hn : n ∈ (wrappedFragment f).nodes) (hid : n.id ≠ vbWrapper f.path) :
    ∃ line endLine : Nat, n.get? Key.line = some (.int line) ∧
      n.get? Key.endLine = some (.int endLine) ∧ 2 ≤ line ∧ line ≤ endLine ∧
      (n.id ∈ openAtEnd f → endLine = (linesToEnd f.bytes).length + 1) ∧
      (n.id ∉ openAtEnd f → endLine ≤ lineCount f.bytes + 1) := by
  have hfound := Fragment.node?_of_mem (nodup_ids_wrappedFragment f) hn
  rw [wrappedFragment_eq] at hfound
  obtain ⟨endLine, hendLine, hopen, hclosed⟩ :=
    Vb.endLine_of_node? declarationsFrom_vbEnd hfound
  obtain ⟨line, hline, hle⟩ := Vb.line_le_endLine (wrappedFragment_eq f ▸ hn)
  obtain ⟨i, hi, -⟩ := (each_analyze_wrapVb f.path (maskMarkup f.bytes) n hn).resolve_left hid
  have hnumber : line = i + 2 := by
    rw [Node.line?, hline] at hi
    exact Option.some.inj hi
  refine ⟨line, endLine, hline, hendLine, by omega, hle endLine hendLine, hopen, fun hid' => ?_⟩
  obtain ⟨k, raw, hraw, hne, rfl⟩ := hclosed hid'
  cases k with
  | zero =>
      have hfirst := hle _ hendLine
      omega
  | succ k =>
      rw [linesToEnd, List.getElem?_cons_succ, List.getElem?_map] at hraw
      obtain ⟨masked, hmasked, rfl⟩ := Option.map_eq_some_iff.mp hraw
      have hlt := lt_length_lines_of_masked hmasked (by rintro rfl; exact hne (by decide))
      rw [lineCount]
      omega

/-- A node of the page ends one line above the one where it ends in the wrapped code. -/
theorem lines_of_mem_analyzeVb {f : SourceFile} {n : Node} (hn : n ∈ (analyzeVb f).nodes) :
    ∃ own, standing? f.path (vbWrapper f.path) (wrappedFragment f) n.id = some own ∧
      own ∈ (wrappedFragment f).nodes ∧ own.id ≠ vbWrapper f.path ∧
      pageId f.path (vbWrapper f.path) own.id = n.id ∧
      ∃ line endLine : Nat, n.get? Key.line = some (.int line) ∧
        n.get? Key.endLine = some (.int endLine) ∧ line ≤ endLine ∧
        (own.id ∈ openAtEnd f → endLine = (linesToEnd f.bytes).length) ∧
        (own.id ∉ openAtEnd f → endLine ≤ lineCount f.bytes) := by
  have hfound := Fragment.node?_of_mem (nodup_ids_unwrap f.path (vbWrapper f.path)
    (wrappedFragment f)) hn
  rw [node?_unwrap] at hfound
  obtain ⟨own, hown, hnode⟩ := Option.map_eq_some_iff.mp hfound
  have hmem := List.mem_of_find?_eq_some hown
  obtain ⟨hne, hid⟩ : own.id ≠ vbWrapper f.path ∧
      pageId f.path (vbWrapper f.path) own.id = n.id := by
    simpa using List.find?_some hown
  obtain ⟨line, endLine, hline, hendLine, hpos, hle, hopen, hclosed⟩ :=
    lines_of_mem_wrappedFragment hmem hne
  refine ⟨own, hown, hmem, hne, hid, max (line - 1) 1, max (endLine - 1) 1, ?_, ?_, by omega,
    fun h => ?_, fun h => ?_⟩
  · rw [← hnode]
    exact get?_unwrapNode_line (.inl rfl) hline
  · rw [← hnode]
    exact get?_unwrapNode_line (.inr rfl) hendLine
  · have hend := hopen h
    omega
  · have hend := hclosed h
    omega

/-- The node that stands for an ID ends on the page exactly if its block is closed there. -/
theorem endsOnPage_iff {f : SourceFile} {n : Node} (hn : n ∈ (analyzeVb f).nodes) :
    ∃ own, standing? f.path (vbWrapper f.path) (wrappedFragment f) n.id = some own ∧
      own.id ≠ vbWrapper f.path ∧ pageId f.path (vbWrapper f.path) own.id = n.id ∧
      (EndsOnPage f.bytes n ↔ own.id ∉ openAtEnd f) := by
  obtain ⟨own, hown, -, hne, hid, line, endLine, hline, hendLine, hle, hopen, hclosed⟩ :=
    lines_of_mem_analyzeVb hn
  refine ⟨own, hown, hne, hid, ?_, fun h => ⟨line, endLine, hline, hendLine, hle, hclosed h⟩⟩
  rintro ⟨-, last, -, hlast, -, hcount⟩ hmem
  rw [hendLine] at hlast
  have hsame := Json.int.inj (Option.some.inj hlast)
  have hend := hopen hmem
  have hlt := lineCount_lt_length_linesToEnd f.bytes
  omega

theorem endOnPage_iff_closed (f : SourceFile) :
    (∀ n ∈ (analyzeVb f).nodes, EndsOnPage f.bytes n) ↔
      ∀ id ∈ openAtEnd f, id ≠ vbWrapper f.path → ∀ own,
        standing? f.path (vbWrapper f.path) (wrappedFragment f)
          (pageId f.path (vbWrapper f.path) id) = some own → own.id ≠ id := by
  constructor
  · rintro hall id hopen hne own hown rfl
    -- The node of the block stands for its ID, so it is on the page.
    have hnode := node?_unwrap f.path (vbWrapper f.path) (wrappedFragment f)
      (pageId f.path (vbWrapper f.path) own.id)
    rw [hown, Option.map_some] at hnode
    rw [← analyzeVb_eq] at hnode
    obtain ⟨hmem, hid⟩ := Fragment.mem_nodes_of_node? hnode
    obtain ⟨own', hown', -, -, hiff⟩ := endsOnPage_iff hmem
    rw [hid, hown] at hown'
    obtain rfl := Option.some.inj hown'
    exact hiff.mp (hall _ hmem) hopen
  · intro hstands n hn
    obtain ⟨own, hown, hne, hid, hiff⟩ := endsOnPage_iff hn
    refine hiff.mpr fun hopen => hstands own.id hopen hne own ?_ rfl
    rw [hid, hown]

/-- Where no two nodes come together on the page, only the wrapper may be open. -/
theorem endOnPage_iff_of_apart {f : SourceFile}
    (hapart : Apart f.path (vbWrapper f.path) (wrappedFragment f)) :
    (∀ n ∈ (analyzeVb f).nodes, EndsOnPage f.bytes n) ↔
      ∀ id ∈ openAtEnd f, id = vbWrapper f.path := by
  rw [endOnPage_iff_closed]
  constructor
  · intro hstands id hopen
    obtain ⟨n, hn⟩ := Vb.exists_node?_of_open declarationsFrom_vbEnd hopen
    rw [← wrappedFragment_eq] at hn
    obtain ⟨hmem, rfl⟩ := Fragment.mem_nodes_of_node? hn
    by_contra hne
    exact hstands n.id hopen hne n
      (standing?_eq_of_apart hapart hmem hne) rfl
  · exact fun hall id hopen hne => absurd (hall id hopen) hne

/-- On a page in Visual Basic every node has a last line, which is not in front of its first one. It
is a line of the page exactly if the block of the node is not open where the page ends; the last
line of a block that is open there is the last line of the wrapper, which lies behind the page. So
all nodes end on the page exactly if what is open where it ends has no node on the page: the
wrapper, or a block whose ID there belongs to another node. Where no two nodes come together on the
page, that is the case exactly if nothing but the wrapper is open. -/
theorem end_lines_on_page_iff_closed {f : SourceFile} (tree : Option Tree)
    (h : language f.path f.bytes = .visualBasic) :
    ∃ page, analyze f tree = .ok page ∧
      (∀ n ∈ page.nodes, ∃ own, ∃ line endLine : Nat,
        standing? f.path (vbWrapper f.path) (wrappedFragment f) n.id = some own ∧
        n.get? Key.line = some (.int line) ∧ n.get? Key.endLine = some (.int endLine) ∧
        line ≤ endLine ∧ (endLine ≤ lineCount f.bytes ↔ own.id ∉ openAtEnd f) ∧
        (own.id ∈ openAtEnd f → endLine = (linesToEnd f.bytes).length)) ∧
      ((∀ n ∈ page.nodes, EndsOnPage f.bytes n) ↔
        ∀ id ∈ openAtEnd f, id ≠ vbWrapper f.path → ∀ own,
          standing? f.path (vbWrapper f.path) (wrappedFragment f)
            (pageId f.path (vbWrapper f.path) id) = some own → own.id ≠ id) ∧
      (Apart f.path (vbWrapper f.path) (wrappedFragment f) →
        ((∀ n ∈ page.nodes, EndsOnPage f.bytes n) ↔
          ∀ id ∈ openAtEnd f, id = vbWrapper f.path)) := by
  refine ⟨analyzeVb f, by rw [analyze, h], fun n hn => ?_, endOnPage_iff_closed f,
    endOnPage_iff_of_apart⟩
  obtain ⟨own, hown, -, -, -, line, endLine, hline, hendLine, hle, hopen, hclosed⟩ :=
    lines_of_mem_analyzeVb hn
  have hlt := lineCount_lt_length_linesToEnd f.bytes
  refine ⟨own, line, endLine, hown, hline, hendLine, hle, ⟨fun hcount hmem => ?_, hclosed⟩, hopen⟩
  have hend := hopen hmem
  omega

/-- Both nodes of the page end on one of its lines. -/
theorem closed_class_ends_on_page :
    ∃ page, analyze Sample.classPage none = .ok page ∧
      page.nodes.map (·.id) = ["p.asp:C", "p.asp:C:A"] ∧
      ∀ n ∈ page.nodes, EndsOnPage Sample.classPage.bytes n := by
  have hlanguage : language Sample.classPage.path Sample.classPage.bytes = .visualBasic := by
    decide +kernel
  obtain ⟨page, hpage, -, -, hiff⟩ := end_lines_on_page_iff_closed none hlanguage
  have hids : (analyzeVb Sample.classPage).nodes.map (·.id) = ["p.asp:C", "p.asp:C:A"] := by
    decide +kernel
  have hapart : Apart Sample.classPage.path (vbWrapper Sample.classPage.path)
      (wrappedFragment Sample.classPage) := by decide +kernel
  have hopen : ∀ id ∈ openAtEnd Sample.classPage, id = vbWrapper Sample.classPage.path := by
    decide +kernel
  have hown : analyze Sample.classPage none = .ok (analyzeVb Sample.classPage) := by
    rw [analyze, hlanguage]
  obtain rfl : page = analyzeVb Sample.classPage := Except.ok.inj (hpage.symm.trans hown)
  exact ⟨_, hpage, hids, (hiff hapart).mpr hopen⟩

def Sample.openPage : SourceFile :=
  ⟨"p.asp", encodeText "<%\nSub A()\nx = 1\n%>"⟩

/-- The page has four lines, and its routine ends on the fifth. -/
theorem open_routine_ends_behind_page :
    ∃ page, analyze Sample.openPage none = .ok page ∧
      page.nodes.map (fun n => (n.id, n.line?, (n.get? Key.endLine).bind Json.natural?)) =
        [("p.asp:A", some 2, some 5)] ∧
      lineCount Sample.openPage.bytes = 4 ∧
      ¬∀ n ∈ page.nodes, EndsOnPage Sample.openPage.bytes n := by
  have hpage : analyze Sample.openPage none = .ok (analyzeVb Sample.openPage) := by
    have hlanguage : language Sample.openPage.path Sample.openPage.bytes = .visualBasic := by
      decide +kernel
    rw [analyze, hlanguage]
  have hnodes : (analyzeVb Sample.openPage).nodes.map
      (fun n => (n.id, n.line?, (n.get? Key.endLine).bind Json.natural?)) =
        [("p.asp:A", some 2, some 5)] := by decide +kernel
  have hcount : lineCount Sample.openPage.bytes = 4 := by decide +kernel
  refine ⟨_, hpage, hnodes, hcount, fun hall => ?_⟩
  obtain ⟨n, hn, hlines⟩ := List.mem_map.mp (hnodes ▸ List.mem_singleton_self _)
  obtain ⟨-, last, -, hlast, -, hle⟩ := hall n hn
  obtain ⟨-, -, hend⟩ : _ ∧ _ ∧ (n.get? Key.endLine).bind Json.natural? = some 5 := by
    simpa using hlines
  rw [hlast] at hend
  have hfive : last = 5 := Option.some.inj hend
  omega

end Page

end CodeGraph
