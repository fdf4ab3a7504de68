import CodeGraph.Proofs.Page.Layout
import CodeGraph.Proofs.Page.Unwrap
import CodeGraph.Proofs.Text.Lines
import CodeGraph.Proofs.Vb.Declarations

/-!
Lines of pages in Visual Basic. The lines of the wrapped code are the head of the wrapper, the
lines of the masked page and the end of the wrapper, so what the masked page declares on one line
is found on the next line of the wrapped code, and unwrapping moves it back. The main statement is
that every node of a page is declared on its own line of the masked page, which is the same line
of the page itself.
-/

namespace CodeGraph.Page

/-! ### Lines of wrapped code -/

def vbHead : List Char := "Module AspWrapper".toList

def vbEnd : List Char := "End Module".toList

def lineText (line : List UInt8) : List Char :=
  Chars.dropReturn (Utf8.lossy line)

theorem wrapVb_eq (body : List UInt8) :
    wrapVb body = Utf8.encode vbHead ++
      Mask.lf :: (body ++ Mask.lf :: (Utf8.encode vbEnd ++ [Mask.lf])) := by
  have hhead : encodeText "Module AspWrapper\n" = Utf8.encode vbHead ++ [Mask.lf] := by
    decide +kernel
  have hend : encodeText "\nEnd Module\n" = Mask.lf :: (Utf8.encode vbEnd ++ [Mask.lf]) := by
    decide +kernel
  rw [wrapVb, hhead, hend]
  simp only [List.append_assoc, List.cons_append, List.nil_append]

theorem splitOn_wrapVb (body : List UInt8) :
    Seq.splitOn (· == Mask.lf) (wrapVb body) =
      (Utf8.encode vbHead :: Seq.splitOn (· == Mask.lf) body ++ [Utf8.encode vbEnd]) ++ [[]] := by
  have hhead : Seq.splitOn (· == Mask.lf) (Utf8.encode vbHead) = [Utf8.encode vbHead] := by
    decide +kernel
  have hend : Seq.splitOn (· == Mask.lf) (Utf8.encode vbEnd) = [Utf8.encode vbEnd] := by
    decide +kernel
  rw [wrapVb_eq, Seq.splitOn_append_cons rfl, Seq.splitOn_append_cons rfl,
    Seq.splitOn_append_cons rfl, hhead, hend]
  simp [Seq.splitOn]

theorem lines_wrapVb (body : List UInt8) :
    Chars.lines (Utf8.lossy (wrapVb body)) =
      vbHead :: ((Seq.splitOn (· == Mask.lf) body).map lineText ++ [vbEnd]) := by
  have hhead : lineText (Utf8.encode vbHead) = vbHead := by decide +kernel
  have hend : lineText (Utf8.encode vbEnd) = vbEnd := by decide +kernel
  have hlast : Utf8.lossy [] = [] := Utf8.lossy_eq_nil_iff.mpr rfl
  have hpieces := Utf8.splitOn_lossy (wrapVb body)
  rw [splitOn_wrapVb, List.map_append] at hpieces
  rw [Chars.lines_eq hpieces, if_pos hlast, List.append_nil, List.map_map]
  show (Utf8.encode vbHead :: Seq.splitOn _ body ++ [Utf8.encode vbEnd]).map lineText = _
  rw [List.cons_append, List.map_cons, List.map_append, List.map_singleton, hhead, hend]

/-! ### Nodes of wrapped code -/

theorem not_declaredOn_vbEnd (n : Node) : ¬ Vb.DeclaredOn vbEnd n := by
  intro h
  exact absurd h.shape (by decide +kernel)

/-- The head of the wrapper gives the wrapper. -/
theorem each_step_vbHead (path : String) :
    (Vb.Blocks.step { path } vbHead 0).Each (·.id = vbWrapper path) := by
  have hshape : (Vb.shapeOf? Vb.typeStart (Vb.strip vbHead)).map
      (fun m => ((m.group? 1).isSome, (m.group? 2).map (·.string))) =
        some (true, some "AspWrapper") := by
    decide +kernel
  obtain ⟨m, hm, hgroups⟩ := Option.map_eq_some_iff.mp hshape
  obtain ⟨hkeyword, hname⟩ := Prod.mk.inj hgroups
  obtain ⟨keyword, hkeyword⟩ := Option.isSome_iff_exists.mp hkeyword
  obtain ⟨name, hname, hstring⟩ := Option.map_eq_some_iff.mp hname
  have hstep : Vb.Blocks.step { path } vbHead 0 =
      Vb.Blocks.openType { path } 0 keyword.string name.string := by
    simp only [Vb.Blocks.step, Vb.Blocks.outerLine, hm, hkeyword, hname]
  rw [hstep]
  refine (Fragment.each_empty _).addNode ?_
  show Ident.inFile path name.string = vbWrapper path
  rw [hstring, vbWrapper]

/-- The line of the code behind `i` line feeds declares the node. -/
def DeclaredIn (code : List UInt8) (i : Nat) (n : Node) : Prop :=
  ∃ line, (Seq.splitOn (· == Mask.lf) code)[i]? = some line ∧ Vb.DeclaredOn (lineText line) n

theorem lasting_wrapped (path : String) (code : List UInt8) :
    Vb.Lasting fun n =>
      n.id = vbWrapper path ∨ ∃ i, n.line? = some (i + 2) ∧ DeclaredIn code i n := by
  rintro n key count hkey (hid | ⟨i, hline, line, hi, hdeclared⟩)
  · exact .inl hid
  · exact .inr ⟨i, Vb.lasting_line? _ n key count hkey hline, line, hi,
      Vb.lasting_declaredOn _ n key count hkey hdeclared⟩

/-- A node of wrapped code is the wrapper, or it is declared by the code one line further up. -/
theorem each_analyze_wrapVb (path : String) (code : List UInt8) :
    (Vb.analyze ⟨path, wrapVb code⟩).Each fun n =>
      n.id = vbWrapper path ∨ ∃ i, n.line? = some (i + 2) ∧ DeclaredIn code i n := by
  rw [Vb.analyze, lines_wrapVb]
  refine Vb.each_fragmentOf_cons (lasting_wrapped path code)
    (fun n hn => .inl (each_step_vbHead path n hn)) fun i raw n hraw hnew => ?_
  have hlt : i < ((Seq.splitOn (· == Mask.lf) code).map lineText).length := by
    by_contra hge
    rw [List.getElem?_append_right (Nat.not_lt.mp hge)] at hraw
    obtain rfl := List.mem_singleton.mp (List.mem_of_getElem? hraw)
    exact not_declaredOn_vbEnd n hnew.declaredOn
  rw [List.getElem?_append_left hlt, List.getElem?_map] at hraw
  obtain ⟨line, hi, rfl⟩ := Option.map_eq_some_iff.mp hraw
  exact .inr ⟨i, hnew.line?, line, hi, hnew.declaredOn⟩

/-! ### Unwrapped nodes -/

theorem get?_liftLine_of_ne {n : Node} {key key' : String} (h : key' ≠ key) :
    (liftLine n key).get? key' = n.get? key' := by
  unfold liftLine
  split
  · exact Node.get?_set_of_ne h
  · rfl

theorem get?_unwrapNode {key : String} (hline : key ≠ Key.line) (hendLine : key ≠ Key.endLine)
    (path wrapper : String) (n : Node) : (unwrapNode path wrapper n).get? key = n.get? key := by
  unfold unwrapNode
  split <;> rw [liftLines, get?_liftLine_of_ne hendLine, get?_liftLine_of_ne hline]
  rfl

theorem line?_liftLines {n : Node} {number : Nat} (h : n.line? = some number) :
    (liftLines n).line? = some (max (number - 1) 1) := by
  have hmax : max ((number : Int) - 1) 1 = ((max (number - 1) 1 : Nat) : Int) := by omega
  rw [liftLines, Node.line?, get?_liftLine_of_ne (by decide), liftLine, show
    (n.get? Key.line).bind Json.natural? = some number from h, Node.get?_set_self, hmax]
  rfl

theorem line?_unwrapNode {n : Node} {number : Nat} (h : n.line? = some number)
    (path wrapper : String) :
    (unwrapNode path wrapper n).line? = some (max (number - 1) 1) := by
  unfold unwrapNode
  split <;> exact line?_liftLines h

theorem mem_nodes_unwrap {path wrapper : String} {f : Fragment} {n : Node}
    (h : n ∈ (unwrap path wrapper f).nodes) :
    ∃ m ∈ f.nodes, m.id ≠ wrapper ∧ unwrapNode path wrapper m = n := by
  rw [unwrap_eq_addAll, Fragment.nodes_addAll] at h
  refine List.foldlRecOn (motive := Fragment.Each fun n =>
    ∃ m ∈ f.nodes, m.id ≠ wrapper ∧ unwrapNode path wrapper m = n) _ _
    (Fragment.each_empty _) (fun _ hf n hn => hf.addNode ?_) n h
  obtain ⟨m, hm, rfl⟩ := List.mem_map.mp hn
  obtain ⟨hm, hid⟩ := List.mem_filter.mp hm
  exact ⟨m, hm, bne_iff_ne.mp hid, rfl⟩

/-! ### Lines of the page -/

/-- A piece that is not empty is one of the lines. -/
theorem lt_length_lines {bytes line : List UInt8} {i : Nat}
    (h : (Seq.splitOn (· == Mask.lf) bytes)[i]? = some line) (hline : line ≠ []) :
    i < (Chars.lines (Utf8.lossy bytes)).length := by
  have hpieces := Utf8.splitOn_lossy bytes
  obtain ⟨closed, last, hsplit⟩ : ∃ closed last,
      Seq.splitOn (· == Mask.lf) bytes = closed ++ [last] :=
    ⟨_, _, (List.dropLast_append_getLast (Seq.splitOn_ne_nil (· == Mask.lf) bytes)).symm⟩
  rw [hsplit] at h hpieces
  rw [List.map_append] at hpieces
  rw [Chars.lines_eq hpieces, List.length_append, List.length_map, List.length_map]
  by_cases hi : i < closed.length
  · omega
  · -- The last piece is a line unless it is empty.
    rw [List.getElem?_append_right (Nat.not_lt.mp hi)] at h
    obtain ⟨hlt, -⟩ := List.getElem?_eq_some_iff.mp h
    obtain rfl := List.mem_singleton.mp (List.mem_of_getElem? h)
    rw [if_neg fun hnil => hline (Utf8.lossy_eq_nil_iff.mp hnil)]
    rw [List.length_singleton] at hlt ⊢
    omega

/-- Masking moves no line break. -/
theorem map_length_splitOn_maskMarkup (bytes : List UInt8) :
    (Seq.splitOn (· == Mask.lf) (maskMarkup bytes)).map List.length =
      (Seq.splitOn (· == Mask.lf) bytes).map List.length := by
  rw [Seq.map_length_splitOn, Seq.map_length_splitOn _ bytes, maskMarkup_eq_keep, map_isLf_keep]

/-- A line of the masked page that is not empty is one of the lines of the page. -/
theorem lt_length_lines_of_masked {page line : List UInt8} {i : Nat}
    (h : (Seq.splitOn (· == Mask.lf) (maskMarkup page))[i]? = some line) (hline : line ≠ []) :
    i < (Chars.lines (Utf8.lossy page)).length := by
  -- The page has a line of the same length in this place.
  have hlength : ((Seq.splitOn (· == Mask.lf) page).map List.length)[i]? = some line.length := by
    rw [← map_length_splitOn_maskMarkup, List.getElem?_map, h]
    rfl
  rw [List.getElem?_map] at hlength
  obtain ⟨own, hown, hlength⟩ := Option.map_eq_some_iff.mp hlength
  refine lt_length_lines hown fun hnil => hline ?_
  rw [hnil, List.length_nil] at hlength
  exact List.eq_nil_of_length_eq_zero hlength.symm

/-- The node is declared on the line with this number of the masked page, which is a line of the
page and begins where that line of the page begins. -/
structure DeclaredAt (page : List UInt8) (number : Nat) (n : Node) : Prop where
  pos : 1 ≤ number
  le : number ≤ (Chars.lines (Utf8.lossy page)).length
  line : ∃ before line after, maskMarkup page = before ++ line ++ after ∧
    Seq.IsPiece (· == Mask.lf) before line after ∧
    (page.take before.length).count Mask.lf = number - 1 ∧ Vb.DeclaredOn (lineText line) n

theorem DeclaredIn.declaredAt {page : List UInt8} {i : Nat} {n : Node}
    (h : DeclaredIn (maskMarkup page) i n) : DeclaredAt page (i + 1) n := by
  obtain ⟨line, hi, hdeclared⟩ := h
  refine ⟨Nat.le_add_left 1 i, lt_length_lines_of_masked hi ?_, ?_⟩
  · rintro rfl
    exact Vb.not_declaredOn_nil n hdeclared
  · obtain ⟨before, after, hmasked, hpiece, hcount⟩ := Seq.isPiece_of_getElem?_splitOn hi
    refine ⟨before, line, after, hmasked, hpiece, ?_, hdeclared⟩
    rw [← count_take_keep (regions page), ← maskMarkup_eq_keep, hmasked, List.append_assoc,
      List.take_left]
    exact hcount

theorem DeclaredAt.unwrapNode {page : List UInt8} {number : Nat} {n : Node}
    (h : DeclaredAt page number n) (path wrapper : String) :
    DeclaredAt page number (unwrapNode path wrapper n) := by
  obtain ⟨hpos, hle, before, line, after, hmasked, hpiece, hcount, hdeclared⟩ := h
  refine ⟨hpos, hle, before, line, after, hmasked, hpiece, hcount, hdeclared.of_get?_eq ?_⟩
  intro key hkey
  have hother : ∀ key ∈ Vb.declaringKeys, key ≠ Key.line ∧ key ≠ Key.endLine := by decide
  exact get?_unwrapNode (hother key hkey).1 (hother key hkey).2 path wrapper n

/-- Every node of a page in Visual Basic is declared on its line. In the wrapped code it stands one
line further down, so moving it up by one line never meets the bound at the first line. -/
theorem analyze_declaredAt_line {f : SourceFile} (tree : Option Tree)
    (h : language f.path f.bytes = .visualBasic) :
    ∃ g, analyze f tree = .ok g ∧
      (∀ n ∈ g.nodes, ∃ number, n.line? = some number ∧ DeclaredAt f.bytes number n) ∧
      ∀ m ∈ (Vb.analyze ⟨f.path, wrapVb (maskMarkup f.bytes)⟩).nodes, m.id ≠ vbWrapper f.path →
        ∃ number, m.line? = some number ∧ max (number - 1) 1 = number - 1 ∧
          (unwrapNode f.path (vbWrapper f.path) m).line? = some (number - 1) := by
  have hwrapped : ∀ m ∈ (Vb.analyze ⟨f.path, wrapVb (maskMarkup f.bytes)⟩).nodes,
      m.id ≠ vbWrapper f.path →
        ∃ i, m.line? = some (i + 2) ∧ DeclaredIn (maskMarkup f.bytes) i m :=
    fun m hm hid => (each_analyze_wrapVb f.path (maskMarkup f.bytes) m hm).resolve_left hid
  have hclamp (i : Nat) : max (i + 2 - 1) 1 = i + 2 - 1 := by omega
  refine ⟨analyzeVb f, by rw [analyze, h], fun n hn => ?_, fun m hm hid => ?_⟩
  · obtain ⟨m, hm, hid, rfl⟩ := mem_nodes_unwrap hn
    obtain ⟨i, hline, hdeclared⟩ := hwrapped m hm hid
    refine ⟨i + 1, ?_, hdeclared.declaredAt.unwrapNode _ _⟩
    rw [line?_unwrapNode hline, hclamp]
    rfl
  · obtain ⟨i, hline, -⟩ := hwrapped m hm hid
    refine ⟨i + 2, hline, hclamp i, ?_⟩
    rw [line?_unwrapNode hline, hclamp]

/-- A page that starts with a broken character and declares a class and its method. -/
def brokenPage : SourceFile :=
  ⟨"p.asp", 0xff :: encodeText "\n<p>\r\n<%\nClass C\nSub A()\nEnd Sub\nEnd Class\n%>\n"⟩

theorem brokenPage_declaredAt_line :
    language brokenPage.path brokenPage.bytes = .visualBasic ∧
      (Chars.lines (Utf8.lossy brokenPage.bytes)).length = 8 ∧
      (analyzeVb brokenPage).nodes.map (fun n => (n.id, n.line?)) =
        [("p.asp:C", some 4), ("p.asp:C:A", some 5)] ∧
      ∃ g, analyze brokenPage none = .ok g ∧
        (∀ n ∈ g.nodes, ∃ number, n.line? = some number ∧
          DeclaredAt brokenPage.bytes number n) ∧
        ∀ m ∈ (Vb.analyze ⟨brokenPage.path, wrapVb (maskMarkup brokenPage.bytes)⟩).nodes,
          m.id ≠ vbWrapper brokenPage.path →
            ∃ number, m.line? = some number ∧ max (number - 1) 1 = number - 1 ∧
              (unwrapNode brokenPage.path (vbWrapper brokenPage.path) m).line? =
                some (number - 1) := by
  have hlanguage : language brokenPage.path brokenPage.bytes = .visualBasic := by decide +kernel
  refine ⟨hlanguage, by decide +kernel, by decide +kernel, ?_⟩
  exact analyze_declaredAt_line none hlanguage

end CodeGraph.Page
