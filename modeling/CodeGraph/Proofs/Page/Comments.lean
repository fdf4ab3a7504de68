import CodeGraph.Proofs.Page.Layout
import CodeGraph.Proofs.Page.Scanning

/-!
Comments of pages. The scan for blocks passes over a comment, so no block reaches into it, but
scripts are searched in the whole page, its comments included. The text of a comment is blanked
exactly if no script begins in it. The fragment of a page then does not depend on that text, apart
from the scripts and the language that are found on the page.
-/

namespace CodeGraph.Page

/-! ### Bytes in comments -/

/-- The scan meets a comment of `n` bytes at this offset, outside of scripts. -/
structure CommentAt (bytes : List UInt8) (offset n : Nat) : Prop where
  met : ∃ first, ⟨offset, .comment n, first⟩ ∈ metFrom 0 0 bytes
  outside : ∀ s ∈ scripts bytes, s.holds offset = false

/-- The byte at `i` stands between the delimiters of a comment of `n` bytes at this offset. -/
def InComment (offset n i : Nat) : Prop :=
  offset + 4 ≤ i ∧ i + 4 < offset + n

instance (offset n i : Nat) : Decidable (InComment offset n i) :=
  inferInstanceAs (Decidable (_ ∧ _))

section

variable {bytes : List UInt8} {offset n : Nat}

theorem not_inComment_of_lt {i : Nat} (h : i < offset + 4) : ¬ InComment offset n i :=
  fun hi => Nat.not_lt_of_le hi.1 h

theorem not_inComment_of_le {i : Nat} (h : offset + n ≤ i + 4) : ¬ InComment offset n i :=
  fun hi => Nat.not_lt_of_le h hi.2

theorem CommentAt.block? (h : CommentAt bytes offset n) :
    block? (bytes.drop offset) = some (.comment n) := by
  obtain ⟨first, hfirst⟩ := h.met
  obtain ⟨before, rest, rfl, -, hoffset, hblock⟩ := opensIn_of_mem_metFrom hfirst
  obtain rfl : offset = before.length := hoffset.trans (Nat.zero_add _)
  rwa [List.drop_left]

/-- There is no closing bracket in the opening of a comment. -/
theorem CommentAt.getElem?_ne_bracket (h : CommentAt bytes offset n) {i : Nat} (hi : i < 4) :
    bytes[offset + i]? ≠ some 62 := by
  obtain ⟨rest, hrest, ⟨text, rfl⟩, -⟩ := block?_eq_some_iff.mp h.block?
  rw [← List.getElem?_drop, hrest]
  match i, hi with
  | 0, _ | 1, _ | 2, _ | 3, _ => simp [opening, commentOpening]

/-- Blocks end before a comment or open behind it. -/
theorem CommentAt.apart (h : CommentAt bytes offset n) {r : Region} (hr : r ∈ blocks bytes) :
    r.stop ≤ offset ∨ offset + n ≤ r.start := by
  obtain ⟨first, hfirst⟩ := h.met
  rw [blocks, blocksFrom_eq_filterMap] at hr
  obtain ⟨m, hm, hregion⟩ := List.mem_filterMap.mp hr
  obtain ⟨k, hcode, -, hstop, hstart⟩ := code_of_region? hregion
  have hne : m ≠ ⟨offset, .comment n, first⟩ := by
    rintro rfl
    cases hcode
  have hapart := apart_of_mem_metFrom hm hfirst hne
  simp only [hcode, Block.size] at hapart
  omega

/-- A region reaches into a comment only as the body of a script that begins there. -/
theorem CommentAt.script_of_holds (h : CommentAt bytes offset n) {r : Region}
    (hr : r ∈ regions bytes) {i : Nat} (hi : InComment offset n i) (hholds : r.holds i = true) :
    r ∈ scripts bytes ∧ InComment offset n r.start := by
  obtain ⟨hopened, hclosed⟩ := hi
  rw [Region.holds_iff] at hholds
  rcases mem_regions.mp hr with hscript | hblock
  · refine ⟨hscript, ?_, by omega⟩
    have hopening := mt Region.holds_iff.mpr (Bool.eq_false_iff.mp (h.outside r hscript))
    obtain ⟨-, -, k, hk, hbracket⟩ := bounds_of_mem_scripts hscript
    by_contra hbefore
    obtain ⟨j, rfl⟩ := Nat.exists_eq_add_of_le (show offset ≤ k by omega)
    exact h.getElem?_ne_bracket (by omega) hbracket
  · have hapart := h.apart hblock
    omega

theorem CommentAt.blank_iff (h : CommentAt bytes offset n) :
    (∀ i, InComment offset n i → (regions bytes).any (·.holds i) = false) ↔
      ∀ s ∈ scripts bytes, s.start < s.stop → ¬ InComment offset n s.start := by
  constructor
  · intro hblank s hs hlt hstart
    have hnone := List.any_eq_false.mp (hblank s.start hstart) s (mem_regions.mpr (.inl hs))
    exact hnone (Region.holds_iff.mpr ⟨Nat.le_refl _, hlt⟩)
  · intro hscripts i hi
    refine List.any_eq_false.mpr fun r hr hholds => ?_
    obtain ⟨hscript, hstart⟩ := h.script_of_holds hr hi hholds
    obtain ⟨hle, hlt⟩ := Region.holds_iff.mp hholds
    exact hscripts r hscript (by omega) hstart

end

/-! ### What a fragment depends on -/

section

variable {bytes bytes' : List UInt8}

theorem blankByte_blankByte (b : UInt8) : Mask.blankByte (Mask.blankByte b) = Mask.blankByte b := by
  unfold Mask.blankByte
  split <;> rfl

theorem blank_maskMarkup (bytes : List UInt8) :
    Mask.blank (maskMarkup bytes) = Mask.blank bytes := by
  apply List.ext_getElem?
  intro i
  rw [Mask.blank, Mask.blank, List.getElem?_map, List.getElem?_map, maskMarkup_eq_keep,
    getElem?_keep, Option.map_map]
  congr 1
  funext b
  simp only [Function.comp_apply]
  split
  · rfl
  · exact blankByte_blankByte b

theorem slice_maskMarkup {r : Region} (hr : r ∈ regions bytes) :
    Seq.slice (maskMarkup bytes) r.start r.stop = Seq.slice bytes r.start r.stop := by
  refine slice_keep_of_inside fun i hstart hstop => List.any_eq_true.mpr ⟨r, hr, ?_⟩
  exact Region.holds_iff.mpr ⟨hstart, hstop⟩

theorem blank_slice (s : List UInt8) (start stop : Nat) :
    Mask.blank (Seq.slice s start stop) = Seq.slice (Mask.blank s) start stop := by
  simp only [Mask.blank, Seq.slice, List.map_take, List.map_drop]

theorem add?_congr (hblank : Mask.blank bytes' = Mask.blank bytes) {r : Region}
    (hcode : Seq.slice bytes' r.start r.stop = Seq.slice bytes r.start r.stop) (d : Draft) :
    d.add? bytes' r = d.add? bytes r := by
  simp only [Draft.add?, blank_slice, hblank, hcode]

theorem foldlM_add?_congr (hblank : Mask.blank bytes' = Mask.blank bytes) {rs : List Region}
    (hcode : ∀ r ∈ rs, Seq.slice bytes' r.start r.stop = Seq.slice bytes r.start r.stop)
    (d : Draft) : rs.foldlM (Draft.add? bytes') d = rs.foldlM (Draft.add? bytes) d := by
  induction rs generalizing d with
  | nil => rfl
  | cons r rs ih =>
      obtain ⟨hr, hrs⟩ := List.forall_mem_cons.mp hcode
      rw [List.foldlM_cons, List.foldlM_cons, add?_congr hblank hr]
      congr 1
      funext d'
      exact ih hrs d'

theorem finish_congr (hblank : Mask.blank bytes' = Mask.blank bytes) :
    Draft.finish bytes' = Draft.finish bytes := by
  have hdrop (s : List UInt8) (k : Nat) : Mask.blank (s.drop k) = (Mask.blank s).drop k :=
    List.map_drop
  funext d
  rw [Draft.finish, Draft.finish, hdrop, hdrop, hblank]

/-- The class body of a page is made of its regions and of the masked page. -/
theorem classBody?_congr (hregions : regions bytes' = regions bytes)
    (hmasked : maskMarkup bytes' = maskMarkup bytes) : classBody? bytes' = classBody? bytes := by
  have hblank : Mask.blank bytes' = Mask.blank bytes := by
    rw [← blank_maskMarkup bytes', hmasked, blank_maskMarkup]
  have hcode : ∀ r ∈ regions bytes,
      Seq.slice bytes' r.start r.stop = Seq.slice bytes r.start r.stop := by
    intro r hr
    rw [← slice_maskMarkup (hregions ▸ hr), hmasked, slice_maskMarkup hr]
  rw [classBody?, classBody?, hregions, foldlM_add?_congr hblank hcode, finish_congr hblank]

theorem analyze_congr {path : String} (hlanguage : language path bytes' = language path bytes)
    (hregions : regions bytes' = regions bytes) (hmasked : maskMarkup bytes' = maskMarkup bytes)
    (tree : Option Tree) : analyze ⟨path, bytes'⟩ tree = analyze ⟨path, bytes⟩ tree := by
  have hwrapped : wrappedCSharp? bytes' = wrappedCSharp? bytes :=
    congrArg (Option.map wrapCSharp) (classBody?_congr hregions hmasked)
  unfold analyze
  dsimp only
  rw [hlanguage]
  split
  · simp only [analyzeCSharp, hwrapped]
    rfl
  · simp only [analyzeVb, hmasked]

end

/-! ### Other texts for a comment -/

/-- The pages differ only between the delimiters of a comment. The line breaks are the same, and the
comment still ends at its closing. -/
structure Recommented (offset n : Nat) (bytes bytes' : List UInt8) : Prop where
  same : ∀ i, ¬ InComment offset n i → bytes'[i]? = bytes[i]?
  breaks : Mask.blank bytes' = Mask.blank bytes
  closed : block? (bytes'.drop offset) = some (.comment n)

section

variable {bytes bytes' : List UInt8} {offset n : Nat}

theorem Recommented.metFrom_eq (hnew : Recommented offset n bytes bytes')
    (h : CommentAt bytes offset n) : metFrom 0 0 bytes' = metFrom 0 0 bytes := by
  obtain ⟨first, hfirst⟩ := h.met
  have htake : bytes.take (offset + 1) = bytes'.take (offset + 1) := by
    apply List.ext_getElem?
    intro i
    rw [List.getElem?_take, List.getElem?_take]
    split
    case isTrue hi => exact (hnew.same i (not_inComment_of_lt (by omega))).symm
    case isFalse => rfl
  have hdrop : (bytes'.drop offset).drop n = (bytes.drop offset).drop n := by
    apply List.ext_getElem?
    intro i
    rw [List.drop_drop, List.drop_drop, List.getElem?_drop, List.getElem?_drop]
    exact hnew.same _ (not_inComment_of_le (by omega))
  have hhead : ((bytes'.drop offset).drop 2).head? = ((bytes.drop offset).drop 2).head? := by
    rw [List.head?_drop, List.head?_drop, List.getElem?_drop, List.getElem?_drop]
    exact hnew.same _ (not_inComment_of_lt (by omega))
  obtain ⟨before, hbefore, hbefore'⟩ :=
    exists_metFrom_eq_append hfirst (Nat.zero_add offset).symm htake
  rw [hbefore, hbefore', metFrom_of_closed _ h.block? (by simp),
    metFrom_of_closed _ hnew.closed (by simp), hhead]
  simp only [Block.size, hdrop]

theorem Recommented.regions_eq (hnew : Recommented offset n bytes bytes')
    (h : CommentAt bytes offset n) (hscripts : scripts bytes' = scripts bytes) :
    regions bytes' = regions bytes := by
  simp only [regions, blocksFrom_eq_filterMap, hscripts, hnew.metFrom_eq h]

theorem Recommented.maskMarkup_eq (hnew : Recommented offset n bytes bytes')
    (hregions : regions bytes' = regions bytes)
    (hblank : ∀ i, InComment offset n i → (regions bytes).any (·.holds i) = false) :
    maskMarkup bytes' = maskMarkup bytes := by
  apply List.ext_getElem?
  intro i
  rw [maskMarkup_eq_keep, maskMarkup_eq_keep, getElem?_keep, getElem?_keep, hregions]
  by_cases hi : InComment offset n i
  · rw [hblank i hi]
    have hbyte := congrArg (·[i]?) hnew.breaks
    simpa [Mask.blank] using hbyte
  · rw [hnew.same i hi]

end

/-- Only scripts that begin in a comment reach into it: its text is blanked exactly if there are
none. The fragment of the page is then the same for every other text of the comment with which
the same scripts and the same language are found. -/
theorem comment_blank_iff_no_script_begins {bytes : List UInt8} {offset n : Nat}
    (h : CommentAt bytes offset n) :
    (∀ r ∈ regions bytes, ∀ i, InComment offset n i → r.holds i = true →
        r ∈ scripts bytes ∧ InComment offset n r.start) ∧
      ((∀ i, InComment offset n i → (regions bytes).any (·.holds i) = false) ↔
        ∀ s ∈ scripts bytes, s.start < s.stop → ¬ InComment offset n s.start) ∧
      ((∀ s ∈ scripts bytes, s.start < s.stop → ¬ InComment offset n s.start) →
        (∀ i, InComment offset n i →
          (maskMarkup bytes)[i]? = bytes[i]?.map Mask.blankByte) ∧
        ∀ bytes', Recommented offset n bytes bytes' → scripts bytes' = scripts bytes →
          ∀ path, language path bytes' = language path bytes →
            wrappedCSharp? bytes' = wrappedCSharp? bytes ∧
              ∀ tree, analyze ⟨path, bytes'⟩ tree = analyze ⟨path, bytes⟩ tree) := by
  refine ⟨fun r hr i hi => h.script_of_holds hr hi, h.blank_iff, fun hscripts => ?_⟩
  have hblank := h.blank_iff.mpr hscripts
  constructor
  · intro i hi
    rw [maskMarkup_eq_keep, getElem?_keep, hblank i hi]
    rfl
  · intro bytes' hnew hsame path hlanguage
    have hregions := hnew.regions_eq h hsame
    have hmasked := hnew.maskMarkup_eq hregions hblank
    exact ⟨congrArg (Option.map wrapCSharp) (classBody?_congr hregions hmasked),
      analyze_congr hlanguage hregions hmasked⟩

def commentedPage (text : String) : List UInt8 :=
  encodeText ("<%--" ++ text ++ "--%>\n<% Sub B()\nEnd Sub %>")

/-- A block in a comment is as good as any other text. -/
theorem commentedPage_blank :
    CommentAt (commentedPage " Sub A() ") 0 17 ∧
      (∀ i, InComment 0 17 i → (maskMarkup (commentedPage " Sub A() "))[i]? =
        (commentedPage " Sub A() ")[i]?.map Mask.blankByte) ∧
      analyze ⟨"p.asp", commentedPage " <%= A%>-"⟩ none =
        analyze ⟨"p.asp", commentedPage " Sub A() "⟩ none := by
  have hscripts : scripts (commentedPage " Sub A() ") = [] := by decide +kernel
  have hcomment : CommentAt (commentedPage " Sub A() ") 0 17 :=
    ⟨⟨some 45, by decide +kernel⟩, by simp [hscripts]⟩
  have hnew : Recommented 0 17 (commentedPage " Sub A() ") (commentedPage " <%= A%>-") := by
    have hlength : (commentedPage " Sub A() ").length = 39 ∧
        (commentedPage " <%= A%>-").length = 39 := by decide +kernel
    have hsame : ∀ i < 39, ¬ InComment 0 17 i →
        (commentedPage " <%= A%>-")[i]? = (commentedPage " Sub A() ")[i]? := by decide +kernel
    refine ⟨fun i hi => ?_, by decide +kernel, by decide +kernel⟩
    by_cases hlt : i < 39
    · exact hsame i hlt hi
    · rw [List.getElem?_eq_none (by omega), List.getElem?_eq_none (by omega)]
  obtain ⟨-, -, hblank⟩ := comment_blank_iff_no_script_begins hcomment
  obtain ⟨hmasked, hsame⟩ := hblank (by simp [hscripts])
  refine ⟨hcomment, hmasked, ?_⟩
  exact (hsame _ hnew (by decide +kernel) "p.asp" (by decide +kernel)).2 none

/-- A page whose only routine stands in a script in a comment. -/
def outdatedPage : List UInt8 :=
  encodeText "<%--<script runat=server>\nSub A()\nB()\nEnd Sub\n</script>--%>"

theorem outdatedPage_not_blank :
    CommentAt outdatedPage 0 59 ∧ InComment 0 59 26 ∧
      (regions outdatedPage).any (·.holds 26) = true ∧
      (maskMarkup outdatedPage)[26]? = some 83 ∧
      language "p.asp" outdatedPage = .visualBasic ∧
      let f := analyzeVb ⟨"p.asp", outdatedPage⟩
      f.nodes.map Node.id = ["p.asp:A"] ∧ f.edges = [⟨"p.asp:A", "UNKNOWN:B", "CALLS"⟩] := by
  have hmet : metFrom 0 0 outdatedPage = [⟨0, .comment 59, some 45⟩] := by decide +kernel
  have hscripts : scripts outdatedPage = [⟨25, 46, .members⟩] := by decide +kernel
  have hregions : regions outdatedPage = [⟨25, 46, .members⟩] := by
    simp only [regions, hscripts, blocksFrom_eq_filterMap, hmet]
    exact List.mergeSort_singleton _
  have hmasked : maskMarkup outdatedPage =
      encodeText "                         \nSub A()\nB()\nEnd Sub\n             " := by
    rw [maskMarkup_eq_keep, hregions]
    decide +kernel
  refine ⟨⟨⟨some 45, by simp [hmet]⟩, ?_⟩, by decide, ?_, ?_, by decide +kernel, ?_⟩
  · rw [hscripts]
    decide
  · rw [hregions]
    decide
  · rw [hmasked]
    decide +kernel
  · unfold analyzeVb
    rw [hmasked]
    decide +kernel

end CodeGraph.Page
