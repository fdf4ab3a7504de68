import CodeGraph.Proofs.Page.Scanning
import Mathlib.Data.List.Chain

/-!
A grammar of pages without server scripts. A page is a sequence of segments: markup, comments,
directives, expressions and statements, and perhaps at the end a block that nothing closes. The scan
meets each block of such a page exactly once, and the regions of the page are the bodies of its
expressions and statements, as far as these are not empty.
-/

namespace CodeGraph.Page

/-! ### Segments -/

def directiveMark : UInt8 := 64

/-- The bytes `=`, `:` and `#` behind the opening of an expression. -/
def expressionMarks : List UInt8 := [61, 58, 35]

inductive Segment where
  | markup (text : List UInt8)
  | comment (text : List UInt8)
  | directive (text : List UInt8)
  | expression (mark : UInt8) (text : List UInt8)
  | statements (text : List UInt8)
  deriving DecidableEq, Repr

namespace Segment

def bytes : Segment → List UInt8
  | .markup text => text
  | .comment text => opening ++ (commentOpening ++ (text ++ commentClosing))
  | .directive text => opening ++ (directiveMark :: (text ++ closing))
  | .expression mark text => opening ++ (mark :: (text ++ closing))
  | .statements text => opening ++ (text ++ closing)

/-- The segment is read as what it is: nothing opens in markup, the others are closed by their own
closing and by nothing before it, and statements start like none of the others. -/
def WellFormed : Segment → Prop
  | .markup text => ¬ opening <:+: text
  | .comment text =>
      -- The dashes of the opening can be the dashes of a closing.
      Seq.FirstAt commentClosing (commentOpening ++ (text ++ commentClosing)) (2 + text.length)
  | .directive text => ¬ closing <:+: text
  | .expression mark text => mark ∈ expressionMarks ∧ ¬ closing <:+: text
  | .statements text =>
      ¬ closing <:+: text ∧ ¬ commentOpening <+: text ∧
        ∀ b ∈ text.head?, b ∉ directiveMark :: expressionMarks

instance : DecidablePred WellFormed
  | .markup text => inferInstanceAs (Decidable (¬ opening <:+: text))
  | .comment text =>
      inferInstanceAs (Decidable (Seq.FirstAt commentClosing
        (commentOpening ++ (text ++ commentClosing)) (2 + text.length)))
  | .directive text => inferInstanceAs (Decidable (¬ closing <:+: text))
  | .expression mark text =>
      inferInstanceAs (Decidable (mark ∈ expressionMarks ∧ ¬ closing <:+: text))
  | .statements text =>
      inferInstanceAs (Decidable (¬ closing <:+: text ∧ ¬ commentOpening <+: text ∧
        ∀ b ∈ text.head?, b ∉ directiveMark :: expressionMarks))

def isMarkup : Segment → Bool
  | .markup _ => true
  | _ => false

def code? : Segment → Option (Region.Kind × List UInt8)
  | .expression _ text => if text = [] then none else some (.expression, text)
  | .statements text => if text = [] then none else some (.statements, text)
  | .markup _ | .comment _ | .directive _ => none

def codeStart : Segment → Nat
  | .expression _ _ => 3
  | _ => 2

def span? (offset : Nat) (s : Segment) : Option Region :=
  s.code?.map fun (kind, text) =>
    ⟨offset + s.codeStart, offset + s.codeStart + text.length, kind⟩

def met? (offset : Nat) : Segment → Option Met
  | .markup _ => none
  | .comment text => some ⟨offset, .comment (2 + (2 + text.length) + 4), some 45⟩
  | .directive text => some ⟨offset, .code (text.length + 1), some directiveMark⟩
  | .expression mark text => some ⟨offset, .code (text.length + 1), some mark⟩
  | .statements text => some ⟨offset, .code text.length, (text ++ closing).head?⟩

end Segment

/-- A block or a comment at the end of a page that nothing closes. -/
inductive Unclosed where
  | code (text : List UInt8)
  | comment (text : List UInt8)
  deriving DecidableEq, Repr

namespace Unclosed

def bytes : Unclosed → List UInt8
  | .code text => opening ++ text
  | .comment text => opening ++ (commentOpening ++ text)

def WellFormed : Unclosed → Prop
  | .code text => ¬ commentOpening <+: text ∧ ¬ closing <:+: text
  | .comment text => ¬ commentClosing <:+: commentOpening ++ text

instance : DecidablePred WellFormed
  | .code text => inferInstanceAs (Decidable (¬ commentOpening <+: text ∧ ¬ closing <:+: text))
  | .comment text => inferInstanceAs (Decidable (¬ commentClosing <:+: commentOpening ++ text))

end Unclosed

/-- A page as its segments and what is not closed behind them. -/
structure Composition where
  segments : List Segment
  unclosed : Option Unclosed
  wellFormed : ∀ s ∈ segments, s.WellFormed
  /-- Markup is not cut into several segments. -/
  separate : segments.IsChain fun s t => ¬ (s.isMarkup ∧ t.isMarkup)
  wellFormed_unclosed : ∀ u ∈ unclosed, u.WellFormed

def renderAll (unclosed : Option Unclosed) : List Segment → List UInt8
  | [] => (unclosed.map Unclosed.bytes).getD []
  | s :: segments => s.bytes ++ renderAll unclosed segments

def spansFrom (offset : Nat) : List Segment → List Region
  | [] => []
  | s :: segments => (s.span? offset).toList ++ spansFrom (offset + s.bytes.length) segments

namespace Composition

def render (page : Composition) : List UInt8 :=
  renderAll page.unclosed page.segments

/-- The spans of the code of all segments. -/
def spans (page : Composition) : List Region :=
  spansFrom 0 page.segments

/-- The number of blocks, the unclosed one included. -/
def blockCount (page : Composition) : Nat :=
  page.segments.countP (!·.isMarkup) + page.unclosed.toList.length

end Composition

/-! ### The step over a segment -/

section

variable {rest : List UInt8}

/-- What can stand behind markup: a block or nothing. -/
def FollowsMarkup (rest : List UInt8) : Prop :=
  rest = [] ∨ opening <+: rest

theorem metFrom_markup {text : List UInt8} (offset : Nat) (h : ¬ opening <:+: text)
    (hrest : FollowsMarkup rest) :
    metFrom offset 0 (text ++ rest) = metFrom (offset + text.length) 0 rest := by
  refine metFrom_of_not_opening offset fun i hi hopening => ?_
  rcases hrest with rfl | ⟨behind, rfl⟩
  · rw [List.append_nil] at hopening
    exact h (hopening.isInfix.trans (List.drop_suffix i text).isInfix)
  · exact (Seq.firstAt_pair (by decide) h behind).before i hi hopening

/-- Two dashes in front of a closing stand in the text before it. -/
theorem not_commentOpening_prefix_append {text : List UInt8} (h : ¬ commentOpening <+: text)
    (rest : List UInt8) : ¬ commentOpening <+: text ++ (closing ++ rest) := by
  match text with
  | [] | [_] => simp [commentOpening, closing, List.cons_prefix_cons]
  | _ :: _ :: _ => simpa [commentOpening, List.cons_prefix_cons] using h

/-- The scan over a block that is followed by `rest`. -/
theorem metFrom_closed_append (offset : Nat) {text : List UInt8} {block : Block}
    (h : block? (text ++ rest) = some block) (hclosed : block ≠ .unclosed)
    (hsize : block.size = text.length) :
    metFrom offset 0 (text ++ rest) =
      ⟨offset, block, ((text ++ rest).drop 2).head?⟩ :: metFrom (offset + text.length) 0 rest := by
  rw [metFrom_of_closed offset h hclosed, hsize, List.drop_left]

theorem metFrom_code (offset : Nat) (text : List UInt8) (hclosing : ¬ closing <:+: text)
    (hcode : ¬ commentOpening <+: text) (rest : List UInt8) :
    metFrom offset 0 (opening ++ (text ++ closing) ++ rest) =
      ⟨offset, .code text.length, (text ++ closing).head?⟩ ::
        metFrom (offset + (opening ++ (text ++ closing)).length) 0 rest := by
  have hblock : block? (opening ++ (text ++ closing) ++ rest) = some (.code text.length) := by
    rw [List.append_assoc, List.append_assoc]
    exact block?_opening_eq_some_iff.mpr ⟨not_commentOpening_prefix_append hcode rest,
      Seq.firstAt_pair (by decide) hclosing rest⟩
  have hsize : (Block.code text.length).size = (opening ++ (text ++ closing)).length := by
    simp [opening, closing, Block.size]
  have hfirst : ((opening ++ (text ++ closing) ++ rest).drop 2).head? =
      (text ++ closing).head? := by
    cases text <;> rfl
  rw [← hfirst]
  exact metFrom_closed_append offset hblock (by simp) hsize

theorem metFrom_comment {text : List UInt8} (offset : Nat)
    (h : Seq.FirstAt commentClosing (commentOpening ++ (text ++ commentClosing)) (2 + text.length))
    (rest : List UInt8) :
    metFrom offset 0 (opening ++ (commentOpening ++ (text ++ commentClosing)) ++ rest) =
      ⟨offset, .comment (2 + (2 + text.length) + 4), some 45⟩ ::
        metFrom (offset + (opening ++ (commentOpening ++ (text ++ commentClosing))).length) 0
          rest := by
  refine metFrom_closed_append offset (block?_opening_eq_some_iff.mpr ?_) (by simp) ?_
  · exact ⟨List.prefix_append _ _, 2 + text.length, rfl, h.append rest⟩
  · simp only [Block.size, opening, commentOpening, commentClosing, List.length_append,
      List.length_cons, List.length_nil]
    omega

/-- A mark in front of the body of a block neither closes the block nor makes it a comment. -/
theorem metFrom_marked {mark : UInt8} {text : List UInt8} (offset : Nat)
    (hmark : mark ∈ directiveMark :: expressionMarks) (h : ¬ closing <:+: text)
    (rest : List UInt8) :
    metFrom offset 0 (opening ++ (mark :: (text ++ closing)) ++ rest) =
      ⟨offset, .code (text.length + 1), some mark⟩ ::
        metFrom (offset + (opening ++ (mark :: (text ++ closing))).length) 0 rest := by
  obtain ⟨hdash, hpercent⟩ : mark ≠ 45 ∧ mark ≠ 37 := by
    simp only [directiveMark, expressionMarks, List.mem_cons, List.not_mem_nil, or_false] at hmark
    rcases hmark with rfl | rfl | rfl | rfl <;> decide
  refine metFrom_code offset (mark :: text) ?_ ?_ rest
  · rw [List.infix_cons_iff, not_or]
    refine ⟨?_, h⟩
    rintro ⟨behind, hbehind⟩
    exact hpercent (List.cons.inj hbehind).1.symm
  · rintro ⟨behind, hbehind⟩
    exact hdash (List.cons.inj hbehind).1.symm

/-- The scan meets the block of a segment and goes on behind it. -/
theorem metFrom_segment {s : Segment} (offset : Nat) (h : s.WellFormed)
    (hrest : s.isMarkup → FollowsMarkup rest) :
    metFrom offset 0 (s.bytes ++ rest) =
      (s.met? offset).toList ++ metFrom (offset + s.bytes.length) 0 rest := by
  cases s with
  | markup text => exact metFrom_markup offset h (hrest rfl)
  | comment text => exact metFrom_comment offset h rest
  | directive text => exact metFrom_marked offset List.mem_cons_self h rest
  | expression mark text => exact metFrom_marked offset (List.mem_cons_of_mem _ h.1) h.2 rest
  | statements text => exact metFrom_code offset text h.1 h.2.1 rest

theorem regionOf?_expression {mark : UInt8} (offset n : Nat) (h : mark ∈ expressionMarks) :
    regionOf? offset (n + 1) (some mark) =
      if n = 0 then none else some ⟨offset + 3, offset + 3 + n, .expression⟩ := by
  have hstop : offset + 2 + (n + 1) = offset + 3 + n := by omega
  simp only [expressionMarks, List.mem_cons, List.not_mem_nil, or_false] at h
  rw [regionOf?, hstop]
  rcases h with rfl | rfl | rfl <;> cases n <;> simp

theorem regionOf?_statements {first : Option UInt8} (offset n : Nat)
    (h : ∀ b ∈ first, b ∉ directiveMark :: expressionMarks) :
    regionOf? offset n first =
      if n = 0 then none else some ⟨offset + 2, offset + 2 + n, .statements⟩ := by
  have hmark (b : UInt8) (hb : b ∈ directiveMark :: expressionMarks) : (first == some b) = false :=
    beq_false_of_ne fun hfirst => h b hfirst hb
  rw [regionOf?, hmark 64 (by decide), hmark 61 (by decide), hmark 58 (by decide),
    hmark 35 (by decide)]
  cases n <;> simp

/-- The region of the block of a segment is the span of its code. -/
theorem region?_met? {s : Segment} (offset : Nat) (h : s.WellFormed) :
    (s.met? offset).bind (Met.region? fun _ => false) = s.span? offset := by
  cases s with
  | markup text => rfl
  | comment text => rfl
  | directive text => rfl
  | expression mark text =>
      refine (regionOf?_expression offset text.length h.1).trans ?_
      cases text <;> rfl
  | statements text =>
      refine (regionOf?_statements offset text.length fun b hb => ?_).trans ?_
      · cases text with
        | nil =>
            obtain rfl : b = 37 := (Option.some.inj hb).symm
            decide
        | cons c text => exact h.2.2 b hb
      · cases text <;> rfl

end

/-! ### The run over a page -/

theorem followsMarkup_renderAll {unclosed : Option Unclosed} {segments : List Segment}
    (h : ∀ s ∈ segments.head?, s.isMarkup = false) :
    FollowsMarkup (renderAll unclosed segments) := by
  cases segments with
  | nil =>
      rcases unclosed with _ | text | text
      · exact .inl rfl
      · exact .inr (List.prefix_append _ _)
      · exact .inr (List.prefix_append _ _)
  | cons s segments =>
      have hblock := h s rfl
      right
      cases s with
      | markup text => cases hblock
      | _ => exact (List.prefix_append _ _).trans (List.prefix_append _ _)

theorem metFrom_unclosed {u : Unclosed} (offset : Nat) (h : u.WellFormed) :
    metFrom offset 0 u.bytes = [⟨offset, .unclosed, (u.bytes.drop 2).head?⟩] := by
  refine metFrom_of_unclosed offset ?_
  cases u with
  | code text =>
      refine block?_opening_eq_some_iff.mpr ?_
      rw [Block.Reads, if_neg h.1]
      exact h.2
  | comment text =>
      refine block?_opening_eq_some_iff.mpr ?_
      rw [Block.Reads, if_pos (List.prefix_append _ _)]
      exact h

/-- The run over all segments: it meets the code of each, and each block once. -/
theorem metFrom_renderAll {unclosed : Option Unclosed} {segments : List Segment} (offset : Nat)
    (hsegments : ∀ s ∈ segments, s.WellFormed)
    (hseparate : segments.IsChain fun s t => ¬ (s.isMarkup ∧ t.isMarkup))
    (hunclosed : ∀ u ∈ unclosed, u.WellFormed) :
    (metFrom offset 0 (renderAll unclosed segments)).filterMap (Met.region? fun _ => false) =
        spansFrom offset segments ∧
      (metFrom offset 0 (renderAll unclosed segments)).length =
        segments.countP (!·.isMarkup) + unclosed.toList.length := by
  induction segments generalizing offset with
  | nil =>
      cases unclosed with
      | none => exact ⟨rfl, rfl⟩
      | some u =>
          have hmet := metFrom_unclosed offset (hunclosed u rfl)
          rw [renderAll, Option.map_some, Option.getD_some, hmet]
          exact ⟨rfl, rfl⟩
  | cons s segments ih =>
      obtain ⟨hs, hsegments⟩ := List.forall_mem_cons.mp hsegments
      obtain ⟨hnext, hseparate⟩ := List.isChain_cons.mp hseparate
      have hrest : s.isMarkup → FollowsMarkup (renderAll unclosed segments) := by
        intro hmarkup
        refine followsMarkup_renderAll fun t ht => ?_
        exact Bool.eq_false_iff.mpr fun hmarkup' => hnext t ht ⟨hmarkup, hmarkup'⟩
      obtain ⟨hspans, hcount⟩ := ih (offset + s.bytes.length) hsegments hseparate
      rw [renderAll, metFrom_segment offset hs hrest]
      constructor
      · rw [List.filterMap_append, hspans, spansFrom, ← region?_met? offset hs]
        cases s.met? offset with
        | none => rfl
        | some m =>
            rw [Option.toList_some, List.filterMap_cons, Option.bind_some]
            cases Met.region? (fun _ => false) m <;> rfl
      · have hmet : (s.met? offset).toList.length = if (!s.isMarkup) = true then 1 else 0 := by
          cases s <;> rfl
        rw [List.length_append, hmet, hcount, List.countP_cons]
        omega

theorem exists_bytes_of_code? {s : Segment} {kind : Region.Kind} {text : List UInt8}
    (h : s.code? = some (kind, text)) :
    ∃ lead, s.bytes = lead ++ (text ++ closing) ∧ lead.length = s.codeStart := by
  cases s with
  | markup _ | comment _ | directive _ => cases h
  | expression mark body =>
      obtain ⟨-, heq⟩ := Option.ite_none_left_eq_some.mp h
      cases heq
      exact ⟨opening ++ [mark], rfl, rfl⟩
  | statements body =>
      obtain ⟨-, heq⟩ := Option.ite_none_left_eq_some.mp h
      cases heq
      exact ⟨opening, rfl, rfl⟩

/-- The spans of a page hold the code of its segments. -/
theorem map_slice_spansFrom (unclosed : Option Unclosed) (before : List UInt8)
    (segments : List Segment) :
    (spansFrom before.length segments).map (fun r =>
        (r.kind, Seq.slice (before ++ renderAll unclosed segments) r.start r.stop)) =
      segments.filterMap Segment.code? := by
  induction segments generalizing before with
  | nil => rfl
  | cons s segments ih =>
      have hrest := ih (before ++ s.bytes)
      rw [List.length_append, List.append_assoc] at hrest
      rw [spansFrom, renderAll, List.map_append, hrest, List.filterMap_cons, Segment.span?]
      cases hcode : s.code? with
      | none => rfl
      | some code =>
          obtain ⟨kind, text⟩ := code
          obtain ⟨lead, hbytes, hlead⟩ := exists_bytes_of_code? hcode
          have hslice := Seq.slice_append_append (before ++ lead) text
            (closing ++ renderAll unclosed segments)
          have htext : before ++ lead ++ (text ++ (closing ++ renderAll unclosed segments)) =
              before ++ (s.bytes ++ renderAll unclosed segments) := by
            simp only [hbytes, List.append_assoc]
          rw [htext, List.length_append, hlead] at hslice
          exact congrArg (fun code => (kind, code) :: segments.filterMap Segment.code?) hslice

/-! ### Regions -/

theorem regions_of_no_script {bytes : List UInt8} (h : scripts bytes = []) :
    regions bytes = blocksFrom (fun _ => false) 0 0 bytes := by
  have hsorted : (blocksFrom (fun _ => false) 0 0 bytes).Pairwise
      fun a b => decide (a.start ≤ b.start) = true := by
    refine List.Pairwise.imp_of_mem (fun {a b} ha _ hab => ?_) (pairwise_blocksFrom _ _ _ _)
    have hlt := (ofBlock_of_mem_blocksFrom ha).start_lt
    exact decide_eq_true (by omega)
  rw [regions, h]
  exact List.mergeSort_of_pairwise hsorted

/-- On a page in which no server script is found, the regions are exactly the spans of the code of
its segments, in order and with their kinds. The scan takes one round for each block. -/
theorem regions_render (page : Composition)
    (h : scriptPattern.all (Utf8.decode page.render) = []) :
    regions page.render = page.spans ∧
      (regions page.render).map (fun r => (r.kind, Seq.slice page.render r.start r.stop)) =
        page.segments.filterMap Segment.code? ∧
      (metFrom 0 0 page.render).length = page.blockCount := by
  have hscripts : scripts page.render = [] := by
    simp only [scripts, h, List.filterMap_nil, List.map_nil]
  obtain ⟨hspans, hcount⟩ :=
    metFrom_renderAll 0 page.wellFormed page.separate page.wellFormed_unclosed
  have hregions : regions page.render = page.spans := by
    rw [regions_of_no_script hscripts, blocksFrom_eq_filterMap]
    exact hspans
  refine ⟨hregions, ?_, hcount⟩
  rw [hregions]
  exact map_slice_spansFrom page.unclosed [] page.segments

/-- Markup that ends in a bracket, a comment with a block in it, a directive, an expression, an
expression without a body, statements that end in a percent sign, and a block without an end. -/
def composedPage : Composition where
  segments :=
    [.markup (Utf8.encode "<p><".toList), .comment (Utf8.encode " <% a %> -".toList),
      .directive (Utf8.encode " Page ".toList), .expression 61 (Utf8.encode "T".toList),
      .expression 35 [], .markup (Utf8.encode "\n".toList), .statements (Utf8.encode ">-%".toList)]
  unclosed := some (.code (Utf8.encode "= U".toList))
  wellFormed := by decide +kernel
  separate := by decide +kernel
  wellFormed_unclosed := by decide +kernel

theorem composedPage_regions :
    scriptPattern.all (Utf8.decode composedPage.render) = [] ∧
      regions composedPage.render = [⟨36, 37, .expression⟩, ⟨47, 50, .statements⟩] := by
  have hscripts : scriptPattern.all (Utf8.decode composedPage.render) = [] := by
    decide +kernel
  refine ⟨hscripts, (regions_render composedPage hscripts).1.trans ?_⟩
  decide +kernel

end CodeGraph.Page
