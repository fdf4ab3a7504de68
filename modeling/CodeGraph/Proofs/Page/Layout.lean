import CodeGraph.Page.Analysis
import CodeGraph.Proofs.Page.Regions
import Mathlib.Data.List.Basic

/-!
The class body of a page as a sequence of pieces: stretches of blanked markup, the regions, and the
texts that are inserted between them. Without the insertions the pieces are the masked page.
Insertions hold no line breaks and stand only where a region begins or ends, or at the end, so code
keeps its line; and methods for blocks are opened and closed in turn, with no script inside.
-/

namespace CodeGraph

namespace Page

/-! ### The masked page -/

/-- The bytes of a page that lie in one of the regions, and blanks for all others. -/
def keep (rs : List Region) (bytes : List UInt8) : List UInt8 :=
  bytes.zipIdx.map fun (b, i) => if rs.any (·.holds i) then b else Mask.blankByte b

theorem maskMarkup_eq_keep (bytes : List UInt8) : maskMarkup bytes = keep (regions bytes) bytes :=
  rfl

theorem getElem?_keep (rs : List Region) (bytes : List UInt8) (i : Nat) :
    (keep rs bytes)[i]? =
      bytes[i]?.map fun b => if rs.any (·.holds i) then b else Mask.blankByte b := by
  rw [keep, List.getElem?_map, List.getElem?_zipIdx, Option.map_map, Nat.zero_add]
  rfl

@[simp] theorem slice_keep_of_outside {rs : List Region} {bytes : List UInt8} {start stop : Nat}
    (h : ∀ i, start ≤ i → i < stop → rs.any (·.holds i) = false) :
    Seq.slice (keep rs bytes) start stop = Mask.blank (Seq.slice bytes start stop) := by
  apply List.ext_getElem?
  intro i
  rw [Mask.blank, List.getElem?_map, Seq.getElem?_slice, Seq.getElem?_slice]
  split
  case isTrue hi =>
    rw [getElem?_keep, h (start + i) (by omega) (by omega)]
    rfl
  case isFalse => rfl

theorem slice_keep_of_inside {rs : List Region} {bytes : List UInt8} {start stop : Nat}
    (h : ∀ i, start ≤ i → i < stop → rs.any (·.holds i) = true) :
    Seq.slice (keep rs bytes) start stop = Seq.slice bytes start stop := by
  apply List.ext_getElem?
  intro i
  rw [Seq.getElem?_slice, Seq.getElem?_slice]
  split
  case isTrue hi =>
    rw [getElem?_keep, h (start + i) (by omega) (by omega)]
    exact Option.map_id'
  case isFalse => rfl

theorem drop_keep_cons {r : Region} {position : Nat} (h : r.stop ≤ position) (rs : List Region)
    (bytes : List UInt8) :
    (keep (r :: rs) bytes).drop position = (keep rs bytes).drop position := by
  apply List.ext_getElem?
  intro i
  have hr : r.holds (position + i) = false := by
    rw [Bool.eq_false_iff, Ne, Region.holds_iff]
    omega
  rw [List.getElem?_drop, List.getElem?_drop, getElem?_keep, getElem?_keep, List.any_cons, hr,
    Bool.false_or]

/-- Behind a position, the masked page is markup up to the next region, that region, and then the
page masked for the regions that follow. -/
theorem drop_keep_eq {r : Region} {rs : List Region} (bytes : List UInt8) {position : Nat}
    (hposition : position ≤ r.start) (horder : r.start ≤ r.stop) (hdisjoint : Disjoint (r :: rs)) :
    (keep (r :: rs) bytes).drop position =
      Mask.blank (Seq.slice bytes position r.start) ++ (Seq.slice bytes r.start r.stop ++
        (keep rs bytes).drop r.stop) := by
  have hafter : ∀ r' ∈ rs, r.stop ≤ r'.start := (List.pairwise_cons.mp hdisjoint).1
  rw [← Seq.slice_append_drop _ hposition, ← Seq.slice_append_drop _ horder,
    drop_keep_cons (Nat.le_refl _), slice_keep_of_outside, slice_keep_of_inside]
  · intro i hstart hstop
    rw [List.any_cons, Bool.or_eq_true]
    exact .inl (Region.holds_iff.mpr ⟨hstart, hstop⟩)
  · intro i _ hi
    rw [List.any_eq_false]
    intro r' hr'
    have hle : r.start ≤ r'.start := by
      rcases List.mem_cons.mp hr' with rfl | hr'
      · exact Nat.le_refl _
      · exact Nat.le_trans horder (hafter r' hr')
    rw [Region.holds_iff]
    omega

theorem keep_nil (bytes : List UInt8) : keep [] bytes = Mask.blank bytes := by
  apply List.ext_getElem?
  intro i
  rw [getElem?_keep, Mask.blank, List.getElem?_map]
  rfl

theorem blankByte_eq_lf (b : UInt8) : (Mask.blankByte b == Mask.lf) = (b == Mask.lf) := by
  unfold Mask.blankByte
  split
  case isTrue => rfl
  case isFalse h =>
    have hb : (b == Mask.lf) = false := by
      simp only [Mask.isBreak, Bool.or_eq_true, not_or, Bool.not_eq_true] at h
      exact h.1
    rw [hb]
    rfl

/-- Masking keeps line feeds where they are. -/
theorem map_isLf_keep (rs : List Region) (bytes : List UInt8) :
    (keep rs bytes).map (· == Mask.lf) = bytes.map (· == Mask.lf) := by
  apply List.ext_getElem?
  intro i
  rw [List.getElem?_map, List.getElem?_map, getElem?_keep, Option.map_map]
  congr 1
  funext b
  simp only [Function.comp_apply]
  split
  · rfl
  · exact blankByte_eq_lf b

theorem count_eq_of_map_isLf_eq {xs ys : List UInt8}
    (h : xs.map (· == Mask.lf) = ys.map (· == Mask.lf)) : xs.count Mask.lf = ys.count Mask.lf := by
  have hcount (zs : List UInt8) : zs.count Mask.lf = (zs.map (· == Mask.lf)).countP id := by
    rw [List.countP_map]
    rfl
  rw [hcount, hcount, h]

theorem count_take_keep (rs : List Region) (bytes : List UInt8) (n : Nat) :
    ((keep rs bytes).take n).count Mask.lf = (bytes.take n).count Mask.lf := by
  apply count_eq_of_map_isLf_eq
  rw [List.map_take, List.map_take, map_isLf_keep]

/-! ### Pieces -/

inductive Insertion where
  /-- Opens a method for blocks. -/
  | head
  /-- Assigns an expression to nothing. -/
  | discard
  /-- Ends such an assignment. -/
  | semicolon
  /-- Closes the method for blocks. -/
  | brace
  deriving DecidableEq, Repr

def Insertion.text : Insertion → List UInt8
  | head => inlineHead
  | discard => Page.discard
  | semicolon => [Page.semicolon]
  | brace => [Page.brace]

theorem Insertion.isBreak_eq_false (i : Insertion) : ∀ b ∈ i.text, Mask.isBreak b = false := by
  cases i <;> decide +kernel

/-- A piece of a class body. -/
inductive Piece where
  /-- The markup of the page from one byte up to another. -/
  | markup (start stop : Nat)
  | code (r : Region)
  | inserted (i : Insertion)
  deriving DecidableEq, Repr

namespace Piece

def text (bytes : List UInt8) : Piece → List UInt8
  | markup start stop => Mask.blank (Seq.slice bytes start stop)
  | code r => Seq.slice bytes r.start r.stop
  | inserted i => i.text

def region? : Piece → Option Region
  | code r => some r
  | _ => none

def insertion? : Piece → Option Insertion
  | inserted i => some i
  | _ => none

/-- Whether a piece comes from the page. -/
def ofPage (p : Piece) : Bool :=
  p.insertion?.isNone

end Piece

def textOf (bytes : List UInt8) (ps : List Piece) : List UInt8 :=
  ps.flatMap (Piece.text bytes)

def pageText (bytes : List UInt8) (ps : List Piece) : List UInt8 :=
  textOf bytes (ps.filter Piece.ofPage)

def methodMarks (ps : List Piece) : List Insertion :=
  (ps.filterMap Piece.insertion?).filter fun i => i == .head || i == .brace

/-- Closes a method for blocks in front of a script, or opens one in front of a block; `inline` says
whether one is open. -/
def switchPieces (inline : Bool) (kind : Region.Kind) : List Piece :=
  if kind = .members then (if inline then [.inserted .brace] else [])
  else if inline then [] else [.inserted .head]

def codePieces (r : Region) : List Piece :=
  if r.kind = .expression then [.inserted .discard, .code r, .inserted .semicolon] else [.code r]

def regionPieces (inline : Bool) (r : Region) : List Piece :=
  switchPieces inline r.kind ++ codePieces r

/-- The pieces of a page of `length` bytes from a position on. -/
def pieces (length position : Nat) (inline : Bool) : List Region → List Piece
  | [] => .markup position length :: if inline then [.inserted .brace] else []
  | r :: rs =>
      .markup position r.start ::
        (regionPieces inline r ++ pieces length r.stop (r.kind != .members) rs)

@[simp] theorem textOf_append (bytes : List UInt8) (ps qs : List Piece) :
    textOf bytes (ps ++ qs) = textOf bytes ps ++ textOf bytes qs :=
  List.flatMap_append

@[simp] theorem textOf_cons (bytes : List UInt8) (p : Piece) (ps : List Piece) :
    textOf bytes (p :: ps) = p.text bytes ++ textOf bytes ps :=
  List.flatMap_cons

@[simp] theorem pageText_append (bytes : List UInt8) (ps qs : List Piece) :
    pageText bytes (ps ++ qs) = pageText bytes ps ++ pageText bytes qs := by
  rw [pageText, List.filter_append, textOf_append]
  rfl

@[simp] theorem pageText_markup (bytes : List UInt8) (start stop : Nat) (ps : List Piece) :
    pageText bytes (.markup start stop :: ps) =
      Mask.blank (Seq.slice bytes start stop) ++ pageText bytes ps :=
  rfl

@[simp] theorem pageText_code (bytes : List UInt8) (r : Region) (ps : List Piece) :
    pageText bytes (.code r :: ps) = Seq.slice bytes r.start r.stop ++ pageText bytes ps :=
  rfl

@[simp] theorem pageText_inserted (bytes : List UInt8) (i : Insertion) (ps : List Piece) :
    pageText bytes (.inserted i :: ps) = pageText bytes ps :=
  rfl

@[simp] theorem pageText_nil (bytes : List UInt8) : pageText bytes [] = [] :=
  rfl

theorem out_addCode (d : Draft) (bytes : List UInt8) (r : Region) :
    (d.addCode r.kind (Seq.slice bytes r.start r.stop)).out =
      d.out ++ textOf bytes (regionPieces d.inline r) := by
  unfold Draft.addCode regionPieces switchPieces codePieces
  cases r.kind <;> cases d.inline <;> simp [textOf, Piece.text, Insertion.text]

theorem inline_addCode (d : Draft) (kind : Region.Kind) (code : List UInt8) :
    (d.addCode kind code).inline = (kind != .members) := by
  cases kind <;> rfl

/-- A finished draft is what it held, followed by the pieces of the regions that were added. -/
theorem finish_eq_of_foldlM {bytes : List UInt8} {rs : List Region} {d e : Draft}
    (h : rs.foldlM (Draft.add? bytes) d = some e) :
    e.finish bytes = d.out ++ textOf bytes (pieces bytes.length d.position d.inline rs) := by
  induction rs generalizing d with
  | nil =>
      obtain rfl : d = e := Option.some.inj h
      unfold Draft.finish pieces
      cases d.inline <;> simp [textOf, Piece.text, Insertion.text, Seq.slice_length]
  | cons r rs ih =>
      rw [List.foldlM_cons] at h
      obtain ⟨d', hadd, h⟩ := Option.bind_eq_some_iff.mp h
      unfold Draft.add? at hadd
      split at hadd
      case isFalse => cases hadd
      case isTrue =>
        cases hadd
        rw [ih h, pieces, textOf_cons, textOf_append]
        dsimp only
        rw [out_addCode, inline_addCode]
        simp only [List.append_assoc]
        rfl

/-! ### What the pieces of a page have in common -/

theorem pageText_regionPieces (bytes : List UInt8) (inline : Bool) (r : Region) :
    pageText bytes (regionPieces inline r) = Seq.slice bytes r.start r.stop := by
  unfold regionPieces switchPieces codePieces
  cases r.kind <;> cases inline <;> simp

theorem pageText_pieces {bytes : List UInt8} {rs : List Region}
    (horder : ∀ r ∈ rs, r.start ≤ r.stop) (hdisjoint : Disjoint rs) {position : Nat}
    (hposition : ∀ r ∈ rs, position ≤ r.start) (inline : Bool) :
    pageText bytes (pieces bytes.length position inline rs) = (keep rs bytes).drop position := by
  induction rs generalizing position inline with
  | nil =>
      rw [keep_nil, pieces]
      cases inline <;> simp [Seq.slice_length, Mask.blank]
  | cons r rs ih =>
      obtain ⟨hr, hrest⟩ := List.forall_mem_cons.mp horder
      obtain ⟨hafter, hdisjoint'⟩ := List.pairwise_cons.mp hdisjoint
      rw [drop_keep_eq bytes (hposition r List.mem_cons_self) hr hdisjoint, pieces,
        ← ih hrest hdisjoint' hafter (r.kind != .members), ← pageText_regionPieces bytes inline r,
        ← pageText_append]
      rfl

theorem regions_pieces (length position : Nat) (inline : Bool) (rs : List Region) :
    (pieces length position inline rs).filterMap Piece.region? = rs := by
  induction rs generalizing position inline with
  | nil => cases inline <;> rfl
  | cons r rs ih =>
      have hregion : (regionPieces inline r).filterMap Piece.region? = [r] := by
        unfold regionPieces switchPieces codePieces
        cases r.kind <;> cases inline <;> rfl
      rw [pieces, List.filterMap_cons_none rfl, List.filterMap_append, hregion, ih]
      rfl

/-- Methods for blocks are opened and closed in turn; one that is open is closed first. -/
theorem methodMarks_pieces (length position : Nat) (inline : Bool) (rs : List Region) :
    ∃ n, methodMarks (pieces length position inline rs) =
      (if inline then [.brace] else []) ++ (List.replicate n [.head, .brace]).flatten := by
  induction rs generalizing position inline with
  | nil => exact ⟨0, by cases inline <;> rfl⟩
  | cons r rs ih =>
      obtain ⟨n, hn⟩ := ih r.stop (r.kind != .members)
      have hcons : methodMarks (pieces length position inline (r :: rs)) =
          methodMarks (regionPieces inline r) ++
            methodMarks (pieces length r.stop (r.kind != .members) rs) := by
        rw [pieces, methodMarks, List.filterMap_cons_none rfl, List.filterMap_append,
          List.filter_append]
        rfl
      rw [hcons, hn]
      unfold regionPieces switchPieces codePieces
      cases r.kind with
      | members => exact ⟨n, by cases inline <;> rfl⟩
      | statements | expression =>
          cases inline with
          | true => exact ⟨n, rfl⟩
          | false => exact ⟨n + 1, by rw [List.replicate_succ]; rfl⟩

/-! ### What is in front of a piece -/

/-- By how much openings of a method for blocks outnumber closings. -/
def depth (ps : List Piece) : Int :=
  ps.count (.inserted .head) - ps.count (.inserted .brace)

@[simp] theorem depth_append (ps qs : List Piece) : depth (ps ++ qs) = depth ps + depth qs := by
  simp only [depth, List.count_append]
  omega

/-- What is true of a piece behind others: code stands at its own place of the page, and exactly
the code of blocks is inside a method for blocks; insertions stand where a region begins or ends
or at the end of the page, and no method is opened inside another. -/
def Fits (rs : List Region) (bytes : List UInt8) (before : List Piece) : Piece → Prop
  | .markup _ _ => True
  | .code r =>
      (pageText bytes before).length = r.start ∧
        depth before = if r.kind = .members then 0 else 1
  | .inserted i =>
      ((pageText bytes before).length = bytes.length ∨
        ∃ r ∈ rs, (pageText bytes before).length = r.start ∨
          (pageText bytes before).length = r.stop) ∧
        (i = .head → depth before = 0)

def FitsAll (rs : List Region) (bytes : List UInt8) : List Piece → List Piece → Prop
  | _, [] => True
  | seen, p :: ps => Fits rs bytes seen p ∧ FitsAll rs bytes (seen ++ [p]) ps

variable {rs : List Region} {bytes : List UInt8}

theorem fitsAll_append {seen ps qs : List Piece} :
    FitsAll rs bytes seen (ps ++ qs) ↔
      FitsAll rs bytes seen ps ∧ FitsAll rs bytes (seen ++ ps) qs := by
  induction ps generalizing seen with
  | nil => simp [FitsAll]
  | cons p ps ih => simp [FitsAll, ih, and_assoc]

theorem FitsAll.at_piece {seen before after : List Piece} {p : Piece}
    (h : FitsAll rs bytes seen (before ++ p :: after)) : Fits rs bytes (seen ++ before) p :=
  (fitsAll_append.mp h).2.1

theorem depth_switchPieces (inline : Bool) (kind : Region.Kind) :
    depth (switchPieces inline kind) =
      (if kind = .members then 0 else 1) - if inline then 1 else 0 := by
  cases kind <;> cases inline <;> rfl

theorem depth_codePieces (r : Region) : depth (codePieces r) = 0 := by
  unfold codePieces
  split <;> simp [depth]

theorem fitsAll_switchPieces {seen : List Piece} {r : Region} (hr : r ∈ rs) {inline : Bool}
    (hlength : (pageText bytes seen).length = r.start)
    (hdepth : depth seen = if inline then 1 else 0) :
    FitsAll rs bytes seen (switchPieces inline r.kind) := by
  have hboundary : ∃ r' ∈ rs, (pageText bytes seen).length = r'.start ∨
      (pageText bytes seen).length = r'.stop := ⟨r, hr, .inl hlength⟩
  unfold switchPieces
  split_ifs with hkind hinline
  · exact ⟨⟨.inr hboundary, fun h => by cases h⟩, trivial⟩
  · trivial
  · trivial
  · exact ⟨⟨.inr hboundary, fun _ => by rw [hdepth, if_neg ‹_›]⟩, trivial⟩

theorem fitsAll_codePieces {seen : List Piece} {r : Region} (hr : r ∈ rs)
    (horder : r.start ≤ r.stop) (hstop : r.stop ≤ bytes.length)
    (hlength : (pageText bytes seen).length = r.start)
    (hdepth : depth seen = if r.kind = .members then 0 else 1) :
    FitsAll rs bytes seen (codePieces r) := by
  unfold codePieces
  split
  case isFalse => exact ⟨⟨hlength, hdepth⟩, trivial⟩
  case isTrue =>
    have hdiscard : (pageText bytes (seen ++ [.inserted .discard])).length = r.start := by
      simpa using hlength
    have hcode : (pageText bytes (seen ++ [.inserted .discard] ++ [.code r])).length = r.stop := by
      rw [pageText_append, List.length_append, hdiscard, pageText_code, pageText_nil,
        List.append_nil, Seq.length_slice hstop]
      omega
    have hdepth' : depth (seen ++ [.inserted .discard]) = depth seen := by simp [depth]
    refine ⟨⟨.inr ⟨r, hr, .inl hlength⟩, fun h => by cases h⟩, ⟨hdiscard, hdepth'.trans hdepth⟩,
      ⟨.inr ⟨r, hr, .inr hcode⟩, fun h => by cases h⟩, trivial⟩

/-- The step over one region: behind its pieces the page is covered up to its end, and a method is
open exactly behind the code of blocks. -/
theorem fitsAll_regionPieces {seen : List Piece} {r : Region} (hr : r ∈ rs)
    (horder : r.start ≤ r.stop) (hstop : r.stop ≤ bytes.length) {inline : Bool}
    (hlength : (pageText bytes seen).length = r.start)
    (hdepth : depth seen = if inline then 1 else 0) :
    FitsAll rs bytes seen (regionPieces inline r) ∧
      (pageText bytes (seen ++ regionPieces inline r)).length = r.stop ∧
      depth (seen ++ regionPieces inline r) = if r.kind != .members then 1 else 0 := by
  have hopen : depth (seen ++ switchPieces inline r.kind) =
      if r.kind = .members then 0 else 1 := by
    rw [depth_append, hdepth, depth_switchPieces]
    omega
  have hbefore : (pageText bytes (seen ++ switchPieces inline r.kind)).length = r.start := by
    rw [pageText_append, List.length_append, hlength]
    unfold switchPieces
    split_ifs <;> rfl
  refine ⟨fitsAll_append.mpr ⟨fitsAll_switchPieces hr hlength hdepth,
    fitsAll_codePieces hr horder hstop hbefore hopen⟩, ?_, ?_⟩
  · rw [pageText_append, pageText_regionPieces, List.length_append, hlength,
      Seq.length_slice hstop]
    omega
  · rw [regionPieces, ← List.append_assoc, depth_append, hopen, depth_codePieces]
    cases r.kind <;> rfl

/-- The run over all regions. -/
theorem fitsAll_pieces {todo : List Region} (htodo : todo ⊆ rs)
    (hbounds : ∀ r ∈ todo, r.start ≤ r.stop ∧ r.stop ≤ bytes.length) (hdisjoint : Disjoint todo)
    {position : Nat} (hposition : ∀ r ∈ todo, position ≤ r.start) (hle : position ≤ bytes.length)
    {seen : List Piece} {inline : Bool} (hlength : (pageText bytes seen).length = position)
    (hdepth : depth seen = if inline then 1 else 0) :
    FitsAll rs bytes seen (pieces bytes.length position inline todo) := by
  -- Markup up to any byte covers the page up to there and opens nothing.
  have hmarkup {seen : List Piece} {position : Nat} (stop : Nat)
      (hlength : (pageText bytes seen).length = position) (hle : position ≤ stop)
      (hstop : stop ≤ bytes.length) :
      (pageText bytes (seen ++ [.markup position stop])).length = stop := by
    rw [pageText_append, List.length_append, hlength, pageText_markup, pageText_nil,
      List.append_nil, Mask.blank, List.length_map, Seq.length_slice hstop]
    omega
  induction todo generalizing position seen inline with
  | nil =>
      refine ⟨trivial, ?_⟩
      cases inline with
      | false => trivial
      | true =>
          have hend := hmarkup bytes.length hlength hle (Nat.le_refl _)
          exact ⟨⟨.inl hend, fun h => by cases h⟩, trivial⟩
  | cons r todo ih =>
      obtain ⟨hr, hrest⟩ := List.cons_subset.mp htodo
      obtain ⟨⟨horder, hstop⟩, hbounds⟩ := List.forall_mem_cons.mp hbounds
      obtain ⟨hafter, hdisjoint⟩ := List.pairwise_cons.mp hdisjoint
      have hbefore := hmarkup r.start hlength (hposition r List.mem_cons_self) (by omega)
      have hdepth' : depth (seen ++ [.markup position r.start]) = if inline then 1 else 0 := by
        rw [depth_append, hdepth]
        exact Int.add_zero _
      obtain ⟨hfits, hbehind, hopen⟩ := fitsAll_regionPieces hr horder hstop hbefore hdepth'
      refine ⟨trivial, fitsAll_append.mpr ⟨hfits, ?_⟩⟩
      exact ih hrest hbounds hdisjoint hafter hstop hbehind hopen

/-! ### Rows -/

theorem count_textOf (bytes : List UInt8) (ps : List Piece) :
    (textOf bytes ps).count Mask.lf = (pageText bytes ps).count Mask.lf := by
  induction ps with
  | nil => rfl
  | cons p ps ih =>
      rw [textOf_cons, List.count_append, ih]
      cases p with
      | markup start stop => rw [pageText_markup, List.count_append, Piece.text]
      | code r => rw [pageText_code, List.count_append, Piece.text]
      | inserted i =>
          have hnone : Mask.lf ∉ i.text := fun h => by
            have hbreak := i.isBreak_eq_false _ h
            cases hbreak
          rw [pageText_inserted, Piece.text, List.count_eq_zero.mpr hnone, Nat.zero_add]

def csharpHead : List UInt8 := encodeText "class AspPage \x7b\n"

/-- Where the byte of a page stands in its wrapped source, when it is in the code that follows
some pieces. -/
def placeOf (bytes : List UInt8) (before : List Piece) (r : Region) (i : Nat) : Nat :=
  csharpHead.length + (textOf bytes before).length + (i - r.start)

theorem wrapped_at_placeOf {before after : List Piece} {r : Region} (hstop : r.stop ≤ bytes.length)
    (hbefore : pageText bytes before = (keep rs bytes).take r.start) {i : Nat}
    (hstart : r.start ≤ i) (hi : i < r.stop) :
    let source := wrapCSharp (textOf bytes (before ++ .code r :: after))
    source[placeOf bytes before r i]? = bytes[i]? ∧
      Tree.lineAt source (placeOf bytes before r i) = Tree.lineAt bytes i + 1 := by
  obtain ⟨k, rfl⟩ := Nat.exists_eq_add_of_le hstart
  let front := csharpHead ++ textOf bytes before
  let code := Seq.slice bytes r.start r.stop
  let rest := textOf bytes after ++ encodeText "\n\x7d\n"
  have hsource : wrapCSharp (textOf bytes (before ++ .code r :: after)) =
      front ++ (code ++ rest) := by
    simp only [wrapCSharp, front, code, rest, csharpHead, textOf_append, textOf_cons, Piece.text,
      List.append_assoc]
  have hplace : placeOf bytes before r (r.start + k) = front.length + k := by
    simp only [placeOf, front, List.length_append, Nat.add_sub_cancel_left]
  have hk : k < code.length := by
    rw [Seq.length_slice hstop]
    omega
  have hcode : code.take k = (bytes.drop r.start).take k := by
    simp only [code, Seq.slice, List.take_take]
    congr 1
    omega
  dsimp only
  rw [hsource, hplace]
  constructor
  · rw [List.getElem?_append_right (Nat.le_add_right _ _), Nat.add_sub_cancel_left,
      List.getElem?_append_left hk, Seq.getElem?_slice, if_pos (by omega)]
  · have hfront : front.count Mask.lf = (bytes.take r.start).count Mask.lf + 1 := by
      rw [List.count_append, count_textOf, hbefore, count_take_keep, Nat.add_comm]
      congr 1
    show ((front ++ (code ++ rest)).take (front.length + k)).count Mask.lf + 1 =
      (bytes.take (r.start + k)).count Mask.lf + 1 + 1
    rw [List.take_length_add_append, List.take_append_of_le_length (Nat.le_of_lt hk),
      List.count_append, hcode, hfront, List.take_add, List.count_append]
    omega

/-! ### Layouts -/

structure Layout (bytes body : List UInt8) (ps : List Piece) : Prop where
  text : body = textOf bytes ps
  masked : pageText bytes ps = maskMarkup bytes
  regions : ps.filterMap Piece.region? = Page.regions bytes
  /-- Insertions hold no line break. -/
  unbroken : ∀ i, .inserted i ∈ ps → ∀ b ∈ i.text, Mask.isBreak b = false
  /-- Insertions stand where a region begins or ends, or at the end. -/
  boundary : ∀ before i after, ps = before ++ .inserted i :: after →
    (pageText bytes before).length = bytes.length ∨
      ∃ r ∈ Page.regions bytes, (pageText bytes before).length = r.start ∨
        (pageText bytes before).length = r.stop
  /-- Code stands in the wrapped source one row below its row of the page. -/
  row : ∀ before r after, ps = before ++ .code r :: after → ∀ i, r.start ≤ i → i < r.stop →
    (wrapCSharp body)[placeOf bytes before r i]? = bytes[i]? ∧
      Tree.lineAt (wrapCSharp body) (placeOf bytes before r i) = Tree.lineAt bytes i + 1
  /-- Methods for blocks are opened and closed in turn. -/
  methods : ∃ n, methodMarks ps = (List.replicate n [.head, .brace]).flatten
  /-- No script stands between the opening of a method and its closing. -/
  scriptless : ∀ before between after,
    ps = before ++ .inserted .head :: (between ++ .inserted .brace :: after) →
      .inserted .brace ∉ between → ∀ r, .code r ∈ between → r.kind ≠ .members

/-- Between the opening of a method for blocks and its closing there is no script, because code
at depth one is the code of blocks. -/
theorem FitsAll.kind_ne_members {before between after : List Piece}
    (h : FitsAll rs bytes [] (before ++ .inserted .head :: (between ++ after)))
    (hbrace : .inserted .brace ∉ between) {r : Region} (hr : .code r ∈ between) :
    r.kind ≠ .members := by
  have hhead : depth before = 0 := h.at_piece.2 rfl
  obtain ⟨first, second, rfl⟩ := List.append_of_mem hr
  have hfits : FitsAll rs bytes [] ((before ++ .inserted .head :: first) ++
      .code r :: (second ++ after)) := by
    simpa using h
  obtain ⟨-, hdepth⟩ := hfits.at_piece
  rw [List.nil_append, List.append_cons, depth_append, depth_append, hhead] at hdepth
  have hclosed : depth first = first.count (.inserted .head) := by
    have hnone : first.count (Piece.inserted .brace) = 0 :=
      List.count_eq_zero.mpr fun hmem => hbrace (List.mem_append_left _ hmem)
    rw [depth, hnone]
    exact Int.sub_zero _
  intro hmembers
  rw [if_pos hmembers, hclosed] at hdepth
  have hone : depth [.inserted .head] = 1 := rfl
  omega

/-- Whenever a page has a class body, that is the masked page with insertions: line by line the
same code, the blocks in methods that are opened and closed in turn, and the scripts outside. -/
theorem classBody?_eq_masked_with_insertions {bytes body : List UInt8}
    (h : classBody? bytes = some body) : ∃ ps, Layout bytes body ps := by
  obtain ⟨d, hd, rfl⟩ := Option.map_eq_some_iff.mp h
  have hbounds : ∀ r ∈ regions bytes, r.start ≤ r.stop ∧ r.stop ≤ bytes.length :=
    fun _ => bounds_of_mem_regions
  have hdisjoint : Disjoint (regions bytes) :=
    (isSome_classBody?_iff bytes).mp (Option.isSome_of_eq_some h)
  let ps := pieces bytes.length 0 false (regions bytes)
  have htext : d.finish bytes = textOf bytes ps := finish_eq_of_foldlM hd
  have hmasked : pageText bytes ps = keep (regions bytes) bytes :=
    pageText_pieces (fun r hr => (hbounds r hr).1) hdisjoint (fun _ _ => Nat.zero_le _) false
  have hfits : FitsAll (regions bytes) bytes [] ps :=
    fitsAll_pieces (List.Subset.refl _) hbounds hdisjoint (fun _ _ => Nat.zero_le _)
      (Nat.zero_le _) rfl rfl
  refine ⟨ps, ⟨htext, hmasked, regions_pieces _ _ _ _, fun i _ => i.isBreak_eq_false, ?_, ?_, ?_,
    ?_⟩⟩
  · intro before i after hps
    rw [hps] at hfits
    exact hfits.at_piece.1
  · intro before r after hps i hstart hi
    rw [hps] at hfits hmasked
    obtain ⟨hlength, -⟩ := hfits.at_piece
    have hr : r ∈ regions bytes := by
      rw [← regions_pieces bytes.length 0 false (regions bytes)]
      show r ∈ ps.filterMap Piece.region?
      rw [hps]
      simp [Piece.region?]
    have hbefore : pageText bytes before = (keep (regions bytes) bytes).take r.start := by
      rw [← hmasked, pageText_append, ← hlength]
      exact (List.take_left).symm
    rw [htext, hps]
    exact wrapped_at_placeOf (hbounds r hr).2 hbefore hstart hi
  · exact methodMarks_pieces _ _ _ _
  · intro before between after hps hbrace r hr
    rw [hps] at hfits
    exact hfits.kind_ne_members hbrace hr

/-- A page with blocks on both sides of a script. -/
def mixedPage : List UInt8 :=
  Utf8.encode "<%=T%>\n<script runat=server>M</script><%U%>".toList

def mixedBody : List UInt8 :=
  Utf8.encode ("   void AspInline() \x7b_ = T;  \n                     \x7dM" ++
    "           void AspInline() \x7bU  \x7d").toList

theorem mixedPage_with_insertions :
    classBody? mixedPage = some mixedBody ∧ ∃ ps, Layout mixedPage mixedBody ps := by
  have hparts : scripts mixedPage = [⟨28, 29, .members⟩] ∧
      blocks mixedPage = [⟨3, 4, .expression⟩, ⟨40, 41, .statements⟩] := by
    decide +kernel
  have hregions : regions mixedPage =
      [⟨3, 4, .expression⟩, ⟨28, 29, .members⟩, ⟨40, 41, .statements⟩] := by
    show (scripts mixedPage ++ blocks mixedPage).mergeSort _ = _
    rw [hparts.1, hparts.2]
    simp [List.mergeSort, List.MergeSort.Internal.splitInTwo]
  have hbody : classBody? mixedPage = some mixedBody := by
    rw [classBody?, hregions]
    decide +kernel
  exact ⟨hbody, classBody?_eq_masked_with_insertions hbody⟩

end Page

end CodeGraph
