import CodeGraph.Page.Analysis
import CodeGraph.Proofs.Page.Elements
import CodeGraph.Proofs.Page.Grammar

/-!
Script bodies and the blocks outside of them. The scan for blocks goes through the bodies of scripts
like through any other text, and only the opening of a block is compared with the scripts. A block
that opens in a body and is not closed there takes in what follows the script. Where all blocks of
a body are closed in it, the regions of the page do not depend on the body, and only there.
-/

namespace CodeGraph.Page

open Pattern

/-! ### Settled texts -/

/-- All blocks that open in a text are closed in it. -/
def Settled (text : List UInt8) : Prop :=
  ∀ m ∈ metFrom 0 0 text, m.block ≠ .unclosed

instance (text : List UInt8) : Decidable (Settled text) :=
  inferInstanceAs (Decidable (∀ m ∈ metFrom 0 0 text, m.block ≠ .unclosed))

def Met.shift (k : Nat) (m : Met) : Met :=
  { m with offset := k + m.offset }

theorem metFrom_shift (k offset skip : Nat) (text : List UInt8) :
    metFrom (k + offset) skip text = (metFrom offset skip text).map (Met.shift k) := by
  fun_induction metFrom offset skip text with
  | case1 => rfl
  | case2 offset b s skip ih => rw [metFrom, ← ih, Nat.add_assoc]
  | case3 offset b s hnone ih => rw [metFrom, hnone, ← ih, Nat.add_assoc]
  | case4 offset b s hunclosed =>
      rw [metFrom, hunclosed]
      rfl
  | case5 offset b s n hblock ih | case6 offset b s n hblock ih =>
      rw [metFrom, hblock, List.map_cons, ← ih, Nat.add_assoc]
      rfl

variable {x y : List UInt8}

theorem settled_iff (offset : Nat) :
    Settled x ↔ ∀ m ∈ metFrom offset 0 x, m.block ≠ .unclosed := by
  have hshift := metFrom_shift offset 0 0 x
  rw [Nat.add_zero] at hshift
  rw [hshift, List.forall_mem_map]
  exact Iff.rfl

theorem size_le_length_of_block? {block : Block} (h : block? x = some block)
    (hclosed : block ≠ .unclosed) : block.size ≤ x.length := by
  obtain ⟨rest, rfl, hreads⟩ := block?_eq_some_iff.mp h
  cases block with
  | unclosed => exact absurd rfl hclosed
  | comment n =>
      obtain ⟨-, k, rfl, hclosing⟩ := hreads
      have hle : k + 4 ≤ rest.length := hclosing.le_length
      simp [Block.size, opening]
      omega
  | code n =>
      have hle : n + 2 ≤ rest.length := hreads.2.le_length
      simp [Block.size, opening]
      omega

/-- A cut between the two bytes of an opening. -/
def CutsOpening (x y : List UInt8) : Prop :=
  x.getLast? = some 60 ∧ y.head? = some 37

theorem block?_append_of_none (hne : x ≠ []) (hcut : ¬ CutsOpening x y) (h : block? x = none) :
    block? (x ++ y) = none := by
  match x, hne with
  | [b], _ =>
      rw [block?_eq_none_iff]
      rintro ⟨t, ht⟩
      obtain ⟨rfl, rfl⟩ := List.cons.inj ht
      exact hcut ⟨rfl, rfl⟩
  | b :: b' :: s, _ => exact block?_eq_none_of_take_eq h rfl

/-- The scan of a settled text goes on with what follows it. -/
theorem metFrom_append (offset : Nat) (h : Settled x) (hcut : ¬ CutsOpening x y) :
    metFrom offset 0 (x ++ y) = metFrom offset 0 x ++ metFrom (offset + x.length) 0 y := by
  -- On the length of the text: each round leaves a shorter one.
  induction hlength : x.length using Nat.strong_induction_on generalizing x offset with
  | _ length ih =>
  subst hlength
  by_cases hne : x = []
  · subst hne
    rfl
  have hround (j : Nat) (hpos : 0 < j) (hle : j ≤ x.length)
      (hdrop : ∀ m ∈ metFrom (offset + j) 0 (x.drop j), m.block ≠ .unclosed) :
      metFrom (offset + j) 0 (x.drop j ++ y) =
        metFrom (offset + j) 0 (x.drop j) ++ metFrom (offset + x.length) 0 y := by
    have hshorter : (x.drop j).length = x.length - j := List.length_drop
    have hcut' : ¬ CutsOpening (x.drop j) y := by
      rintro ⟨hlast, hfirst⟩
      refine hcut ⟨?_, hfirst⟩
      rw [List.getLast?_drop] at hlast
      split at hlast
      · cases hlast
      · exact hlast
    rw [ih _ (by omega) (offset + j) ((settled_iff _).mpr hdrop) hcut' rfl, hshorter, Nat.add_assoc,
      Nat.add_sub_cancel' hle]
  have hpos : 0 < x.length := List.length_pos_iff.mpr hne
  rw [settled_iff offset] at h
  cases hblock : block? x with
  | none =>
      rw [metFrom_of_none offset hblock] at h ⊢
      rw [metFrom_of_none offset (block?_append_of_none hne hcut hblock),
        List.drop_append_of_le_length hpos]
      exact hround 1 Nat.one_pos hpos h
  | some block =>
      by_cases hclosed : block = .unclosed
      · rw [hclosed] at hblock
        rw [metFrom_of_unclosed offset hblock] at h
        exact absurd rfl (h _ (List.mem_singleton.mpr rfl))
      · have hsize := four_le_size_of_block? hblock hclosed
        have hle := size_le_length_of_block? hblock hclosed
        have hblock' : block? (x ++ y) = some block :=
          block?_congr hblock hclosed (List.take_append_of_le_length hle).symm
        have hfirst : ((x ++ y).drop 2).head? = (x.drop 2).head? := by
          rw [List.head?_drop, List.head?_drop, List.getElem?_append_left (by omega)]
        rw [metFrom_of_closed offset hblock hclosed] at h ⊢
        rw [metFrom_of_closed offset hblock' hclosed, hfirst, List.drop_append_of_le_length hle,
          List.cons_append, hround block.size (by omega) hle (List.forall_mem_cons.mp h).2]

/-! ### Elements among bytes -/

theorem widthOf_decode (bytes : List UInt8) : widthOf (Utf8.decode bytes) = bytes.length :=
  Utf8.sum_width_decode bytes

/-- A text has one beginning of each width. -/
theorem append_inj_of_widthOf {a b a' b' : List Symbol} (hwide : ∀ s ∈ a ++ b, 0 < s.width)
    (h : a ++ b = a' ++ b') (hwidth : widthOf a = widthOf a') : a = a' ∧ b = b' := by
  rcases List.append_eq_append_iff.mp h with ⟨d, rfl, rfl⟩ | ⟨d, rfl, rfl⟩
  · rw [widthOf_append] at hwidth
    obtain rfl : d = [] := eq_nil_of_widthOf_eq_zero
      (fun s hs => hwide s (by simp [hs])) (by omega)
    simp
  · rw [widthOf_append] at hwidth
    obtain rfl : d = [] := eq_nil_of_widthOf_eq_zero
      (fun s hs => hwide s (by simp [hs])) (by omega)
    simp

theorem decode_append_bracket (front t : List UInt8) :
    Utf8.decode ((front ++ [62]) ++ t) = Utf8.decode (front ++ [62]) ++ Utf8.decode t := by
  rw [List.append_assoc, List.singleton_append, Utf8.decode_append_ascii (by decide),
    Utf8.decode_append_ascii (by decide), Utf8.decode_cons_ascii (by decide), List.append_assoc]
  rfl

/-- A page that is cut between a closing and an opening bracket is decoded part by part. -/
theorem decode_parts (front body rest : List UInt8) :
    Utf8.decode ((front ++ [62]) ++ (body ++ 60 :: rest)) =
      Utf8.decode (front ++ [62]) ++ (Utf8.decode body ++ Utf8.decode (60 :: rest)) := by
  rw [decode_append_bracket, Utf8.decode_append_ascii (b := 60) (by decide) body]

def IsScript (head body tail : List UInt8) : Prop :=
  ⟨head.length, head.length + body.length, .members⟩ ∈ scripts (head ++ (body ++ tail))

instance (head body tail : List UInt8) : Decidable (IsScript head body tail) :=
  inferInstanceAs (Decidable (_ ∈ scripts _))

/-- The text of a script: characters without a closing tag among them. -/
structure ScriptText (body : List UInt8) : Prop where
  text : (Utf8.strict? body).isSome = true
  unclosed : (keyword "</script").occursIn (Utf8.decode body) = false

theorem chars_of_strict? {body : List UInt8} (h : (Utf8.strict? body).isSome = true) :
    ∀ s ∈ Utf8.decode body, s.char?.isSome = true := by
  rw [Utf8.strict?] at h
  generalize Utf8.decode body = symbols at h
  induction symbols with
  | nil => simp
  | cons s symbols ih =>
      obtain ⟨text, htext⟩ := Option.isSome_iff_exists.mp h
      rw [List.mapM_cons] at htext
      obtain ⟨c, hc, hrest⟩ := Option.bind_eq_some_iff.mp htext
      obtain ⟨cs, hcs, -⟩ := Option.bind_eq_some_iff.mp hrest
      exact List.forall_mem_cons.mpr
        ⟨Option.isSome_of_eq_some hc, ih (Option.isSome_of_eq_some hcs)⟩

theorem ScriptText.isBody {body : List UInt8} (h : ScriptText body) : IsBody (Utf8.decode body) :=
  isBody_of_not_occursIn (chars_of_strict? h.text) h.unclosed

variable {head body tail : List UInt8}

/-- Behind the body of a script stands the bracket that opens the closing tag. -/
theorem getElem?_stop_of_mem_scripts {bytes : List UInt8} {r : Region} (h : r ∈ scripts bytes) :
    bytes[r.stop]? = some 60 := by
  rw [scripts_eq_scriptsFrom] at h
  obtain ⟨before, b, t, n, hdecode, -, rfl, ht, -⟩ := exists_of_mem_scriptsFrom h
  obtain ⟨c, z, rfl, -⟩ := exists_of_closingTag? ht
  have hsplit : Utf8.decode bytes = (before ++ .char '>' :: b) ++ .char '<' :: (c ++ z) := by
    rw [hdecode, List.append_assoc, List.cons_append]
  have hstop : 0 + widthOf before + 1 + widthOf b = widthOf (before ++ .char '>' :: b) := by
    simp
    omega
  dsimp only
  rw [hstop]
  exact Utf8.getElem?_of_decode_eq hsplit (by decide)

theorem IsScript.exists_brackets (h : IsScript head body tail) :
    ∃ front rest, head = front ++ [62] ∧ tail = 60 :: rest := by
  have hopening := getElem?_stop_of_mem_scripts h
  obtain ⟨-, -, k, hk, hbracket⟩ := bounds_of_mem_scripts h
  dsimp only at hk hopening
  have hlast : head.getLast? = some 62 := by
    rw [List.getElem?_append_left (by omega)] at hbracket
    rw [List.getLast?_eq_getElem?, hk, Nat.add_sub_cancel, hbracket]
  have hfirst : tail.head? = some 60 := by
    rw [← List.append_assoc, ← List.length_append, List.getElem?_append_right (Nat.le_refl _),
      Nat.sub_self] at hopening
    rw [List.head?_eq_getElem?, hopening]
  obtain ⟨front, hfront⟩ := List.getLast?_eq_some_iff.mp hlast
  obtain ⟨rest, hrest⟩ := List.head?_eq_some_iff.mp hfirst
  exact ⟨front, rest, hfront, hrest⟩

/-- The body of a script stands between the bracket of its tag and a closing tag. -/
theorem IsScript.exists_closingTag? (h : IsScript head body tail) :
    ∃ n, closingTag? (Utf8.decode tail) = some n := by
  obtain ⟨front, rest, rfl, rfl⟩ := h.exists_brackets
  rw [IsScript, scripts_eq_scriptsFrom] at h
  obtain ⟨before, b, t, n, hdecode, -, hregion, ht, -⟩ := exists_of_mem_scriptsFrom h
  obtain ⟨hstart, hstop, -⟩ := Region.mk.inj hregion
  have hwide : ∀ s ∈ (Utf8.decode (front ++ [62]) ++ Utf8.decode body) ++ Utf8.decode (60 :: rest),
      0 < s.width := by
    rw [List.append_assoc, ← decode_parts]
    exact Utf8.width_pos_of_mem_decode
  rw [decode_parts, ← List.append_assoc, ← List.cons_append, ← List.append_assoc] at hdecode
  obtain ⟨-, htail⟩ := append_inj_of_widthOf hwide hdecode (by
    simp only [widthOf_append, widthOf_cons, widthOf_decode, width_bracket]
    omega)
  exact ⟨n, htail ▸ ht⟩

/-! ### Other bodies of a script -/

theorem eq_cons_of_closingTag? {n : Nat} (h : closingTag? (Utf8.decode tail) = some n) :
    ∃ rest, tail = 60 :: rest := by
  obtain ⟨c, z, hdecode, -⟩ := exists_of_closingTag? h
  have hfront : Utf8.decode tail = [] ++ .char '<' :: (c ++ z) := hdecode
  have hbyte : tail[0]? = some 60 := Utf8.getElem?_of_decode_eq hfront (by decide)
  rw [← List.head?_eq_getElem?] at hbyte
  exact List.head?_eq_some_iff.mp hbyte

/-- Another text of a script, and another text behind it that begins with a closing tag `c`, leave
the scripts in front as they are. -/
theorem IsScript.exists_scripts_eq (h : IsScript head body tail) (hbody : ScriptText body) :
    ∃ before, ∀ body' tail' c z, ScriptText body' → Utf8.decode tail' = c ++ z →
      closingTag? (c ++ z) = some c.length →
        scripts (head ++ (body' ++ tail')) =
          before ++ ⟨head.length, head.length + body'.length, .members⟩ ::
            scriptsFrom (head.length + body'.length + widthOf c) 0 z := by
  obtain ⟨n, hn⟩ := h.exists_closingTag?
  obtain ⟨front, rest, rfl, rfl⟩ := h.exists_brackets
  have hbracketed : Bracketed (Utf8.decode (front ++ [62])) := by
    rw [Utf8.decode_append_ascii (by decide)]
    intro s hs
    rw [List.getLast?_append] at hs
    exact (Option.some.inj hs).symm
  have hmem : bodyRegion (0 + widthOf (Utf8.decode (front ++ [62]))) (Utf8.decode body) ∈
      scriptsFrom 0 0 (Utf8.decode (front ++ [62]) ++
        (Utf8.decode body ++ Utf8.decode (60 :: rest))) := by
    rw [← decode_parts, ← scripts_eq_scriptsFrom, bodyRegion, widthOf_decode, widthOf_decode,
      Nat.zero_add]
    exact h
  obtain ⟨before, hbefore⟩ := exists_scriptsFrom_eq_append hbracketed Utf8.width_pos_of_mem_decode
    hbody.isBody hn hmem
  refine ⟨before, fun body' tail' c z hbody' htail hclosing => ?_⟩
  obtain ⟨rest', rfl⟩ := eq_cons_of_closingTag? (htail ▸ hclosing)
  rw [scripts_eq_scriptsFrom, decode_parts, htail, hbefore _ c z hbody'.isBody hclosing, bodyRegion,
    widthOf_decode, widthOf_decode, Nat.zero_add]

/-- Whatever its text and what stands behind it, the body of a script is that of a script. -/
theorem IsScript.other {body' tail' : List UInt8} {n : Nat} (h : IsScript head body tail)
    (hbody : ScriptText body) (hbody' : ScriptText body')
    (htail : closingTag? (Utf8.decode tail') = some n) : IsScript head body' tail' := by
  obtain ⟨before, hbefore⟩ := h.exists_scripts_eq hbody
  obtain ⟨c, z, hdecode, rfl⟩ := exists_of_closingTag? htail
  rw [hdecode] at htail
  rw [IsScript, hbefore body' tail' (.char '<' :: c) z hbody' hdecode htail]
  exact List.mem_append_right _ List.mem_cons_self

/-- The scripts of a page do not depend on the text of a body. -/
theorem IsScript.scripts_eq {body' : List UInt8} (h : IsScript head body tail)
    (hbody : ScriptText body) (hbody' : ScriptText body') (hlength : body'.length = body.length) :
    scripts (head ++ (body' ++ tail)) = scripts (head ++ (body ++ tail)) := by
  obtain ⟨before, hbefore⟩ := h.exists_scripts_eq hbody
  obtain ⟨n, hn⟩ := h.exists_closingTag?
  obtain ⟨c, z, hdecode, rfl⟩ := exists_of_closingTag? hn
  rw [hdecode] at hn
  rw [hbefore body' tail (.char '<' :: c) z hbody' hdecode hn,
    hbefore body tail (.char '<' :: c) z hbody hdecode hn, hlength]

/-! ### Regions outside of a script -/

theorem offset_of_mem_metFrom {offset : Nat} {m : Met} (h : m ∈ metFrom offset 0 x) :
    offset ≤ m.offset ∧ m.offset < offset + x.length := by
  obtain ⟨before, rest, rfl, -, hoffset, hblock⟩ := opensIn_of_mem_metFrom h
  have hpos : 0 < rest.length := by
    refine List.length_pos_iff.mpr ?_
    rintro rfl
    cases hblock
  rw [List.length_append]
  omega

/-- Blocks that open in the body of a script have no region. -/
theorem filterMap_region?_of_inScript {inScript : Nat → Bool} {offset : Nat}
    (h : ∀ i < x.length, inScript (offset + i) = true) :
    (metFrom offset 0 x).filterMap (Met.region? inScript) = [] := by
  refine List.filterMap_eq_nil_iff.mpr fun m hm => ?_
  obtain ⟨hle, hlt⟩ := offset_of_mem_metFrom hm
  have hinside : inScript m.offset = true := by
    rw [← Nat.add_sub_cancel' hle]
    exact h _ (by omega)
  unfold Met.region?
  split
  · rw [if_pos hinside]
  · rfl
  · rfl

theorem IsScript.metFrom_head (h : IsScript head body tail) (hhead : Settled head)
    (y : List UInt8) : metFrom 0 0 (head ++ y) = metFrom 0 0 head ++ metFrom head.length 0 y := by
  obtain ⟨front, -, rfl, -⟩ := h.exists_brackets
  have hcut : ¬ CutsOpening (front ++ [62]) y := by
    rintro ⟨hlast, -⟩
    simp at hlast
  rw [metFrom_append 0 hhead hcut, Nat.zero_add]

theorem IsScript.metFrom_body (h : IsScript head body tail) (hhead : Settled head)
    (hbody : Settled body) :
    metFrom 0 0 (head ++ (body ++ tail)) =
      metFrom 0 0 head ++ (metFrom head.length 0 body ++
        metFrom (head.length + body.length) 0 tail) := by
  obtain ⟨-, rest, -, rfl⟩ := h.exists_brackets
  have hcut : ¬ CutsOpening body (60 :: rest) := by
    rintro ⟨-, hfirst⟩
    simp at hfirst
  rw [h.metFrom_head hhead, metFrom_append _ hbody hcut]

/-- The blocks of a page with regions are those in front of a settled body and behind it. -/
theorem IsScript.blocks_eq (h : IsScript head body tail) (hhead : Settled head)
    (hbody : Settled body) :
    blocks (head ++ (body ++ tail)) =
      (metFrom 0 0 head ++ metFrom (head.length + body.length) 0 tail).filterMap
        (Met.region? fun i => (scripts (head ++ (body ++ tail))).any (·.holds i)) := by
  have hnone : (metFrom head.length 0 body).filterMap
      (Met.region? fun i => (scripts (head ++ (body ++ tail))).any (·.holds i)) = [] := by
    refine filterMap_region?_of_inScript fun i hi => List.any_eq_true.mpr ⟨_, h, ?_⟩
    exact Region.holds_iff.mpr ⟨Nat.le_add_right _ _, Nat.add_lt_add_left hi _⟩
  rw [blocks, blocksFrom_eq_filterMap, h.metFrom_body hhead hbody, List.filterMap_append,
    List.filterMap_append, hnone, List.nil_append, List.filterMap_append]

theorem IsScript.regions_eq {body' : List UInt8} (h : IsScript head body tail)
    (hbody : ScriptText body) (hbody' : ScriptText body') (hlength : body'.length = body.length)
    (hhead : Settled head) (hsettled : Settled body) (hsettled' : Settled body') :
    regions (head ++ (body' ++ tail)) = regions (head ++ (body ++ tail)) := by
  obtain ⟨n, hn⟩ := h.exists_closingTag?
  have h' := h.other hbody hbody' hn
  have hscripts := h.scripts_eq hbody hbody' hlength
  have hblocks : blocks (head ++ (body' ++ tail)) = blocks (head ++ (body ++ tail)) := by
    rw [h.blocks_eq hhead hsettled, h'.blocks_eq hhead hsettled', hscripts, hlength]
  show (scripts _ ++ blocks _).mergeSort _ = (scripts _ ++ blocks _).mergeSort _
  rw [hscripts, hblocks]

/-! ### Open blocks -/

/-- In a text that is not settled the scan ends with a block that is open. -/
theorem exists_open_of_not_settled (offset : Nat) (h : ¬ Settled x) :
    ∃ before rest, x = before ++ (opening ++ rest) ∧ Block.unclosed.Reads rest ∧
      ∀ y, ∃ seen, metFrom offset 0 (x ++ y) =
        seen ++ metFrom (offset + before.length) 0 (opening ++ (rest ++ y)) := by
  rw [settled_iff offset] at h
  push Not at h
  obtain ⟨m, hm, hunclosed⟩ := h
  obtain ⟨before, text, rfl, -, hoffset, hblock⟩ := opensIn_of_mem_metFrom hm
  rw [hunclosed] at hblock
  obtain ⟨rest, rfl, hreads⟩ := block?_eq_some_iff.mp hblock
  refine ⟨before, rest, rfl, hreads, fun y => ?_⟩
  have htake : (before ++ (opening ++ rest)).take (before.length + 1) =
      (before ++ (opening ++ rest) ++ y).take (before.length + 1) := by
    refine (List.take_append_of_le_length ?_).symm
    simp [opening]
  obtain ⟨seen, -, hseen⟩ := exists_metFrom_eq_append hm hoffset htake
  refine ⟨seen, ?_⟩
  rw [hseen, List.append_assoc, List.drop_left, List.append_assoc]

section

variable {a : UInt8} {rest z : List UInt8}

/-- An open block takes in all that follows up to the closing of a later block. -/
theorem exists_metFrom_open (offset : Nat) (h : Block.unclosed.Reads rest) (ha : a ∉ commentClosing)
    (hcode : ¬ closing <:+: z) (hcomment : ¬ commentClosing <:+: z ++ closing) :
    ∃ block first, metFrom offset 0 (opening ++ (rest ++ a :: (z ++ closing))) =
      [⟨offset, block, first⟩] := by
  have hsubset : commentOpening ⊆ commentClosing ∧ closing ⊆ commentClosing := by decide
  by_cases hdashes : commentOpening <+: rest
  · rw [Block.Reads, if_pos hdashes] at h
    have hblock : block? (opening ++ (rest ++ a :: (z ++ closing))) = some .unclosed := by
      rw [block?_opening_eq_some_iff, Block.Reads,
        if_pos (hdashes.trans (List.prefix_append _ _))]
      exact Seq.not_infix_append_cons ha h hcomment
    exact ⟨_, _, metFrom_of_unclosed _ hblock⟩
  · rw [Block.Reads, if_neg hdashes] at h
    have hother : ¬ commentOpening <+: rest ++ a :: z :=
      mt (Seq.prefix_of_prefix_append_cons fun hin => ha (hsubset.1 hin)) hdashes
    have hnone : ¬ closing <:+: rest ++ a :: z :=
      Seq.not_infix_append_cons (fun hin => ha (hsubset.2 hin)) h hcode
    have hmet := metFrom_code offset (rest ++ a :: z) hnone hother []
    rw [List.append_nil, List.append_assoc, List.cons_append] at hmet
    exact ⟨_, _, hmet⟩

/-- Behind a text that is not settled no block opens up to the next closing. -/
theorem offset_lt_of_not_settled (offset : Nat) (h : ¬ Settled x) (ha : a ∉ commentClosing)
    (hcode : ¬ closing <:+: z) (hcomment : ¬ commentClosing <:+: z ++ closing) :
    ∀ m ∈ metFrom offset 0 (x ++ a :: (z ++ closing)), m.offset < offset + x.length := by
  obtain ⟨before, rest, rfl, hreads, hseen⟩ := exists_open_of_not_settled offset h
  obtain ⟨seen, hseen⟩ := hseen (a :: (z ++ closing))
  obtain ⟨block, first, hopen⟩ :=
    exists_metFrom_open (offset + before.length) hreads ha hcode hcomment
  have hpairwise := pairwise_metFrom offset 0 (before ++ (opening ++ rest) ++ a :: (z ++ closing))
  rw [hseen, hopen] at hpairwise ⊢
  have hbefore : ∀ m ∈ seen, m.offset + m.block.size ≤ offset + before.length := fun m hm =>
    (List.pairwise_append.mp hpairwise).2.2 m hm _ (List.mem_singleton.mpr rfl)
  intro m hm
  have hle : m.offset ≤ offset + before.length := by
    rcases List.mem_append.mp hm with hm | hm
    · exact Nat.le_trans (Nat.le_add_right _ _) (hbefore m hm)
    · rw [List.mem_singleton.mp hm]
  simp [opening]
  omega

/-- Behind a text that is not settled and ends with a bracket, one of the closings closes the block
that is open. -/
theorem exists_closing_of_not_settled (offset : Nat) (h : ¬ Settled x)
    (hlast : x.getLast? = some 62) :
    ∃ c, (c = closing ∨ c = commentClosing) ∧ ∀ y, ∃ seen,
      metFrom offset 0 (x ++ (c ++ y)) = seen ++ metFrom (offset + x.length + c.length) 0 y := by
  obtain ⟨before, rest, rfl, hreads, hseen⟩ := exists_open_of_not_settled offset h
  have hrest : rest.getLast? = some 62 := by
    rw [List.getLast?_append, List.getLast?_append] at hlast
    cases hr : rest.getLast? with
    | none =>
        rw [hr] at hlast
        cases hlast
    | some b =>
        rw [hr] at hlast
        exact hlast
  have hlength (c : List UInt8) : offset + before.length + (opening ++ (rest ++ c)).length =
      offset + (before ++ (opening ++ rest)).length + c.length := by
    simp
    omega
  by_cases hdashes : commentOpening <+: rest
  · rw [Block.Reads, if_pos hdashes] at hreads
    refine ⟨commentClosing, .inr rfl, fun y => ?_⟩
    have hblock : block? (opening ++ (rest ++ commentClosing) ++ y) =
        some (.comment (2 + rest.length + 4)) := by
      rw [List.append_assoc, List.append_assoc]
      exact block?_opening_eq_some_iff.mpr ⟨hdashes.trans (List.prefix_append _ _), _, rfl,
        Seq.firstAt_of_getLast? [45, 45, 37] (by decide) hrest hreads y⟩
    have hmet := metFrom_closed_append (offset + before.length) hblock (by simp)
      (by simp [Block.size, opening, commentClosing]; omega)
    obtain ⟨seen, hseen⟩ := hseen (commentClosing ++ y)
    rw [List.append_assoc, List.append_assoc, hlength] at hmet
    exact ⟨seen ++ [_], by rw [hseen, hmet, List.append_assoc, List.singleton_append]⟩
  · rw [Block.Reads, if_neg hdashes] at hreads
    refine ⟨closing, .inl rfl, fun y => ?_⟩
    have hmet := metFrom_code (offset + before.length) rest hreads hdashes y
    obtain ⟨seen, hseen⟩ := hseen (closing ++ y)
    rw [List.append_assoc, List.append_assoc, hlength] at hmet
    exact ⟨seen ++ [_], by rw [hseen, hmet, List.append_assoc, List.singleton_append]⟩

end

/-! ### A block behind a script -/

def scriptClosing : List UInt8 := encodeText "</script>"

def smallBlock : List UInt8 := encodeText "<%a%>"

def smallRegion (offset : Nat) : Region :=
  ⟨offset + 11, offset + 12, .statements⟩

theorem exists_closingTag?_scriptClosing (rest : List UInt8) :
    ∃ n, closingTag? (Utf8.decode (scriptClosing ++ rest)) = some n := by
  have hsplit : scriptClosing = encodeText "</script" ++ [62] := by decide +kernel
  have hclosing : closingTag? (Utf8.decode scriptClosing) = some 9 := by decide +kernel
  refine ⟨9, ?_⟩
  rw [hsplit, decode_append_bracket, ← hsplit, closingTag?_append (by decide +kernel), hclosing]

theorem metFrom_smallBlock (offset : Nat) :
    metFrom offset 0 (scriptClosing ++ smallBlock) = [⟨offset + 9, .code 1, some 97⟩] := by
  have hmet : metFrom 0 0 (scriptClosing ++ smallBlock) = [⟨9, .code 1, some 97⟩] := by
    decide +kernel
  have hshift := metFrom_shift offset 0 0 (scriptClosing ++ smallBlock)
  rw [hmet] at hshift
  exact hshift

/-- The small block has its region if the scan comes to it: no script reaches so far, because none
is closed behind it. -/
theorem smallRegion_mem (h : ⟨x.length + 9, .code 1, some 97⟩ ∈
    metFrom 0 0 (x ++ (scriptClosing ++ smallBlock))) :
    smallRegion x.length ∈ regions (x ++ (scriptClosing ++ smallBlock)) := by
  have houtside : (scripts (x ++ (scriptClosing ++ smallBlock))).any
      (·.holds (x.length + 9)) = false := by
    refine List.any_eq_false.mpr fun r hr hholds => ?_
    have hbracket := getElem?_stop_of_mem_scripts hr
    obtain ⟨-, hstop⟩ := Region.holds_iff.mp hholds
    obtain ⟨k, hk⟩ := Nat.exists_eq_add_of_lt hstop
    have hplace : r.stop = x.length + (10 + k) := by omega
    rw [hplace, List.getElem?_append_right (Nat.le_add_right _ _), Nat.add_sub_cancel_left,
      ← List.getElem?_drop] at hbracket
    exact absurd (List.mem_of_getElem? hbracket) (by decide +kernel)
  refine mem_regions.mpr (.inr ?_)
  rw [blocks, blocksFrom_eq_filterMap]
  refine List.mem_filterMap.mpr ⟨_, h, ?_⟩
  simp [Met.region?, houtside, regionOf?, smallRegion]

theorem smallRegion_notMem {bytes : List UInt8} {offset : Nat}
    (h : ∀ m ∈ metFrom 0 0 bytes, m.offset < offset) : smallRegion offset ∉ regions bytes := by
  intro hmem
  rcases mem_regions.mp hmem with hscript | hblock
  · obtain ⟨m, -, g, -, heq⟩ := mem_scripts.mp hscript
    cases congrArg Region.kind heq
  · rw [blocks, blocksFrom_eq_filterMap] at hblock
    obtain ⟨m, hm, hregion⟩ := List.mem_filterMap.mp hblock
    have hoffset := h m hm
    unfold Met.region? at hregion
    split at hregion
    case h_1 n =>
      obtain ⟨-, hregion⟩ := Option.ite_none_left_eq_some.mp hregion
      obtain ⟨-, -, hstart⟩ := regionOf?_eq_some hregion
      simp only [smallRegion] at hstart
      omega
    case h_2 | h_3 => cases hregion

/-- A script whose body is not settled takes the small block in. -/
theorem IsScript.smallRegion_notMem (h : IsScript head body tail) (hhead : Settled head)
    (hbody : ¬ Settled body) :
    smallRegion (head ++ body).length ∉
      regions (head ++ (body ++ (scriptClosing ++ smallBlock))) := by
  have htail : scriptClosing ++ smallBlock = 60 :: (encodeText "/script><%a" ++ closing) := by
    decide +kernel
  refine Page.smallRegion_notMem fun m hm => ?_
  rw [h.metFrom_head hhead, htail] at hm
  rw [List.length_append]
  rcases List.mem_append.mp hm with hm | hm
  · have hlt := (offset_of_mem_metFrom hm).2
    omega
  · exact offset_lt_of_not_settled head.length hbody (by decide) (by decide +kernel)
      (by decide +kernel) m hm

theorem IsScript.smallRegion_mem (h : IsScript head body (scriptClosing ++ smallBlock))
    (hhead : Settled head) (hbody : Settled body) :
    smallRegion (head ++ body).length ∈
      regions (head ++ (body ++ (scriptClosing ++ smallBlock))) := by
  rw [← List.append_assoc head]
  refine Page.smallRegion_mem ?_
  rw [List.append_assoc head, h.metFrom_body hhead hbody, metFrom_smallBlock, List.length_append]
  simp

/-- Where a block is open in front of a script, its body decides whether that takes in the small
block. -/
theorem exists_regions_ne_of_not_settled (hlast : head.getLast? = some 62) (h : ¬ Settled head) :
    ∃ b b', ScriptText b ∧ ScriptText b' ∧ b'.length = b.length ∧ Settled b ∧ Settled b' ∧
      regions (head ++ (b' ++ (scriptClosing ++ smallBlock))) ≠
        regions (head ++ (b ++ (scriptClosing ++ smallBlock))) := by
  obtain ⟨c, hc, hseen⟩ := exists_closing_of_not_settled 0 h hlast
  -- Blanks leave the block open, and its closing closes it.
  have hin : smallRegion (head ++ c).length ∈
      regions (head ++ (c ++ (scriptClosing ++ smallBlock))) := by
    rw [← List.append_assoc head]
    refine Page.smallRegion_mem ?_
    obtain ⟨seen, hseen⟩ := hseen (scriptClosing ++ smallBlock)
    rw [List.append_assoc head, hseen, metFrom_smallBlock, List.length_append]
    simp
  have hout {b z : List UInt8} (hlength : b.length = c.length)
      (hb : b ++ (scriptClosing ++ smallBlock) = 32 :: (z ++ closing)) (hcode : ¬ closing <:+: z)
      (hcomment : ¬ commentClosing <:+: z ++ closing) : smallRegion (head ++ c).length ∉
        regions (head ++ (b ++ (scriptClosing ++ smallBlock))) := by
    refine Page.smallRegion_notMem fun m hm => ?_
    rw [hb] at hm
    have hlt := offset_lt_of_not_settled 0 h (by decide) hcode hcomment m hm
    rw [List.length_append]
    omega
  rcases hc with rfl | rfl
  · refine ⟨encodeText "  ", closing, ⟨by decide +kernel, by decide +kernel⟩,
      ⟨by decide +kernel, by decide +kernel⟩, by decide +kernel, by decide +kernel,
      by decide +kernel, fun heq => ?_⟩
    rw [heq] at hin
    exact hout (z := encodeText " </script><%a") (by decide +kernel) (by decide +kernel)
      (by decide +kernel) (by decide +kernel) hin
  · refine ⟨encodeText "    ", commentClosing, ⟨by decide +kernel, by decide +kernel⟩,
      ⟨by decide +kernel, by decide +kernel⟩, by decide +kernel, by decide +kernel,
      by decide +kernel, fun heq => ?_⟩
    rw [heq] at hin
    exact hout (z := encodeText "   </script><%a") (by decide +kernel) (by decide +kernel)
      (by decide +kernel) (by decide +kernel) hin

/-- What a page does not depend on: its scripts do not depend on the text of a script, nor do its
regions if all blocks that open in front of the script or in it are closed there. Both conditions
are sharp. -/
theorem regions_independent_of_body_iff (h : IsScript head body tail) (hbody : ScriptText body) :
    (∀ body', ScriptText body' → body'.length = body.length →
      scripts (head ++ (body' ++ tail)) = scripts (head ++ (body ++ tail)) ∧
        (Settled head → Settled body → Settled body' →
          regions (head ++ (body' ++ tail)) = regions (head ++ (body ++ tail)))) ∧
      (Settled head ↔ ∀ b b' rest, ScriptText b → ScriptText b' → b'.length = b.length →
        Settled b → Settled b' →
          regions (head ++ (b' ++ (scriptClosing ++ rest))) =
            regions (head ++ (b ++ (scriptClosing ++ rest)))) ∧
      (Settled head → ∀ body', ScriptText body' → body'.length = body.length → Settled body' →
        (Settled body ↔ ∀ rest, regions (head ++ (body' ++ (scriptClosing ++ rest))) =
          regions (head ++ (body ++ (scriptClosing ++ rest))))) := by
  have hclosed (b rest : List UInt8) (hb : ScriptText b) :
      IsScript head b (scriptClosing ++ rest) := by
    obtain ⟨n, hn⟩ := exists_closingTag?_scriptClosing rest
    exact h.other hbody hb hn
  refine ⟨fun body' hbody' hlength => ⟨h.scripts_eq hbody hbody' hlength,
    h.regions_eq hbody hbody' hlength⟩, ⟨?_, ?_⟩, ?_⟩
  · intro hhead b b' rest hb hb' hlength hsettled hsettled'
    exact (hclosed b rest hb).regions_eq hb hb' hlength hhead hsettled hsettled'
  · intro hsame
    by_contra hhead
    obtain ⟨front, -, rfl, -⟩ := h.exists_brackets
    obtain ⟨b, b', hb, hb', hlength, hsettled, hsettled', hne⟩ :=
      exists_regions_ne_of_not_settled (by simp) hhead
    exact hne (hsame b b' smallBlock hb hb' hlength hsettled hsettled')
  · intro hhead body' hbody' hlength hsettled'
    refine ⟨fun hsettled rest =>
      (hclosed body rest hbody).regions_eq hbody hbody' hlength hhead hsettled hsettled', ?_⟩
    intro hsame
    by_contra hsettled
    refine h.smallRegion_notMem hhead hsettled ?_
    have hin := (hclosed body' smallBlock hbody').smallRegion_mem hhead hsettled'
    rwa [hsame smallBlock, List.length_append, hlength, ← List.length_append] at hin

def scriptedPage (text : String) : List UInt8 :=
  encodeText "<script runat=server>" ++ (encodeText text ++ encodeText "</script><% Foo() %>")

/-- A marker that is closed in the script is as good as any other text. -/
theorem scriptedPage_closed_marker :
    IsScript (encodeText "<script runat=server>") (encodeText "s=\"<%=%>\";")
        (encodeText "</script><% Foo() %>") ∧
      scriptedPage "s=\"<%=%>\";" ≠ scriptedPage "s=\"     \";" ∧
      regions (scriptedPage "s=\"     \";") = regions (scriptedPage "s=\"<%=%>\";") := by
  have hscript : IsScript (encodeText "<script runat=server>") (encodeText "s=\"<%=%>\";")
      (encodeText "</script><% Foo() %>") := by decide +kernel
  have htext : ScriptText (encodeText "s=\"<%=%>\";") := ⟨by decide +kernel, by decide +kernel⟩
  have hother : ScriptText (encodeText "s=\"     \";") := ⟨by decide +kernel, by decide +kernel⟩
  obtain ⟨hsame, -⟩ := regions_independent_of_body_iff hscript htext
  refine ⟨hscript, by decide +kernel, ?_⟩
  exact (hsame _ hother (by decide +kernel)).2 (by decide +kernel) (by decide +kernel)
    (by decide +kernel)

/-- A marker in a string of the script hides the block behind it. -/
theorem scriptedPage_open_marker :
    IsScript (encodeText "<script runat=server>") (encodeText "s=\"<%\";")
        (encodeText "</script><% Foo() %>") ∧
      IsScript (encodeText "<script runat=server>") (encodeText "s=\"  \";")
        (encodeText "</script><% Foo() %>") ∧
      ScriptText (encodeText "s=\"<%\";") ∧ ScriptText (encodeText "s=\"  \";") ∧
      (encodeText "s=\"<%\";").length = (encodeText "s=\"  \";").length ∧
      regions (scriptedPage "s=\"<%\";") = [⟨21, 28, .members⟩] ∧
      regions (scriptedPage "s=\"  \";") = [⟨21, 28, .members⟩, ⟨39, 46, .statements⟩] := by
  refine ⟨by decide +kernel, by decide +kernel, ⟨by decide +kernel, by decide +kernel⟩,
    ⟨by decide +kernel, by decide +kernel⟩, by decide +kernel, ?_, ?_⟩
  · have hparts : scripts (scriptedPage "s=\"<%\";") = [⟨21, 28, .members⟩] ∧
        blocks (scriptedPage "s=\"<%\";") = [] := by decide +kernel
    show (scripts _ ++ blocks _).mergeSort _ = _
    rw [hparts.1, hparts.2]
    exact List.mergeSort_singleton _
  · have hparts : scripts (scriptedPage "s=\"  \";") = [⟨21, 28, .members⟩] ∧
        blocks (scriptedPage "s=\"  \";") = [⟨39, 46, .statements⟩] := by decide +kernel
    show (scripts _ ++ blocks _).mergeSort _ = _
    rw [hparts.1, hparts.2]
    simp [List.mergeSort, List.MergeSort.Internal.splitInTwo]

end CodeGraph.Page
