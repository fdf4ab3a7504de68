import CodeGraph.Page.Body
import CodeGraph.Proofs.Text.Decoding
import CodeGraph.Proofs.Text.Patterns
import CodeGraph.Proofs.Text.Seq
import Mathlib.Data.List.Pairwise

/-!
The regions of a page lie inside it and are sorted by where they start. Scripts do not overlap
among themselves, nor do blocks. A block and a script overlap exactly when the block begins before
the body of the script and ends behind its beginning: only where a block opens is compared with
the scripts. Such a page has no class body, and every other page has one.
-/

namespace CodeGraph

namespace Page

open Pattern

/-! ### Scripts -/

theorem byteOffset_eq_sum (symbols : List Symbol) (place : Nat) :
    byteOffset symbols place = ((symbols.take place).map Symbol.width).sum := rfl

theorem byteOffset_mono (symbols : List Symbol) {i j : Nat} (h : i ≤ j) :
    byteOffset symbols i ≤ byteOffset symbols j := by
  obtain ⟨k, rfl⟩ := Nat.exists_eq_add_of_le h
  rw [byteOffset_eq_sum, byteOffset_eq_sum, List.take_add, List.map_append, List.sum_append]
  exact Nat.le_add_right _ _

theorem byteOffset_length_append (before after : List Symbol) :
    byteOffset (before ++ after) before.length = (before.map Symbol.width).sum := by
  rw [byteOffset_eq_sum, List.take_left]

theorem byteOffset_behind_bracket (before after : List Symbol) :
    byteOffset (before ++ .char '>' :: after) (before.length + 1) =
      byteOffset (before ++ .char '>' :: after) before.length + 1 := by
  have hsplit : before ++ .char '>' :: after = (before ++ [.char '>']) ++ after := by simp
  have hlength : before.length + 1 = (before ++ [Symbol.char '>']).length := by simp
  rw [byteOffset_length_append, hsplit, hlength, byteOffset_length_append, List.map_append,
    List.sum_append]
  rfl

/-- The parts of the script pattern in front of the closing bracket of the tag. -/
def scriptTag : List Pattern :=
  [keyword "<script", edge, most (one (· != '>')), edge, keyword "runat", spaces, char '=',
    spaces, opt (one isQuote), keyword "server", opt (one isQuote), most (one (· != '>'))]

def scriptEnd : List Pattern :=
  [keyword "</script", spaces, char '>']

theorem scriptPattern_eq : scriptPattern =
    seqs (scriptTag ++ char '>' :: group 1 (fewest (one fun _ => true)) :: scriptEnd) :=
  rfl

/-- The body of a script stands inside its match, right behind a closing bracket. -/
theorem body_of_mem_all {symbols : List Symbol} {m : Match} {g : Group}
    (hm : m ∈ scriptPattern.all symbols) (hg : m.group? 1 = some g) :
    g.start ≤ g.stop ∧ g.stop ≤ m.stop ∧ m.stop ≤ symbols.length ∧
      ∃ before after, symbols = before ++ .char '>' :: after ∧ m.start ≤ before.length ∧
        g.start = before.length + 1 := by
  obtain ⟨before, rest, last, rfl, -, hhere⟩ := exists_here?_of_mem_allFrom hm
  obtain ⟨reached, hreached, hstart, hstop, hgroups, -⟩ := here?_eq_some hhere
  obtain ⟨whole, hwhole, hwholeOffset⟩ := (reaches_of_mem_runs hreached).rest
  dsimp only at hwhole hwholeOffset
  rw [scriptPattern_eq, mem_runs_seqs_append] at hreached
  obtain ⟨tag, htag, hreached⟩ := hreached
  obtain ⟨opened, hopened, hreached⟩ := mem_runs_seqs_cons.mp hreached
  obtain ⟨closed, hclosed, hreached⟩ := mem_runs_seqs_cons.mp hreached
  obtain ⟨c, behind, hbehind, hc, rfl⟩ := mem_runs_one.mp hopened
  obtain rfl : c = '>' := beq_iff_eq.mp hc
  obtain ⟨body, hbody, rfl⟩ := List.mem_map.mp hclosed
  -- Only the body is remembered.
  have htagGroups : tag.groups = [] := groups_of_groupFree (by decide +kernel) htag
  have hbodyGroups : body.groups = [] := (groups_of_groupFree (by decide) hbody).trans htagGroups
  have hendGroups := groups_of_groupFree (p := seqs scriptEnd) (by decide +kernel) hreached
  have hmem : g ∈ m.groups := List.mem_reverse.mp (List.mem_of_find?_eq_some hg)
  rw [hgroups, hendGroups, hbodyGroups] at hmem
  obtain rfl := List.mem_singleton.mp hmem
  -- The places on the way follow one another.
  obtain ⟨read, hread, htagOffset⟩ := (reaches_of_mem_runs htag).rest
  dsimp only at hread htagOffset
  have hbodyOffset : tag.offset + 1 ≤ body.offset := (reaches_of_mem_runs hbody).offset_le
  have hendOffset : body.offset ≤ reached.offset := (reaches_of_mem_runs hreached).offset_le
  have hrest : rest = read ++ .char '>' :: behind := by rw [hread, hbehind]
  have hlength : rest.length = whole.length + reached.rest.length := by
    rw [← List.length_append, ← hwhole]
  refine ⟨hbodyOffset, hstop ▸ hendOffset, ?_, before ++ read, behind, ?_, ?_, ?_⟩
  · rw [hstop, hwholeOffset, List.length_append]
    omega
  · rw [hrest, List.append_assoc]
  · rw [hstart, List.length_append]
    omega
  · show tag.offset + 1 = _
    rw [htagOffset, List.length_append]
    omega

theorem mem_scripts {bytes : List UInt8} {s : Region} :
    s ∈ scripts bytes ↔ ∃ m ∈ scriptPattern.all (Utf8.decode bytes), ∃ g, m.group? 1 = some g ∧
      s = ⟨byteOffset (Utf8.decode bytes) g.start, byteOffset (Utf8.decode bytes) g.stop,
        .members⟩ := by
  simp only [scripts, List.mem_map, List.mem_filterMap]
  constructor
  · rintro ⟨g, ⟨m, hm, hg⟩, rfl⟩
    exact ⟨m, hm, g, hg, rfl⟩
  · rintro ⟨m, hm, g, hg, rfl⟩
    exact ⟨g, ⟨m, hm, hg⟩, rfl⟩

/-- Scripts lie inside the page, and the byte in front of each is the closing bracket of its tag. -/
theorem bounds_of_mem_scripts {bytes : List UInt8} {s : Region} (h : s ∈ scripts bytes) :
    s.start ≤ s.stop ∧ s.stop ≤ bytes.length ∧
      ∃ k, s.start = k + 1 ∧ bytes[k]? = some 62 := by
  obtain ⟨m, hm, g, hg, rfl⟩ := mem_scripts.mp h
  obtain ⟨horder, hstop, hlength, before, after, hsymbols, -, hstart⟩ := body_of_mem_all hm hg
  refine ⟨byteOffset_mono _ horder, ?_, byteOffset (Utf8.decode bytes) before.length, ?_, ?_⟩
  · calc byteOffset (Utf8.decode bytes) g.stop
        ≤ byteOffset (Utf8.decode bytes) (Utf8.decode bytes).length :=
          byteOffset_mono _ (Nat.le_trans hstop hlength)
      _ = bytes.length := by rw [byteOffset_eq_sum, List.take_length, Utf8.sum_width_decode]
  · show byteOffset (Utf8.decode bytes) g.start = _
    rw [hstart, hsymbols, byteOffset_behind_bracket]
  · have hbracket := Utf8.getElem?_of_decode_eq hsymbols (by decide)
    rwa [hsymbols, byteOffset_length_append]

theorem pairwise_scripts (bytes : List UInt8) :
    (scripts bytes).Pairwise fun a b => a.stop < b.start := by
  unfold scripts
  rw [List.pairwise_map, List.pairwise_filterMap]
  refine List.Pairwise.imp_of_mem (fun {m m'} hm hm' hle g hg g' hg' => ?_) (pairwise_all _ _)
  obtain ⟨-, hstop, -⟩ := body_of_mem_all hm hg
  obtain ⟨-, -, -, before, after, hsymbols, hbefore, hstart⟩ := body_of_mem_all hm' hg'
  show byteOffset (Utf8.decode bytes) g.stop < byteOffset (Utf8.decode bytes) g'.start
  calc byteOffset (Utf8.decode bytes) g.stop
      ≤ byteOffset (Utf8.decode bytes) before.length := byteOffset_mono _ (by omega)
    _ < byteOffset (Utf8.decode bytes) before.length + 1 := Nat.lt_succ_self _
    _ = byteOffset (Utf8.decode bytes) g'.start := by
      rw [hstart, hsymbols, byteOffset_behind_bracket]

/-! ### Blocks -/

def blocks (bytes : List UInt8) : List Region :=
  blocksFrom (fun offset => (scripts bytes).any (·.holds offset)) 0 0 bytes

/-- What stands behind an opening makes up this block. -/
def Block.Reads (rest : List UInt8) : Block → Prop
  | .comment n =>
      commentOpening <+: rest ∧ ∃ k, n = 2 + k + 4 ∧ Seq.FirstAt commentClosing rest k
  | .code n => ¬ commentOpening <+: rest ∧ Seq.FirstAt closing rest n
  | .unclosed =>
      ¬ (if commentOpening <+: rest then commentClosing else closing) <:+: rest

theorem block?_opening_eq_some_iff {rest : List UInt8} {block : Block} :
    block? (opening ++ rest) = some block ↔ block.Reads rest := by
  rw [block?, Seq.stripStart?_append]
  dsimp only
  by_cases hcomment : commentOpening <+: rest
  · rw [if_pos (Seq.startsWith_iff.mpr hcomment)]
    cases hfind : Seq.find? commentClosing rest <;> cases block <;>
      simp [Block.Reads, hcomment, ← Seq.find?_eq_some_iff, ← Seq.find?_eq_none_iff, hfind, eq_comm]
  · rw [if_neg (mt Seq.startsWith_iff.mp hcomment)]
    cases hfind : Seq.find? closing rest <;> cases block <;>
      simp [Block.Reads, hcomment, ← Seq.find?_eq_some_iff, ← Seq.find?_eq_none_iff, hfind]

theorem block?_eq_none_iff {bytes : List UInt8} : block? bytes = none ↔ ¬ opening <+: bytes := by
  rw [← Seq.startsWith_iff, Seq.startsWith, block?]
  split
  case h_1 hnone => simp [hnone]
  case h_2 rest hrest =>
    simp only [hrest, Option.isSome_some, not_true, iff_false]
    split <;> split <;> simp

theorem block?_eq_some_iff {bytes : List UInt8} {block : Block} :
    block? bytes = some block ↔ ∃ rest, bytes = opening ++ rest ∧ block.Reads rest := by
  constructor
  · intro h
    obtain ⟨rest, rfl⟩ : opening <+: bytes := by
      by_contra hopening
      rw [block?_eq_none_iff.mpr hopening] at h
      cases h
    exact ⟨rest, rfl, block?_opening_eq_some_iff.mp h⟩
  · rintro ⟨rest, rfl, hreads⟩
    exact block?_opening_eq_some_iff.mpr hreads

/-- The region of a block starts behind its opening or, in front of an expression, behind the
mark that follows. -/
theorem regionOf?_eq_some {offset length : Nat} {first : Option UInt8} {r : Region}
    (h : regionOf? offset length first = some r) :
    r.start < r.stop ∧ r.stop = offset + 2 + length ∧
      (r.start = offset + 2 ∨ r.start = offset + 3 ∧ first ≠ some 62) := by
  unfold regionOf? at h
  dsimp only at h
  split_ifs at h with h1 h2 h3 h4
  · cases h
    refine ⟨h3, rfl, .inr ⟨rfl, ?_⟩⟩
    rintro rfl
    revert h2
    decide
  · cases h
    exact ⟨h4, rfl, .inl rfl⟩

/-- A region of a block that opens in `bytes`, which stand at `offset`, and not in the first `skip`
of them. Where the block opens there is no script, and between there and the region there is no
closing bracket. -/
structure OfBlock (inScript : Nat → Bool) (offset skip : Nat) (bytes : List UInt8) (r : Region) :
    Prop where
  start_lt : r.start < r.stop
  stop_le : r.stop ≤ offset + bytes.length
  opening : ∃ k, skip ≤ k ∧ inScript (offset + k) = false ∧ offset + k + 2 ≤ r.start ∧
    ∀ i, k ≤ i → offset + i < r.start → bytes[i]? ≠ some 62

theorem OfBlock.cons {inScript : Nat → Bool} {offset skip skip' : Nat} {bytes : List UInt8}
    {r : Region} (h : OfBlock inScript (offset + 1) skip bytes r) (hskip : skip' ≤ skip + 1)
    (b : UInt8) : OfBlock inScript offset skip' (b :: bytes) r := by
  obtain ⟨hlt, hstop, k, hk, hscript, hstart, hbracket⟩ := h
  refine ⟨hlt, ?_, k + 1, by omega, ?_, by omega, fun i hi hbefore => ?_⟩
  · rw [List.length_cons]
    omega
  · rwa [Nat.add_assoc, Nat.add_comm 1] at hscript
  · obtain ⟨j, rfl⟩ := Nat.exists_eq_add_of_le hi
    rw [Nat.add_right_comm, List.getElem?_cons_succ]
    exact hbracket (k + j) (by omega) (by omega)

theorem ofBlock_of_code {inScript : Nat → Bool} {offset n : Nat} {b : UInt8} {s : List UInt8}
    {r : Region} (hblock : block? (b :: s) = some (.code n)) (hscript : inScript offset = false)
    (hr : regionOf? offset n (s.drop 1).head? = some r) :
    OfBlock inScript offset 0 (b :: s) r := by
  obtain ⟨rest, hbytes, -, hclosing⟩ := block?_eq_some_iff.mp hblock
  obtain ⟨hlt, hstop, hstart⟩ := regionOf?_eq_some hr
  have hlength : 2 + (n + 2) ≤ (b :: s).length := by
    rw [hbytes, List.length_append]
    exact Nat.add_le_add_left hclosing.le_length 2
  refine ⟨hlt, by omega, 0, Nat.le_refl 0, hscript, by omega, fun i _ hi => ?_⟩
  obtain rfl | rfl | rfl : i = 0 ∨ i = 1 ∨ i = 2 := by omega
  · rw [hbytes]
    simp [opening]
  · rw [hbytes]
    simp [opening]
  · rcases hstart with hstart | ⟨-, hfirst⟩
    · omega
    · rwa [List.head?_drop] at hfirst

theorem ofBlock_of_mem_blocksFrom {inScript : Nat → Bool} {offset skip : Nat}
    {bytes : List UInt8} {r : Region} (h : r ∈ blocksFrom inScript offset skip bytes) :
    OfBlock inScript offset skip bytes r := by
  fun_induction blocksFrom inScript offset skip bytes with
  | case1 | case4 => cases h
  | case2 offset b s skip ih => exact (ih h).cons (Nat.le_refl _) b
  | case3 offset b s hnone ih => exact (ih h).cons (Nat.zero_le _) b
  | case5 offset b s n hblock ih => exact (ih h).cons (Nat.zero_le _) b
  | case6 offset b s n hblock rest hscript ih => exact (ih h).cons (Nat.zero_le _) b
  | case7 offset b s n hblock rest hscript ih =>
      rcases List.mem_append.mp h with h | h
      · exact ofBlock_of_code hblock (Bool.eq_false_iff.mpr hscript) (Option.mem_toList.mp h)
      · exact (ih h).cons (Nat.zero_le _) b

theorem pairwise_blocksFrom (inScript : Nat → Bool) (offset skip : Nat) (bytes : List UInt8) :
    (blocksFrom inScript offset skip bytes).Pairwise fun a b => a.stop < b.start := by
  fun_induction blocksFrom inScript offset skip bytes with
  | case1 | case4 => exact .nil
  | case2 offset b s skip ih => exact ih
  | case3 offset b s hnone ih => exact ih
  | case5 offset b s n hblock ih => exact ih
  | case6 offset b s n hblock rest hscript ih => exact ih
  | case7 offset b s n hblock rest hscript ih =>
      refine List.pairwise_append.mpr ⟨?_, ih, fun r hr r' hr' => ?_⟩
      · cases regionOf? offset n (s.drop 1).head? <;> simp
      · obtain ⟨-, hstop, -⟩ := regionOf?_eq_some (Option.mem_toList.mp hr)
        obtain ⟨-, -, k, hk, -, hstart, -⟩ := ofBlock_of_mem_blocksFrom hr'
        omega

/-! ### All regions -/

theorem Region.holds_iff {r : Region} {i : Nat} : r.holds i = true ↔ r.start ≤ i ∧ i < r.stop := by
  simp only [Region.holds, Bool.and_eq_true, decide_eq_true_eq]

theorem regions_perm (bytes : List UInt8) : (regions bytes).Perm (scripts bytes ++ blocks bytes) :=
  List.mergeSort_perm _ _

theorem mem_regions {bytes : List UInt8} {r : Region} :
    r ∈ regions bytes ↔ r ∈ scripts bytes ∨ r ∈ blocks bytes :=
  (regions_perm bytes).mem_iff.trans List.mem_append

theorem bounds_of_mem_regions {bytes : List UInt8} {r : Region} (h : r ∈ regions bytes) :
    r.start ≤ r.stop ∧ r.stop ≤ bytes.length := by
  rcases mem_regions.mp h with h | h
  · obtain ⟨horder, hstop, -⟩ := bounds_of_mem_scripts h
    exact ⟨horder, hstop⟩
  · obtain ⟨hlt, hstop, -⟩ := ofBlock_of_mem_blocksFrom h
    exact ⟨Nat.le_of_lt hlt, by omega⟩

theorem sorted_regions (bytes : List UInt8) :
    (regions bytes).Pairwise fun a b => a.start ≤ b.start := by
  refine List.Pairwise.imp (fun h => of_decide_eq_true h)
    (List.pairwise_mergeSort (fun a b c => ?_) (fun a b => ?_) _)
  · simp only [decide_eq_true_eq]
    omega
  · simp only [Bool.or_eq_true, decide_eq_true_eq]
    omega

/-- A block and a script start at different bytes, and they overlap only if the block begins
before the body of the script and ends behind its beginning. -/
theorem block_script_apart {bytes : List UInt8} {b s : Region} (hb : b ∈ blocks bytes)
    (hs : s ∈ scripts bytes) (h : ¬ (b.start < s.start ∧ s.start < b.stop)) :
    (b.stop ≤ s.start ∨ s.stop ≤ b.start) ∧ b.start ≠ s.start := by
  obtain ⟨-, -, k, -, hscript, hopening, hbracket⟩ := ofBlock_of_mem_blocksFrom hb
  obtain ⟨-, -, l, hl, hbyte⟩ := bounds_of_mem_scripts hs
  -- The closing bracket in front of the script is not between the opening and the region.
  have hbehind : l < k ∨ b.start ≤ l := by
    by_contra hinside
    exact hbracket l (by omega) (by omega) hbyte
  have hholds : ¬ s.holds k = true := by
    have hnone := List.any_eq_false.mp hscript s hs
    simpa using hnone
  rw [Region.holds_iff] at hholds
  omega

/-- No region starts before the end of an earlier one. -/
def Disjoint (rs : List Region) : Prop :=
  rs.Pairwise fun a b => a.stop ≤ b.start

instance (rs : List Region) : Decidable (Disjoint rs) :=
  inferInstanceAs (Decidable (rs.Pairwise fun a b => a.stop ≤ b.start))

/-- A block begins before the body of a script and ends behind its beginning. -/
def Straddles (b s : Region) : Prop :=
  b.start < s.start ∧ s.start < b.stop

theorem disjoint_regions_of_not_straddles {bytes : List UInt8}
    (h : ∀ b ∈ blocks bytes, ∀ s ∈ scripts bytes, ¬ Straddles b s) : Disjoint (regions bytes) := by
  -- Being apart in either order does not depend on the order of the list.
  let apart (a b : Region) : Prop := (a.stop ≤ b.start ∨ b.stop ≤ a.start) ∧ a.start ≠ b.start
  have happart : (scripts bytes ++ blocks bytes).Pairwise apart := by
    refine List.pairwise_append.mpr ⟨?_, ?_, fun s hs b hb => ?_⟩
    · refine List.Pairwise.imp_of_mem (fun {a b} ha _ hab => ?_) (pairwise_scripts bytes)
      obtain ⟨horder, -⟩ := bounds_of_mem_scripts ha
      exact ⟨.inl (Nat.le_of_lt hab), by omega⟩
    · refine List.Pairwise.imp_of_mem (fun {a b} ha _ hab => ?_) (pairwise_blocksFrom _ _ _ _)
      have hlt := (ofBlock_of_mem_blocksFrom ha).start_lt
      exact ⟨.inl (Nat.le_of_lt hab), by omega⟩
    · obtain ⟨hor, hne⟩ := block_script_apart hb hs (h b hb s hs)
      exact ⟨hor.symm, hne.symm⟩
  have hsymm : ∀ {a b}, apart a b → apart b a := fun hab => ⟨hab.1.symm, hab.2.symm⟩
  have hregions : (regions bytes).Pairwise apart :=
    ((regions_perm bytes).pairwise_iff hsymm).mpr happart
  refine List.Pairwise.imp_of_mem (fun {a b} _ hb hab => ?_) (hregions.and (sorted_regions bytes))
  obtain ⟨⟨hor, hne⟩, hle⟩ := hab
  obtain ⟨horder, -⟩ := bounds_of_mem_regions hb
  omega

theorem not_straddles_of_disjoint_regions {bytes : List UInt8} (h : Disjoint (regions bytes))
    {b s : Region} (hb : b ∈ blocks bytes) (hs : s ∈ scripts bytes) : ¬ Straddles b s := by
  rintro ⟨hbefore, hbehind⟩
  obtain ⟨horder, -⟩ := bounds_of_mem_scripts hs
  let apart (a b : Region) : Prop := a.stop ≤ b.start ∨ b.stop ≤ a.start
  have hsymm : ∀ {a b}, apart a b → apart b a := Or.symm
  have hregions : (scripts bytes ++ blocks bytes).Pairwise apart :=
    ((regions_perm bytes).pairwise_iff hsymm).mp (h.imp .inl)
  have hcross : apart s b := (List.pairwise_append.mp hregions).2.2 s hs b hb
  rcases hcross with hcross | hcross <;> omega

/-! ### Class bodies -/

/-- A draft takes up regions that lie behind it and do not overlap, and no others. -/
theorem isSome_foldlM_add? {bytes : List UInt8} {rs : List Region}
    (hrs : ∀ r ∈ rs, r.start ≤ r.stop) (d : Draft) :
    (rs.foldlM (Draft.add? bytes) d).isSome ↔ (∀ r ∈ rs, d.position ≤ r.start) ∧ Disjoint rs := by
  induction rs generalizing d with
  | nil => simp [Disjoint]
  | cons r rs ih =>
      have hr : r.start ≤ r.stop := hrs r List.mem_cons_self
      have hrest : ∀ r' ∈ rs, r'.start ≤ r'.stop := fun r' h => hrs r' (List.mem_cons_of_mem r h)
      rw [List.foldlM_cons, Disjoint, List.pairwise_cons, List.forall_mem_cons]
      by_cases hle : d.position ≤ r.start
      · rw [Draft.add?, if_pos hle]
        refine (ih hrest _).trans ⟨fun ⟨hstop, hdisjoint⟩ => ?_, fun ⟨_, hstop, hdisjoint⟩ => ?_⟩
        · refine ⟨⟨hle, fun r' h => ?_⟩, hstop, hdisjoint⟩
          have hbehind : r.stop ≤ r'.start := hstop r' h
          omega
        · exact ⟨hstop, hdisjoint⟩
      · rw [Draft.add?, if_neg hle]
        simp [hle]

theorem isSome_classBody?_iff (bytes : List UInt8) :
    (classBody? bytes).isSome ↔ Disjoint (regions bytes) := by
  rw [classBody?, Option.isSome_map,
    isSome_foldlM_add? fun r h => (bounds_of_mem_regions h).1]
  simp

/-- The regions of a page lie inside it and are sorted. They are disjoint, and the page has a class
body, exactly if no block runs into the body of a script. -/
theorem regions_disjoint_iff (bytes : List UInt8) :
    (∀ r ∈ regions bytes, r.start ≤ r.stop ∧ r.stop ≤ bytes.length) ∧
      (regions bytes).Pairwise (fun a b => a.start ≤ b.start) ∧
      (Disjoint (regions bytes) ↔
        ∀ b ∈ blocks bytes, ∀ s ∈ scripts bytes, ¬ Straddles b s) ∧
      ((classBody? bytes).isSome ↔ Disjoint (regions bytes)) :=
  ⟨fun _ => bounds_of_mem_regions, sorted_regions bytes,
    ⟨fun h _ hb _ hs => not_straddles_of_disjoint_regions h hb hs,
      disjoint_regions_of_not_straddles⟩,
    isSome_classBody?_iff bytes⟩

/-- A script inside a block gives a region inside another one, and the page has no class body. -/
theorem script_in_block_overlaps :
    regions (Utf8.encode "<% <script runat=server>a</script> %>".toList) =
        [⟨2, 35, .statements⟩, ⟨24, 25, .members⟩] ∧
      ¬ Disjoint (regions (Utf8.encode "<% <script runat=server>a</script> %>".toList)) ∧
      classBody? (Utf8.encode "<% <script runat=server>a</script> %>".toList) = none := by
  let page := Utf8.encode "<% <script runat=server>a</script> %>".toList
  have hparts : scripts page = [⟨24, 25, .members⟩] ∧ blocks page = [⟨2, 35, .statements⟩] := by
    decide +kernel
  have hregions : regions page = [⟨2, 35, .statements⟩, ⟨24, 25, .members⟩] := by
    show (scripts page ++ blocks page).mergeSort _ = _
    rw [hparts.1, hparts.2]
    simp [List.mergeSort, List.MergeSort.Internal.splitInTwo]
  have hoverlap : ¬ Disjoint (regions page) := by
    rw [hregions]
    decide
  have hnone : ¬ (classBody? page).isSome := fun h => hoverlap ((isSome_classBody?_iff page).mp h)
  exact ⟨hregions, hoverlap, Option.not_isSome_iff_eq_none.mp hnone⟩

end Page

end CodeGraph
