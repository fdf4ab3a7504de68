import CodeGraph.Proofs.Page.Regions

/-!
The scan for blocks, seen as the list of the blocks that it meets. Each block opens where the block
before it has ended, or later, and the regions of a page's blocks are those of the code blocks met
outside of server scripts. A closed block is read from its own bytes, so the scan up to a block
depends on nothing behind the opening of that block.
-/

namespace CodeGraph.Page

/-! ### Blocks that the scan meets -/

/-- A block with the offset at which it opens and the byte behind its opening. -/
structure Met where
  offset : Nat
  block : Block
  first : Option UInt8
  deriving DecidableEq, Repr

/-- The number of bytes of a block, delimiters included. Behind an unclosed one nothing is
scanned. -/
def Block.size : Block → Nat
  | .unclosed => 0
  | .comment n => n
  | .code n => n + 4

/-- The blocks met from here on, when `skip` bytes still belong to the block before. -/
def metFrom (offset skip : Nat) : List UInt8 → List Met
  | [] => []
  | b :: s =>
      match skip with
      | skip + 1 => metFrom (offset + 1) skip s
      | 0 =>
          match block? (b :: s) with
          | none => metFrom (offset + 1) 0 s
          | some .unclosed => [⟨offset, .unclosed, (s.drop 1).head?⟩]
          | some (.comment n) =>
              ⟨offset, .comment n, (s.drop 1).head?⟩ :: metFrom (offset + 1) (n - 1) s
          | some (.code n) =>
              ⟨offset, .code n, (s.drop 1).head?⟩ :: metFrom (offset + 1) (n + 3) s

def Met.region? (inScript : Nat → Bool) (m : Met) : Option Region :=
  match m.block with
  | .code n => if inScript m.offset then none else regionOf? m.offset n m.first
  | .unclosed | .comment _ => none

theorem blocksFrom_eq_filterMap (inScript : Nat → Bool) (offset skip : Nat)
    (bytes : List UInt8) :
    blocksFrom inScript offset skip bytes =
      (metFrom offset skip bytes).filterMap (Met.region? inScript) := by
  fun_induction blocksFrom inScript offset skip bytes with
  | case1 => rfl
  | case2 offset b s skip ih => rw [ih, metFrom]
  | case3 offset b s hnone ih => rw [ih, metFrom, hnone]
  | case4 offset b s hunclosed =>
      rw [metFrom, hunclosed]
      rfl
  | case5 offset b s n hcomment ih =>
      rw [ih, metFrom, hcomment]
      rfl
  | case6 offset b s n hcode rest hscript ih =>
      have hregion : Met.region? inScript ⟨offset, .code n, (s.drop 1).head?⟩ = none :=
        if_pos hscript
      rw [metFrom, hcode]
      exact ih.trans (List.filterMap_cons_none hregion).symm
  | case7 offset b s n hcode rest hscript ih =>
      have hregion : Met.region? inScript ⟨offset, .code n, (s.drop 1).head?⟩ =
          regionOf? offset n (s.drop 1).head? := if_neg hscript
      rw [metFrom, hcode, List.filterMap_cons, hregion, ← ih]
      cases regionOf? offset n (s.drop 1).head? <;> rfl

theorem code_of_region? {inScript : Nat → Bool} {m : Met} {r : Region}
    (h : m.region? inScript = some r) :
    ∃ k, m.block = .code k ∧ r.start < r.stop ∧ r.stop = m.offset + 2 + k ∧
      m.offset + 2 ≤ r.start := by
  unfold Met.region? at h
  split at h
  case h_1 k hblock =>
    obtain ⟨-, hregion⟩ := Option.ite_none_left_eq_some.mp h
    obtain ⟨hlt, hstop, hstart⟩ := regionOf?_eq_some hregion
    exact ⟨k, hblock, hlt, hstop, by omega⟩
  case h_2 | h_3 => cases h

/-- The block opens in `bytes`, which stand at `offset`, and not in the first `skip` of them. -/
def Met.OpensIn (m : Met) (offset skip : Nat) (bytes : List UInt8) : Prop :=
  ∃ before rest, bytes = before ++ rest ∧ skip ≤ before.length ∧
    m.offset = offset + before.length ∧ block? rest = some m.block

theorem Met.OpensIn.cons {m : Met} {offset skip skip' : Nat} {bytes : List UInt8}
    (h : m.OpensIn (offset + 1) skip bytes) (hskip : skip' ≤ skip + 1) (b : UInt8) :
    m.OpensIn offset skip' (b :: bytes) := by
  obtain ⟨before, rest, rfl, hbefore, hoffset, hblock⟩ := h
  refine ⟨b :: before, rest, rfl, ?_, ?_, hblock⟩ <;>
    rw [List.length_cons] <;> omega

theorem opensIn_of_mem_metFrom {offset skip : Nat} {bytes : List UInt8} {m : Met}
    (h : m ∈ metFrom offset skip bytes) : m.OpensIn offset skip bytes := by
  fun_induction metFrom offset skip bytes with
  | case1 => cases h
  | case2 offset b s skip ih => exact (ih h).cons (Nat.le_refl _) b
  | case3 offset b s hnone ih => exact (ih h).cons (Nat.zero_le _) b
  | case4 offset b s hunclosed =>
      obtain rfl := List.mem_singleton.mp h
      exact ⟨[], b :: s, rfl, Nat.le_refl 0, rfl, hunclosed⟩
  | case5 offset b s n hblock ih | case6 offset b s n hblock ih =>
      rcases List.mem_cons.mp h with rfl | h
      · exact ⟨[], b :: s, rfl, Nat.le_refl 0, rfl, hblock⟩
      · exact (ih h).cons (Nat.zero_le _) b

/-- Of two blocks the earlier one ends before the later one opens. -/
theorem pairwise_metFrom (offset skip : Nat) (bytes : List UInt8) :
    (metFrom offset skip bytes).Pairwise fun m m' => m.offset + m.block.size ≤ m'.offset := by
  fun_induction metFrom offset skip bytes with
  | case1 => exact .nil
  | case2 offset b s skip ih => exact ih
  | case3 offset b s hnone ih => exact ih
  | case4 offset b s hunclosed => exact List.pairwise_singleton _ _
  | case5 offset b s n hcomment ih =>
      refine List.Pairwise.cons (fun m hm => ?_) ih
      obtain ⟨before, -, -, hskip, hoffset, -⟩ := opensIn_of_mem_metFrom hm
      show offset + n ≤ m.offset
      omega
  | case6 offset b s n hcode ih =>
      refine List.Pairwise.cons (fun m hm => ?_) ih
      obtain ⟨before, -, -, hskip, hoffset, -⟩ := opensIn_of_mem_metFrom hm
      show offset + (n + 4) ≤ m.offset
      omega

theorem apart_of_mem_metFrom {offset skip : Nat} {bytes : List UInt8} {m m' : Met}
    (hm : m ∈ metFrom offset skip bytes) (hm' : m' ∈ metFrom offset skip bytes) (hne : m ≠ m') :
    m.offset + m.block.size ≤ m'.offset ∨ m'.offset + m'.block.size ≤ m.offset := by
  let apart (m m' : Met) : Prop :=
    m.offset + m.block.size ≤ m'.offset ∨ m'.offset + m'.block.size ≤ m.offset
  have hsymm : Std.Symm apart := ⟨fun _ _ h => h.symm⟩
  have hpairwise : (metFrom offset skip bytes).Pairwise apart :=
    (pairwise_metFrom offset skip bytes).imp .inl
  exact hpairwise.forall hm hm' hne

/-! ### Reading blocks -/

theorem four_le_size_of_block? {bytes : List UInt8} {block : Block} (h : block? bytes = some block)
    (hclosed : block ≠ .unclosed) : 4 ≤ block.size := by
  obtain ⟨rest, -, hreads⟩ := block?_eq_some_iff.mp h
  cases block with
  | unclosed => exact absurd rfl hclosed
  | comment n =>
      obtain ⟨-, k, rfl, -⟩ := hreads
      simp only [Block.size]
      omega
  | code n =>
      simp only [Block.size]
      omega

theorem Block.Reads.congr {block : Block} {rest rest' : List UInt8} (h : block.Reads rest)
    (hclosed : block ≠ .unclosed)
    (hrest : rest.take (block.size - 2) = rest'.take (block.size - 2)) : block.Reads rest' := by
  cases block with
  | unclosed => exact absurd rfl hclosed
  | comment n =>
      obtain ⟨hcomment, k, rfl, hclosing⟩ := h
      have hsize : (Block.comment (2 + k + 4)).size - 2 = k + 4 := by
        simp only [Block.size]
        omega
      rw [hsize] at hrest
      have hdashes : commentOpening <+: rest ↔ commentOpening <+: rest' :=
        Seq.prefix_iff_of_take_eq (Nat.le_add_left 2 (k + 2)) hrest
      exact ⟨hdashes.mp hcomment, k, rfl, hclosing.congr hrest⟩
  | code n =>
      have hdashes : commentOpening <+: rest ↔ commentOpening <+: rest' :=
        Seq.prefix_iff_of_take_eq (Nat.le_add_left 2 n) hrest
      exact ⟨mt hdashes.mpr h.1, h.2.congr hrest⟩

/-- A closed block is read from its own bytes. -/
theorem block?_congr {bytes bytes' : List UInt8} {block : Block} (h : block? bytes = some block)
    (hclosed : block ≠ .unclosed) (htake : bytes.take block.size = bytes'.take block.size) :
    block? bytes' = some block := by
  have hsize := four_le_size_of_block? h hclosed
  obtain ⟨rest, rfl, hreads⟩ := block?_eq_some_iff.mp h
  obtain ⟨rest', rfl⟩ : opening <+: bytes' :=
    (Seq.prefix_iff_of_take_eq (show 2 ≤ block.size by omega) htake).mp (List.prefix_append _ _)
  refine block?_opening_eq_some_iff.mpr (hreads.congr hclosed ?_)
  have hdrop := congrArg (List.drop 2) htake
  rwa [List.drop_take, List.drop_take] at hdrop

theorem block?_eq_none_of_take_eq {bytes bytes' : List UInt8} (h : block? bytes = none)
    (htake : bytes.take 2 = bytes'.take 2) : block? bytes' = none := by
  rw [block?_eq_none_iff] at h ⊢
  exact mt (Seq.prefix_iff_of_take_eq (Nat.le_refl 2) htake).mpr h

/-! ### Steps of the scan -/

theorem metFrom_skip (offset skip : Nat) (bytes : List UInt8) :
    metFrom offset skip bytes = metFrom (offset + skip) 0 (bytes.drop skip) := by
  induction skip generalizing offset bytes with
  | zero => rfl
  | succ skip ih =>
      cases bytes with
      | nil => rfl
      | cons b s => rw [metFrom, ih, List.drop_succ_cons, Nat.add_assoc, Nat.add_comm 1]

theorem metFrom_of_none (offset : Nat) {bytes : List UInt8} (h : block? bytes = none) :
    metFrom offset 0 bytes = metFrom (offset + 1) 0 (bytes.drop 1) := by
  cases bytes with
  | nil => rfl
  | cons b s =>
      rw [metFrom, h]
      rfl

/-- The scan passes over bytes among which nothing opens. -/
theorem metFrom_of_not_opening {text rest : List UInt8} (offset : Nat)
    (h : ∀ i < text.length, ¬ opening <+: (text ++ rest).drop i) :
    metFrom offset 0 (text ++ rest) = metFrom (offset + text.length) 0 rest := by
  induction text generalizing offset with
  | nil => rfl
  | cons b text ih =>
      have hnone : block? (b :: text ++ rest) = none :=
        block?_eq_none_iff.mpr (h 0 (Nat.succ_pos _))
      have hrest := ih (offset + 1) fun i hi => h (i + 1) (Nat.succ_lt_succ hi)
      rw [metFrom_of_none offset hnone, List.length_cons, Nat.add_comm text.length, ← Nat.add_assoc]
      exact hrest

/-- The scan goes on behind a block that is closed. -/
theorem metFrom_of_closed (offset : Nat) {bytes : List UInt8} {block : Block}
    (h : block? bytes = some block) (hclosed : block ≠ .unclosed) :
    metFrom offset 0 bytes =
      ⟨offset, block, (bytes.drop 2).head?⟩ ::
        metFrom (offset + block.size) 0 (bytes.drop block.size) := by
  have hsize := four_le_size_of_block? h hclosed
  cases bytes with
  | nil => cases h
  | cons b s =>
      rw [← metFrom_skip, metFrom, h]
      cases block with
      | unclosed => exact absurd rfl hclosed
      | comment n =>
          have hpos : 1 ≤ n := Nat.le_trans (by decide) hsize
          obtain ⟨m, rfl⟩ := Nat.exists_eq_add_of_le' hpos
          rfl
      | code n => rfl

theorem metFrom_of_unclosed (offset : Nat) {bytes : List UInt8}
    (h : block? bytes = some .unclosed) :
    metFrom offset 0 bytes = [⟨offset, .unclosed, (bytes.drop 2).head?⟩] := by
  cases bytes with
  | nil => cases h
  | cons b s =>
      rw [metFrom, h]
      rfl

/-! ### What the scan depends on -/

/-- One round of the scan in front of a block that it meets later: it is the same on all pages
that agree up to the opening of that block. -/
theorem exists_round {offset k : Nat} {bytes bytes' : List UInt8} {m : Met}
    (hm : m ∈ metFrom offset 0 bytes) (hoffset : m.offset = offset + (k + 1))
    (htake : bytes.take (k + 2) = bytes'.take (k + 2)) :
    ∃ seen j, 0 < j ∧ j ≤ k + 1 ∧
      metFrom offset 0 bytes = seen ++ metFrom (offset + j) 0 (bytes.drop j) ∧
      metFrom offset 0 bytes' = seen ++ metFrom (offset + j) 0 (bytes'.drop j) ∧
      m ∈ metFrom (offset + j) 0 (bytes.drop j) := by
  have hshorter {i : Nat} (hi : i ≤ k + 2) : bytes.take i = bytes'.take i := by
    rw [← Nat.min_eq_left hi, ← List.take_take, htake, List.take_take]
  cases hblock : block? bytes with
  | none =>
      have hstep := metFrom_of_none offset hblock
      have hblock' := block?_eq_none_of_take_eq hblock (hshorter (by omega))
      exact ⟨[], 1, Nat.one_pos, by omega, hstep, metFrom_of_none offset hblock', hstep ▸ hm⟩
  | some block =>
      by_cases hclosed : block = .unclosed
      · rw [hclosed] at hblock
        rw [metFrom_of_unclosed offset hblock] at hm
        obtain rfl := List.mem_singleton.mp hm
        dsimp only at hoffset
        omega
      · have hstep := metFrom_of_closed offset hblock hclosed
        have hsize := four_le_size_of_block? hblock hclosed
        rw [hstep] at hm
        rcases List.mem_cons.mp hm with rfl | hm
        · dsimp only at hoffset
          omega
        · obtain ⟨before, -, -, -, hlater, -⟩ := opensIn_of_mem_metFrom hm
          have hblock' := block?_congr hblock hclosed (hshorter (by omega))
          have hfirst : (bytes.drop 2).head? = (bytes'.drop 2).head? := by
            have hthird := congrArg (·[2]?) (hshorter (show 3 ≤ k + 2 by omega))
            simpa using hthird
          have hstep' := metFrom_of_closed offset hblock' hclosed
          rw [← hfirst] at hstep'
          exact ⟨[_], block.size, by omega, by omega, hstep, hstep', hm⟩

/-- Up to a block that it meets, the scan depends on nothing behind the opening of that block. -/
theorem exists_metFrom_eq_append {offset k : Nat} {bytes bytes' : List UInt8} {m : Met}
    (hm : m ∈ metFrom offset 0 bytes) (hoffset : m.offset = offset + k)
    (htake : bytes.take (k + 1) = bytes'.take (k + 1)) :
    ∃ before, metFrom offset 0 bytes = before ++ metFrom (offset + k) 0 (bytes.drop k) ∧
      metFrom offset 0 bytes' = before ++ metFrom (offset + k) 0 (bytes'.drop k) := by
  -- On how far the block is away: a round brings it nearer.
  induction k using Nat.strong_induction_on generalizing offset bytes bytes' with
  | _ k ih =>
  cases k with
  | zero => exact ⟨[], rfl, rfl⟩
  | succ k =>
      obtain ⟨seen, j, hpos, hj, hseen, hseen', hm⟩ := exists_round hm hoffset htake
      have hrest : (bytes.drop j).take (k + 1 - j + 1) = (bytes'.drop j).take (k + 1 - j + 1) := by
        have hlength : k + 1 - j + 1 = k + 2 - j := by omega
        rw [hlength, ← List.drop_take, ← List.drop_take, htake]
      obtain ⟨before, hbefore, hbefore'⟩ := ih (k + 1 - j) (by omega) hm (by omega) hrest
      have hend : offset + j + (k + 1 - j) = offset + (k + 1) := by omega
      have hdrop (s : List UInt8) : (s.drop j).drop (k + 1 - j) = s.drop (k + 1) := by
        rw [List.drop_drop]
        congr 1
        omega
      rw [hend, hdrop] at hbefore hbefore'
      refine ⟨seen ++ before, ?_, ?_⟩
      · rw [hseen, hbefore, List.append_assoc]
      · rw [hseen', hbefore', List.append_assoc]

end CodeGraph.Page
