import CodeGraph.Proofs.Text.Decoding
import Mathlib.Data.List.Basic

/-!
Pieces of a list and lines of a text. The piece with number `i` stands behind `i` separators, and
how long the pieces are depends only on where the separators are. Decoding does not move line
feeds, so the lines of the text of some bytes are the texts of the lines of those bytes.
-/

namespace CodeGraph

/-! ### Pieces -/

namespace Seq

variable {α : Type} {sep : α → Bool}

theorem splitOn_cons_of_sep {a : α} (h : sep a = true) (s : List α) :
    splitOn sep (a :: s) = [] :: splitOn sep s := by
  rw [splitOn, if_pos h]

theorem splitOn_ne_nil (sep : α → Bool) (s : List α) : splitOn sep s ≠ [] := by
  cases s with
  | nil => simp [splitOn]
  | cons a s =>
      rw [splitOn]
      split
      · simp
      · split <;> simp

theorem exists_splitOn_eq (sep : α → Bool) (s : List α) : ∃ p ps, splitOn sep s = p :: ps :=
  List.exists_cons_of_ne_nil (splitOn_ne_nil sep s)

theorem splitOn_cons_of_not_sep {a : α} (h : sep a = false) {s p : List α} {ps : List (List α)}
    (hs : splitOn sep s = p :: ps) : splitOn sep (a :: s) = (a :: p) :: ps := by
  rw [splitOn, hs, if_neg (by simp [h])]

/-- Members that do not separate go to the first piece. -/
theorem splitOn_append_of_not_sep {xs : List α} (h : ∀ a ∈ xs, sep a = false) {s p : List α}
    {ps : List (List α)} (hs : splitOn sep s = p :: ps) :
    splitOn sep (xs ++ s) = (xs ++ p) :: ps := by
  induction xs with
  | nil => exact hs
  | cons a xs ih =>
      obtain ⟨ha, hxs⟩ := List.forall_mem_cons.mp h
      exact splitOn_cons_of_not_sep ha (ih hxs)

theorem splitOn_eq_singleton {xs : List α} (h : ∀ a ∈ xs, sep a = false) :
    splitOn sep xs = [xs] := by
  have hsplit := splitOn_append_of_not_sep (s := []) h rfl
  rwa [List.append_nil] at hsplit

theorem splitOn_append_cons {a : α} (h : sep a = true) (xs ys : List α) :
    splitOn sep (xs ++ a :: ys) = splitOn sep xs ++ splitOn sep ys := by
  induction xs with
  | nil => exact splitOn_cons_of_sep h ys
  | cons x xs ih =>
      rw [List.cons_append]
      cases hx : sep x with
      | true => rw [splitOn_cons_of_sep hx, splitOn_cons_of_sep hx, ih, List.cons_append]
      | false =>
          obtain ⟨p, ps, hxs⟩ := exists_splitOn_eq sep xs
          rw [splitOn_cons_of_not_sep hx hxs,
            splitOn_cons_of_not_sep hx (by rw [ih, hxs, List.cons_append]), List.cons_append]

/-- Pieces that each end with a separator are cut apart, and nothing follows the last one. -/
theorem splitOn_flatMap (sep : α → Bool) {a : α} (ha : sep a = true) {pieces : List (List α)}
    (h : ∀ p ∈ pieces, ∀ b ∈ p, sep b = false) :
    splitOn sep (pieces.flatMap fun p => p ++ [a]) = pieces ++ [[]] := by
  induction pieces with
  | nil => rfl
  | cons p pieces ih =>
      obtain ⟨hp, hpieces⟩ := List.forall_mem_cons.mp h
      rw [List.flatMap_cons, List.append_assoc, List.singleton_append, splitOn_append_cons ha,
        splitOn_eq_singleton hp, ih hpieces]
      rfl

theorem length_splitOn {α : Type} (sep : α → Bool) (s : List α) :
    (splitOn sep s).length = s.countP sep + 1 := by
  induction s with
  | nil => rfl
  | cons a s ih =>
      cases ha : sep a with
      | true => rw [splitOn_cons_of_sep ha, List.length_cons, ih, List.countP_cons_of_pos ha]
      | false =>
          obtain ⟨p, ps, hs⟩ := exists_splitOn_eq sep s
          rw [splitOn_cons_of_not_sep ha hs, List.countP_cons_of_neg (by simp [ha]), ← ih, hs]
          rfl

/-- Part of a list that is cut out by the separators around it. -/
structure IsPiece (sep : α → Bool) (before piece after : List α) : Prop where
  unseparated : ∀ a ∈ piece, sep a = false
  starts : ∀ a ∈ before.getLast?, sep a = true
  ends : ∀ a ∈ after.head?, sep a = true

theorem IsPiece.cons {a : α} {before piece after : List α} (h : IsPiece sep before piece after)
    (ha : before = [] → sep a = true) : IsPiece sep (a :: before) piece after := by
  refine ⟨h.unseparated, fun b hb => ?_, h.ends⟩
  cases before with
  | nil =>
      obtain rfl : a = b := Option.some.inj hb
      exact ha rfl
  | cons c before => exact h.starts b (by rwa [List.getLast?_cons_cons] at hb)

/-- The piece with a number stands behind as many separators. -/
theorem isPiece_of_getElem?_splitOn {s piece : List α} {i : Nat}
    (h : (splitOn sep s)[i]? = some piece) :
    ∃ before after, s = before ++ piece ++ after ∧ IsPiece sep before piece after ∧
      before.countP sep = i := by
  induction s generalizing i piece with
  | nil =>
      cases i with
      | zero =>
          cases h
          exact ⟨[], [], rfl, ⟨by simp, by simp, by simp⟩, rfl⟩
      | succ i => cases h
  | cons a s ih =>
      cases ha : sep a with
      | true =>
          rw [splitOn_cons_of_sep ha] at h
          cases i with
          | zero =>
              cases h
              exact ⟨[], a :: s, rfl, ⟨by simp, by simp, by simpa using ha⟩, rfl⟩
          | succ i =>
              obtain ⟨before, after, rfl, hpiece, hcount⟩ := ih h
              refine ⟨a :: before, after, rfl, hpiece.cons fun _ => ha, ?_⟩
              rw [List.countP_cons_of_pos ha, hcount]
      | false =>
          obtain ⟨p, ps, hs⟩ := exists_splitOn_eq sep s
          rw [splitOn_cons_of_not_sep ha hs] at h
          cases i with
          | zero =>
              cases h
              have hfirst : (splitOn sep s)[0]? = some p := by rw [hs]; rfl
              obtain ⟨before, after, rfl, hpiece, hcount⟩ := ih hfirst
              -- Nothing is in front of the first piece, as it would end with a separator.
              obtain rfl : before = [] := by
                by_contra hne
                have hlast := hpiece.starts _ (List.getLast?_eq_some_getLast hne)
                exact List.countP_eq_zero.mp hcount _ (List.getLast_mem hne) hlast
              have hunseparated : ∀ b ∈ a :: p, sep b = false :=
                List.forall_mem_cons.mpr ⟨ha, hpiece.unseparated⟩
              exact ⟨[], after, rfl, ⟨hunseparated, by simp, hpiece.ends⟩, rfl⟩
          | succ i =>
              have hlater : (splitOn sep s)[i + 1]? = some piece := by rw [hs]; exact h
              obtain ⟨before, after, rfl, hpiece, hcount⟩ := ih hlater
              refine ⟨a :: before, after, rfl, hpiece.cons ?_, ?_⟩
              · rintro rfl
                cases hcount
              · rw [List.countP_cons_of_neg (by simp [ha]), hcount]

/-- The lengths of the pieces depend only on where the separators are. -/
theorem map_length_splitOn (sep : α → Bool) (s : List α) :
    (splitOn sep s).map List.length = (splitOn id (s.map sep)).map List.length := by
  induction s with
  | nil => rfl
  | cons a s ih =>
      rw [List.map_cons]
      cases ha : sep a with
      | true =>
          rw [splitOn_cons_of_sep ha, splitOn_cons_of_sep rfl, List.map_cons, List.map_cons, ih]
          rfl
      | false =>
          obtain ⟨p, ps, hs⟩ := exists_splitOn_eq sep s
          obtain ⟨q, qs, hq⟩ := exists_splitOn_eq id (s.map sep)
          rw [hs, hq, List.map_cons, List.map_cons, List.cons.injEq] at ih
          rw [splitOn_cons_of_not_sep ha hs, splitOn_cons_of_not_sep rfl hq, List.map_cons,
            List.map_cons, List.length_cons, List.length_cons, ih.1, ih.2]

end Seq

/-! ### Decoded lines -/

namespace Utf8

theorem lossy_eq_nil_iff {bytes : List UInt8} : lossy bytes = [] ↔ bytes = [] := by
  constructor
  · intro h
    obtain ⟨ws, hbytes, hspells⟩ := decode_spells bytes
    rw [lossy, List.map_eq_nil_iff] at h
    rw [h] at hspells
    cases hspells
    exact hbytes
  · rintro rfl
    rfl

/-- A line feed is a symbol of its own, and what was pending is broken. -/
theorem read_lf {pending : Option Pending} (hp : ∀ p ∈ pending, p.Sound) :
    read pending Mask.lf = (decodeFrom pending [] ++ [.char '\n'], none) :=
  read_ascii hp (by decide)

/-- Bytes without line feeds spell no line feed. -/
theorem newline_not_mem_of_spells {symbols : List Symbol} {ws : List (List UInt8)}
    (h : List.Forall₂ Symbol.Spells symbols ws) (hlf : Mask.lf ∉ ws.flatten) :
    ∀ c ∈ symbols.map Symbol.toChar, (c == '\n') = false := by
  induction h with
  | nil => simp
  | @cons s w symbols ws hs _ ih =>
      rw [List.flatten_cons, List.mem_append, not_or] at hlf
      refine List.forall_mem_cons.mpr ⟨beq_eq_false_iff_ne.mpr fun hc => ?_, ih hlf.2⟩
      cases hs with
      | @ascii c b _ hb =>
          have hvalue : Mask.lf.toNat = b.toNat := (congrArg Char.toNat hc.symm).trans hb.symm
          exact hlf.1 (List.mem_singleton.mpr (UInt8.toNat_inj.mp hvalue))
      | other _ _ hchar _ =>
          rw [hc] at hchar
          exact absurd hchar (by decide)

theorem lf_not_mem_held {pending : Option Pending} (hp : ∀ p ∈ pending, p.Sound) :
    Mask.lf ∉ held pending := by
  cases pending with
  | none => simp [held]
  | some p =>
      intro hmem
      exact absurd ((hp p rfl).got_high _ hmem) (by decide)

/-- No other byte completes a line feed. -/
theorem newline_not_mem_read {pending : Option Pending} (hp : ∀ p ∈ pending, p.Sound) {b : UInt8}
    (hb : (b == Mask.lf) = false) :
    ∀ c ∈ (read pending b).1.map Symbol.toChar, (c == '\n') = false := by
  obtain ⟨-, ws, hws, hspells⟩ := read_spells hp b
  refine newline_not_mem_of_spells hspells fun hmem => ?_
  have hmem : Mask.lf ∈ held pending ++ [b] := by
    rw [hws]
    exact List.mem_append_left _ hmem
  rcases List.mem_append.mp hmem with hmem | hmem
  · exact lf_not_mem_held hp hmem
  · exact beq_eq_false_iff_ne.mp hb (List.mem_singleton.mp hmem).symm

/-- What breaks off at the end of a text is no line feed. -/
theorem newline_not_mem_decodeFrom_nil {pending : Option Pending} (hp : ∀ p ∈ pending, p.Sound) :
    ∀ c ∈ (decodeFrom pending []).map Symbol.toChar, (c == '\n') = false := by
  obtain ⟨ws, hws, hspells⟩ := decodeFrom_spells hp []
  refine newline_not_mem_of_spells hspells ?_
  rw [← hws, List.append_nil]
  exact lf_not_mem_held hp

theorem splitOn_decodeFrom {pending : Option Pending} (hp : ∀ p ∈ pending, p.Sound)
    {bytes first : List UInt8} {others : List (List UInt8)}
    (h : Seq.splitOn (· == Mask.lf) bytes = first :: others) :
    Seq.splitOn (· == '\n') ((decodeFrom pending bytes).map Symbol.toChar) =
      (decodeFrom pending first).map Symbol.toChar :: others.map lossy := by
  induction bytes generalizing pending first others with
  | nil =>
      cases h
      exact Seq.splitOn_eq_singleton (newline_not_mem_decodeFrom_nil hp)
  | cons b s ih =>
      obtain ⟨p, ps, hs⟩ := Seq.exists_splitOn_eq (· == Mask.lf) s
      rw [decodeFrom_cons, List.map_append]
      cases hb : b == Mask.lf with
      | true =>
          rw [Seq.splitOn_cons_of_sep (a := b) hb, hs] at h
          cases h
          rw [beq_iff_eq.mp hb, read_lf hp, List.map_append, List.append_assoc]
          -- The line feed closes the first line and nothing is pending behind it.
          have hrest := @ih none (by simp) p ps hs
          show Seq.splitOn _ (_ ++ '\n' :: (decodeFrom none s).map Symbol.toChar) = _
          rw [Seq.splitOn_append_cons rfl, hrest,
            Seq.splitOn_eq_singleton (newline_not_mem_decodeFrom_nil hp)]
          rfl
      | false =>
          rw [Seq.splitOn_cons_of_not_sep (a := b) hb hs] at h
          cases h
          have hnext := ih (read_spells hp b).1 hs
          rw [Seq.splitOn_append_of_not_sep (newline_not_mem_read hp hb) hnext, decodeFrom_cons,
            List.map_append]

/-- The lines of a decoded text are its decoded lines. -/
theorem splitOn_lossy (bytes : List UInt8) :
    Seq.splitOn (· == '\n') (lossy bytes) = (Seq.splitOn (· == Mask.lf) bytes).map lossy := by
  obtain ⟨p, ps, hs⟩ := Seq.exists_splitOn_eq (· == Mask.lf) bytes
  rw [hs]
  exact @splitOn_decodeFrom none (by simp) bytes p ps hs

theorem count_newline_lossy (bytes : List UInt8) :
    (lossy bytes).count '\n' = bytes.count Mask.lf := by
  have hlines := congrArg List.length (splitOn_lossy bytes)
  rw [List.length_map, Seq.length_splitOn, Seq.length_splitOn] at hlines
  exact Nat.succ.inj hlines

end Utf8

namespace Chars

theorem lines_eq {s last : List Char} {closed : List (List Char)}
    (h : Seq.splitOn (· == '\n') s = closed ++ [last]) :
    lines s = closed.map dropReturn ++ if last = [] then [] else [last] := by
  rw [lines, h, List.dropLast_concat, List.getLast?_concat]
  cases last with
  | nil => simp
  | cons c last => rfl

theorem dropReturn_eq_self {line : List Char} (h : line.getLast? ≠ some '\r') :
    dropReturn line = line := by
  unfold dropReturn
  split
  case h_1 hreturn => exact absurd hreturn h
  case h_2 => rfl

end Chars

end CodeGraph
