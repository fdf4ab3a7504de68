import CodeGraph.Text.Chars
import Mathlib.Data.List.DropRight

/-!
Trimming. White space at the ends of a text goes, and nothing inside it: from the first character
that is no white space to the last one a text is kept as it is.
-/

namespace CodeGraph

def IsBlank (s : List Char) : Prop :=
  ∀ c ∈ s, Text.isSpace c = true

theorem IsBlank.append {s t : List Char} (hs : IsBlank s) (ht : IsBlank t) : IsBlank (s ++ t) :=
  fun c hc => (List.mem_append.mp hc).elim (hs c) (ht c)

structure IsToken (s : List Char) : Prop where
  ne_nil : s ≠ []
  isSpace : ∀ c ∈ s, Text.isSpace c = false

theorem isToken_of_all {s : List Char} (hne : s ≠ [])
    (hall : s.all (fun c => !Text.isSpace c) = true) : IsToken s :=
  ⟨hne, fun c hc => by simpa using List.all_eq_true.mp hall c hc⟩

namespace Chars

variable {s t w space : List Char} {c : Char}

theorem trimStart_append (hspace : IsBlank space) (s : List Char) :
    trimStart (space ++ s) = trimStart s :=
  List.dropWhile_append_of_pos hspace

theorem trimStart_cons (hc : Text.isSpace c = false) (s : List Char) :
    trimStart (c :: s) = c :: s :=
  List.dropWhile_cons_of_neg (by simp [hc])

/-- Nothing behind a character that is not white space is removed from the front. -/
theorem trimStart_append_cons (hc : Text.isSpace c = false) (s t : List Char) :
    trimStart (s ++ c :: t) = trimStart s ++ c :: t := by
  rw [trimStart, List.dropWhile_append]
  split
  case isTrue hempty =>
    rw [trimStart, List.isEmpty_iff.mp hempty]
    exact trimStart_cons hc t
  case isFalse => rfl

theorem trimEnd_append_cons (hc : Text.isSpace c = false) (s t : List Char) :
    trimEnd (s ++ c :: t) = s ++ c :: trimEnd t := by
  have hreverse := trimStart_append_cons hc t.reverse s.reverse
  rw [trimStart, trimStart] at hreverse
  rw [trimEnd, List.reverse_append, List.reverse_cons, List.append_assoc, List.singleton_append,
    hreverse, List.reverse_append, List.reverse_cons, List.reverse_reverse, List.append_assoc,
    List.singleton_append, trimEnd]

theorem trim_append_cons (hc : Text.isSpace c = false) (s t : List Char) :
    trim (s ++ c :: t) = trimStart s ++ c :: trimEnd t := by
  rw [trim, trimStart_append_cons hc, trimEnd_append_cons hc]

theorem trim_append (hspace : IsBlank space) (s : List Char) : trim (space ++ s) = trim s := by
  rw [trim, trimStart_append hspace, trim]

theorem trim_trimStart (s : List Char) : trim (trimStart s) = trim s := by
  rw [trim, trim, trimStart, trimStart, List.dropWhile_idempotent]

theorem trimEnd_eq_nil (hspace : IsBlank space) : trimEnd space = [] := by
  rw [trimEnd, List.reverse_eq_nil_iff, List.dropWhile_eq_nil_iff]
  exact fun c hc => hspace c (List.mem_reverse.mp hc)

theorem trimEnd_append_blank (s : List Char) (hspace : IsBlank space) :
    trimEnd (s ++ space) = trimEnd s := by
  rw [trimEnd, List.reverse_append,
    List.dropWhile_append_of_pos fun c hc => hspace c (List.mem_reverse.mp hc), trimEnd]

/-- White space in front of a text that is not white space alone is no white space at its end. -/
theorem trimEnd_append (space : List Char) (hs : ∃ c ∈ s, Text.isSpace c = false) :
    trimEnd (space ++ s) = space ++ trimEnd s := by
  obtain ⟨c, hmem, hc⟩ := hs
  obtain ⟨before, after, rfl⟩ := List.append_of_mem hmem
  rw [← List.append_assoc, trimEnd_append_cons hc, trimEnd_append_cons hc, List.append_assoc]

theorem trim_trimEnd (hs : ∃ c ∈ s, Text.isSpace c = false) : trim (trimEnd s) = trim s := by
  obtain ⟨c, hmem, hc⟩ := hs
  obtain ⟨before, after, rfl⟩ := List.append_of_mem hmem
  have hidempotent : trimEnd (trimEnd after) = trimEnd after := by
    rw [trimEnd, trimEnd, List.reverse_reverse, List.dropWhile_idempotent]
  rw [trimEnd_append_cons hc, trim_append_cons hc, trim_append_cons hc, hidempotent]

theorem trim_token_append (s : List Char) (hw : IsToken w) (hspace : IsBlank space) :
    trim (s ++ w ++ space) = trimStart (s ++ w) := by
  obtain ⟨init, c, rfl⟩ := List.eq_nil_or_concat w |>.resolve_left hw.ne_nil
  have hc : Text.isSpace c = false := hw.isSpace c (by simp)
  rw [List.concat_eq_append, List.append_assoc, List.append_assoc, List.singleton_append,
    ← List.append_assoc, trim_append_cons hc, trimEnd_eq_nil hspace, ← List.append_assoc,
    trimStart_append_cons hc]

theorem trimStart_token (hw : IsToken w) : trimStart w = w := by
  cases w with
  | nil => rfl
  | cons c w => exact trimStart_cons (hw.isSpace c List.mem_cons_self) w

theorem trimStart_token_append (hw : IsToken w) (s : List Char) :
    trimStart (w ++ s) = w ++ s := by
  cases w with
  | nil => exact absurd rfl hw.ne_nil
  | cons c w => exact trimStart_cons (hw.isSpace c List.mem_cons_self) (w ++ s)

theorem trim_eq_nil (hspace : IsBlank space) : trim space = [] := by
  rw [← List.append_nil space, trim_append hspace]
  rfl

theorem trim_append_blank (s : List Char) (hspace : IsBlank space) :
    trim (s ++ space) = trim s := by
  by_cases hs : ∃ c ∈ s, Text.isSpace c = false
  · obtain ⟨c, hmem, hc⟩ := hs
    obtain ⟨before, after, rfl⟩ := List.append_of_mem hmem
    rw [List.append_assoc, List.cons_append, trim_append_cons hc, trim_append_cons hc,
      trimEnd_append_blank after hspace]
  · have hblank : IsBlank s := fun c hc => by simpa using fun h => hs ⟨c, hc, h⟩
    rw [trim_append hblank, trim_eq_nil hspace, trim_eq_nil hblank]

/-- What trimming takes away. -/
theorem exists_eq_trim (s : List Char) :
    ∃ lead gap, s = lead ++ trim s ++ gap ∧ IsBlank lead ∧ IsBlank gap := by
  refine ⟨s.takeWhile Text.isSpace, ((trimStart s).reverse.takeWhile Text.isSpace).reverse, ?_,
    fun c hc => List.mem_takeWhile_imp hc,
    fun c hc => List.mem_takeWhile_imp (List.mem_reverse.mp hc)⟩
  rw [List.append_assoc, trim, trimEnd, ← List.reverse_append, List.takeWhile_append_dropWhile,
    List.reverse_reverse, trimStart, List.takeWhile_append_dropWhile]

theorem trim_trim (s : List Char) : trim (trim s) = trim s := by
  obtain ⟨lead, gap, hs, hlead, hgap⟩ := exists_eq_trim s
  calc trim (trim s)
    _ = trim (lead ++ trim s ++ gap) := by rw [trim_append_blank _ hgap, trim_append hlead]
    _ = trim s := by rw [← hs]

end Chars

end CodeGraph
