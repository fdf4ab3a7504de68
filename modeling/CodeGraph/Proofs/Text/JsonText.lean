import CodeGraph.Json
import Mathlib.Data.List.Basic

/-!
The text of a JSON value is printable: whatever the strings in it hold, no character below the
blank is written as it is. So a line feed never stands inside the text of a value.
-/

namespace CodeGraph

/-- No character of the text is a control character below the blank. -/
def Printable (s : List Char) : Prop :=
  ∀ c ∈ s, 0x20 ≤ c.toNat

instance (s : List Char) : Decidable (Printable s) :=
  List.decidableBAll (fun c : Char => 0x20 ≤ c.toNat) s

namespace Printable

variable {s t : List Char}

theorem append (hs : Printable s) (ht : Printable t) : Printable (s ++ t) := by
  intro c hc
  rcases List.mem_append.mp hc with hc | hc
  · exact hs c hc
  · exact ht c hc

theorem cons {c : Char} (hc : 0x20 ≤ c.toNat) (hs : Printable s) : Printable (c :: s) :=
  List.forall_mem_cons.mpr ⟨hc, hs⟩

theorem nil : Printable [] := by
  intro c hc
  cases hc

theorem mono (ht : Printable t) (hs : s ⊆ t) : Printable s :=
  fun c hc => ht c (hs hc)

theorem replicate {c : Char} (hc : 0x20 ≤ c.toNat) (n : Nat) : Printable (List.replicate n c) := by
  intro d hd
  rw [List.eq_of_mem_replicate hd]
  exact hc

theorem newline_not_mem (hs : Printable s) : '\n' ∉ s := by
  intro h
  exact absurd (hs _ h) (by decide)

end Printable

/-! ### Numbers -/

theorem printable_toDigits (n : Nat) : Printable (Nat.toDigits 10 n) := by
  intro c hc
  have hdigit := Nat.isDigit_of_mem_toDigits (by decide) (by decide) hc
  simp only [Char.isDigit, Bool.and_eq_true, decide_eq_true_eq] at hdigit
  have hle : '0'.toNat ≤ c.toNat := UInt32.le_iff_toNat_le.mp hdigit.1
  exact Nat.le_trans (by decide) hle

theorem printable_toString (n : Int) : Printable (toString n).toList := by
  have hnat : ∀ m : Nat, Printable m.repr.toList := by
    intro m
    rw [Nat.repr, String.toList_ofList]
    exact printable_toDigits m
  show Printable (Int.repr n).toList
  cases n with
  | ofNat m => exact hnat m
  | negSucc m =>
      show Printable ("-" ++ m.succ.repr).toList
      rw [String.toList_append]
      exact .append (.cons (by decide) .nil) (hnat _)

namespace Binary64

theorem printable_renderDecimal (d : Decimal) : Printable (renderDecimal d) := by
  have hdigits := printable_toDigits d.digits
  have hpoint : Printable ['.', '0'] := .cons (by decide) (.cons (by decide) .nil)
  unfold renderDecimal decimalDigits
  dsimp only
  split_ifs
  · exact .cons (by decide) hpoint
  · exact .append (.append hdigits (.replicate (by decide) _)) hpoint
  · exact .append (.append (hdigits.mono (List.take_subset _ _)) (.cons (by decide) .nil))
      (hdigits.mono (List.drop_subset _ _))
  · exact .append (.append (.cons (by decide) (.cons (by decide) .nil)) (.replicate (by decide) _))
      hdigits
  · have hexponent := printable_toString
      ((Nat.toDigits 10 d.digits).length + d.power - 400 - 1 : Int)
    split
    case h_1 c heq =>
      rw [heq] at hdigits
      exact .append hdigits (.cons (by decide) hexponent)
    case h_2 c cs _ heq =>
      rw [heq] at hdigits
      obtain ⟨hc, hcs⟩ := List.forall_mem_cons.mp hdigits
      exact .append (.cons hc (.cons (by decide) hcs)) (.cons (by decide) hexponent)
    case h_3 => exact .nil

theorem printable_render (x : Binary64) : Printable x.render := by
  unfold render
  dsimp only
  split
  · exact .cons (by decide) (printable_renderDecimal _)
  · exact printable_renderDecimal _

end Binary64

/-! ### Values -/

namespace Json

theorem printable_hexDigit {n : Nat} (h : n < 16) : 0x20 ≤ (hexDigit n).toNat := by
  have hall : ∀ m < 16, 0x20 ≤ (hexDigit m).toNat := by decide
  exact hall n h

theorem printable_escapeChar (c : Char) : Printable (escapeChar c) := by
  unfold escapeChar escape?
  split_ifs with hquote hslash hplain <;> dsimp only [Option.getD]
  case pos => decide
  case pos => decide
  case pos => exact .cons hplain .nil
  case neg =>
    have hhigh := printable_hexDigit (n := c.toNat / 16) (by omega)
    have hlow := printable_hexDigit (n := c.toNat % 16) (by omega)
    have hhead : Printable ['\\', 'u', '0', '0'] := by decide
    exact hhead.append (.cons hhigh (.cons hlow .nil))
  all_goals decide

theorem printable_quote (s : List Char) : Printable (quote s) := by
  have hbody : Printable (s.flatMap escapeChar) := by
    intro c hc
    obtain ⟨d, -, hd⟩ := List.mem_flatMap.mp hc
    exact printable_escapeChar d c hd
  exact .append (.cons (by decide) hbody) (.cons (by decide) .nil)

mutual

/-- The text of any value is printable. -/
theorem printable_chars : (v : Json) → Printable v.chars
  | null => by
      rw [chars]
      decide
  | bool true => by
      rw [chars]
      decide
  | bool false => by
      rw [chars]
      decide
  | int n => by
      rw [chars]
      exact printable_toString n
  | float x => by
      rw [chars, renderFloat]
      split
      · exact x.printable_render
      · decide
  | str s => by
      rw [chars]
      exact printable_quote _
  | list items => by
      rw [chars]
      exact .append (.cons (by decide) (printable_itemChars items)) (.cons (by decide) .nil)
  | object fields => by
      rw [chars]
      exact .append (.cons (by decide) (printable_fieldChars fields)) (.cons (by decide) .nil)

theorem printable_itemChars : (vs : List Json) → Printable (itemChars vs)
  | [] => .nil
  | [v] => by
      rw [itemChars]
      exact printable_chars v
  | v :: w :: vs => by
      rw [itemChars]
      · exact .append (printable_chars v) (.cons (by decide) (printable_itemChars (w :: vs)))
      · simp

theorem printable_fieldChars : (fields : List (String × Json)) → Printable (fieldChars fields)
  | [] => .nil
  | [(k, v)] => by
      rw [fieldChars]
      exact .append (printable_quote _) (.cons (by decide) (printable_chars v))
  | (k, v) :: f :: rest => by
      rw [fieldChars]
      · exact .append (.append (printable_quote _) (.cons (by decide) (printable_chars v)))
          (.cons (by decide) (printable_fieldChars (f :: rest)))
      · simp

end

end Json

end CodeGraph
