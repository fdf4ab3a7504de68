import CodeGraph.Proofs.Sql.Masking
import CodeGraph.Proofs.Text.Seq

/-!
Masking as the work of one lexer. The lexer cuts a script from left to right into single bytes of
code, strings, line comments and block comments, and so tells for each byte in which of these
states it is read. Both passes of masking follow it: the first one blanks what is read in a comment,
the second one is inside a string exactly where the lexer is, and together they keep line breaks,
code and the quotes around strings.
-/

namespace CodeGraph.Sql

open Mask

/-! ### The lexer -/

namespace Construct

/-- What ends a construct and is part of it. A line comment ends in front of a line break. -/
def closing : Construct → List UInt8
  | string => [quote]
  | lineComment => []
  | blockComment => [star, slash]

/-- The bytes up to the first quote that is not one of a pair. -/
def stringInner : List UInt8 → List UInt8
  | [] => []
  | b :: bytes =>
      if b = quote then
        match bytes with
        | c :: bytes => if c = quote then b :: c :: stringInner bytes else []
        | [] => []
      else b :: stringInner bytes

/-- The interior of a construct, when `bytes` follow its opening: a string goes on to a quote that
is not doubled, a line comment to the next line break and a block comment to the first end mark. -/
def inner : Construct → List UInt8 → List UInt8
  | string, bytes => stringInner bytes
  | lineComment, bytes => bytes.takeWhile (!isBreak ·)
  | blockComment, bytes =>
      match Seq.find? [star, slash] bytes with
      | some n => bytes.take n
      | none => bytes

def opens? (bytes : List UInt8) : Option (Construct × List UInt8) :=
  [string, lineComment, blockComment].findSome? fun k =>
    (Seq.stripStart? k.opening bytes).map (k, ·)

end Construct

/-- A byte of code, or a construct with its interior and what closes it. -/
inductive Lexeme where
  | code (b : UInt8)
  | construct (k : Construct) (inner close : List UInt8)
  deriving DecidableEq, Repr

namespace Lexeme

def text : Lexeme → List UInt8
  | code b => [b]
  | construct k inner close => k.opening ++ (inner ++ close)

/-- The lexeme at the front of a script. A construct that nothing closes lasts to the end. -/
def first (b : UInt8) (bytes : List UInt8) : Lexeme :=
  match Construct.opens? (b :: bytes) with
  | none => .code b
  | some (k, tail) =>
      let inner := k.inner tail
      let closed := Seq.startsWith k.closing (tail.drop inner.length)
      .construct k inner (if closed then k.closing else [])

theorem length_text_pos (l : Lexeme) : 0 < l.text.length := by
  cases l with
  | code b => exact Nat.one_pos
  | construct k inner close => cases k <;> exact Nat.succ_pos _

end Lexeme

def lexemes : List UInt8 → List Lexeme
  | [] => []
  | b :: bytes =>
      let l := Lexeme.first b bytes
      l :: lexemes ((b :: bytes).drop l.text.length)
termination_by bytes => bytes.length
decreasing_by
  have hpos := (Lexeme.first b bytes).length_text_pos
  rw [List.length_drop, List.length_cons]
  omega

/-- A byte of a script with the state in which the lexer reads it. -/
structure Reading where
  byte : UInt8
  lexis : Lexis
  /-- Whether the byte opens or closes a string or a comment. -/
  delimits : Bool
  deriving DecidableEq, Repr

namespace Reading

/-- The byte in a masked script: line breaks, code and the quotes around strings are kept. -/
def masked (r : Reading) : UInt8 :=
  if isBreak r.byte then r.byte
  else
    match r.lexis with
    | .code => r.byte
    | .string => if r.delimits then r.byte else space
    | .lineComment | .blockComment => space

def uncommented (r : Reading) : UInt8 :=
  if isBreak r.byte then r.byte
  else
    match r.lexis with
    | .code | .string => r.byte
    | .lineComment | .blockComment => space

def isInString (r : Reading) : Bool :=
  r.lexis == .string && !r.delimits

/-- Masking is to blank comments and then what is inside strings. -/
theorem masked_eq (r : Reading) :
    r.masked = if r.isInString then blankByte r.uncommented else r.uncommented := by
  obtain ⟨b, l, delimits⟩ := r
  cases hb : isBreak b <;> cases l <;> cases delimits <;>
    simp [masked, uncommented, isInString, blankByte, hb]

end Reading

def Lexeme.readings : Lexeme → List Reading
  | code b => [⟨b, .code, false⟩]
  | construct k inner close =>
      k.opening.map (⟨·, k.lexis, true⟩) ++
        (inner.map (⟨·, k.lexis, false⟩) ++ close.map (⟨·, k.lexis, true⟩))

def lex (bytes : List UInt8) : List Reading :=
  (lexemes bytes).flatMap Lexeme.readings

/-! ### Interiors -/

namespace Construct

variable {bytes tail inner rest : List UInt8}

theorem stringInner_of_ne {b : UInt8} (h : b ≠ quote) (bytes : List UInt8) :
    stringInner (b :: bytes) = b :: stringInner bytes := by
  cases bytes <;> simp [stringInner, h]

theorem stringInner_append (hinner : paired inner = true) (hrest : string.Ends rest) :
    stringInner (inner ++ rest) = inner := by
  fun_induction paired inner with
  | case1 =>
      rcases hrest with rfl | ⟨hquote, hnext⟩
      · rfl
      · obtain ⟨rest, rfl⟩ := List.head?_eq_some_iff.mp hquote
        cases rest with
        | nil => rfl
        | cons c rest =>
            have hc : c ≠ quote := fun hc => hnext (congrArg some hc)
            simp [stringInner, hc]
  | case2 c bytes ih =>
      obtain ⟨hc, hbytes⟩ := Bool.and_eq_true_iff.mp hinner
      obtain rfl : c = quote := beq_iff_eq.mp hc
      simp [stringInner, ih hbytes]
  | case3 => cases hinner
  | case4 b bytes hb ih => rw [List.cons_append, stringInner_of_ne hb, ih hinner]

theorem takeWhile_append_of_ends (hinner : lineComment.Inside inner)
    (hrest : lineComment.Ends rest) : (inner ++ rest).takeWhile (!isBreak ·) = inner := by
  rw [List.takeWhile_append_of_pos fun b hb => by simp [hinner b hb]]
  cases rest with
  | nil => simp
  | cons b rest =>
      have hb : isBreak b = true := hrest b rfl
      simp [hb]

/-- A construct has one interior. -/
theorem inner_eq_of_interior {k : Construct} (h : k.Interior tail inner rest) :
    k.inner tail = inner := by
  obtain ⟨rfl, hinner, hrest⟩ := h
  cases k with
  | string => exact stringInner_append hinner hrest
  | lineComment => exact takeWhile_append_of_ends hinner hrest
  | blockComment =>
      rcases hrest with rfl | ⟨rest, rfl⟩
      · have hnone : Seq.find? [star, slash] (inner ++ []) = none := by
          rw [List.append_nil]
          exact Seq.find?_eq_none_iff.mpr hinner
        rw [Construct.inner, hnone, List.append_nil]
      · have hfound : Seq.find? [star, slash] (inner ++ ([star, slash] ++ rest)) =
            some inner.length :=
          Seq.find?_eq_some_iff.mpr (Seq.firstAt_pair (by decide) hinner rest)
        rw [Construct.inner, hfound]
        exact List.take_left

theorem interior_inner (k : Construct) (tail : List UInt8) :
    k.Interior tail (k.inner tail) (tail.drop (k.inner tail).length) := by
  obtain ⟨inner, rest, h⟩ := k.exists_interior tail
  rw [inner_eq_of_interior h, h.eq, List.drop_left, ← h.eq]
  exact h

/-- Behind the interior stands what closes the construct, unless the script ends there. -/
theorem closes_of_ends {k : Construct} (h : k.Ends rest) : rest = [] ∨ k.closing <+: rest := by
  cases k with
  | string =>
      refine h.imp id fun ⟨hquote, _⟩ => ?_
      obtain ⟨rest, rfl⟩ := List.head?_eq_some_iff.mp hquote
      exact ⟨rest, rfl⟩
  | lineComment => exact .inr List.nil_prefix
  | blockComment => exact h

theorem ends_nil (k : Construct) : k.Ends [] := by
  cases k with
  | string | blockComment => exact .inl rfl
  | lineComment => exact fun b hb => by cases hb

/-- A quote that ends a string is not the first one of a pair. -/
theorem head?_ne_of_ends (h : string.Ends (string.closing ++ rest)) :
    rest.head? ≠ some quote := by
  rcases h with h | ⟨-, hnext⟩
  · cases h
  · exact hnext

theorem opens?_eq_some {k : Construct} (h : opens? bytes = some (k, tail)) :
    bytes = k.opening ++ tail := by
  obtain ⟨k', -, hk'⟩ := List.exists_of_findSome?_eq_some h
  obtain ⟨tail', htail', heq⟩ := Option.map_eq_some_iff.mp hk'
  cases heq
  exact Seq.stripStart?_eq_some.mp htail'

theorem opens?_eq_none (h : opens? bytes = none) (k : Construct) : ¬ k.opening <+: bytes := by
  rintro ⟨tail, rfl⟩
  have hall := List.findSome?_eq_none_iff.mp h k (by cases k <;> simp)
  rw [Seq.stripStart?_append] at hall
  cases hall

end Construct

/-! ### Lexemes -/

/-- What the lexer takes from the front of a script when `rest` is left. -/
inductive Lexeme.Precedes : Lexeme → List UInt8 → Prop where
  | code {b : UInt8} {rest : List UInt8} (h : ∀ k : Construct, ¬ k.opening <+: b :: rest) :
      Precedes (.code b) rest
  | closed {k : Construct} {inner rest : List UInt8} (hinner : k.Inside inner)
      (hrest : k.Ends (k.closing ++ rest)) : Precedes (.construct k inner k.closing) rest
  | unclosed {k : Construct} {inner : List UInt8} (hinner : k.Inside inner) :
      Precedes (.construct k inner []) []

theorem Lexeme.precedes_first (b : UInt8) (bytes : List UInt8) :
    ∃ rest, b :: bytes = (first b bytes).text ++ rest ∧ (first b bytes).Precedes rest := by
  cases hopens : Construct.opens? (b :: bytes) with
  | none =>
      have hfirst : first b bytes = .code b := by rw [first, hopens]
      rw [hfirst]
      exact ⟨bytes, rfl, .code (Construct.opens?_eq_none hopens)⟩
  | some found =>
      obtain ⟨k, tail⟩ := found
      have hbytes := Construct.opens?_eq_some hopens
      obtain ⟨htail, hinner, hends⟩ := k.interior_inner tail
      rw [first, hopens]
      dsimp only
      by_cases hclosing : k.closing <+: tail.drop (k.inner tail).length
      · obtain ⟨rest, hrest⟩ := hclosing
        rw [if_pos (Seq.startsWith_iff.mpr ⟨rest, hrest⟩)]
        rw [← hrest] at htail hends
        refine ⟨rest, ?_, .closed hinner hends⟩
        rw [hbytes, text, List.append_assoc, List.append_assoc, ← htail]
      · rw [if_neg (mt Seq.startsWith_iff.mp hclosing)]
        have hnil := (Construct.closes_of_ends hends).resolve_right hclosing
        rw [hnil, List.append_nil] at htail
        refine ⟨[], ?_, .unclosed hinner⟩
        rw [hbytes, text, List.append_nil, List.append_nil, ← htail]

/-- Induction along the lexemes of a script. -/
theorem lexemes_induction {motive : List UInt8 → List Lexeme → Prop} (nil : motive [] [])
    (cons : ∀ l rest, Lexeme.Precedes l rest → motive rest (lexemes rest) →
      motive (l.text ++ rest) (l :: lexemes rest)) (bytes : List UInt8) :
    motive bytes (lexemes bytes) := by
  fun_induction lexemes bytes with
  | case1 => exact nil
  | case2 b bytes l ih =>
      obtain ⟨rest, hbytes, hfirst⟩ := Lexeme.precedes_first b bytes
      have hdrop : (b :: bytes).drop l.text.length = rest := by rw [hbytes, List.drop_left]
      rw [hdrop] at ih ⊢
      rw [hbytes]
      exact cons l rest hfirst ih

theorem Lexeme.map_byte_readings (l : Lexeme) : l.readings.map Reading.byte = l.text := by
  cases l with
  | code b => rfl
  | construct k inner close => simp [readings, text, Function.comp_def]

theorem map_byte_lex (bytes : List UInt8) : (lex bytes).map Reading.byte = bytes := by
  unfold lex
  induction bytes using lexemes_induction with
  | nil => rfl
  | cons l rest h ih =>
      rw [List.flatMap_cons, List.map_append, l.map_byte_readings, ih]

/-! ### The first pass -/

def Construct.uncommented : Construct → UInt8 → UInt8
  | string, b => b
  | lineComment, b | blockComment, b => blankByte b

theorem Construct.writesEach_outOfComment (k : Construct) :
    k.WritesEach Scan.outOfComment k.uncommented := by
  cases k with
  | string => exact ⟨fun _ => rfl, fun _ => ⟨rfl, fun _ => rfl⟩⟩
  | lineComment | blockComment => exact ⟨fun _ => rfl, fun h => by cases h⟩

theorem Construct.uncommented_eq (k : Construct) (b : UInt8) (delimits : Bool) :
    Reading.uncommented ⟨b, k.lexis, delimits⟩ = k.uncommented b := by
  cases k with
  | string => exact ite_self b
  | lineComment | blockComment => rfl

theorem Lexeme.map_uncommented_readings (k : Construct) (inner close : List UInt8) :
    (construct k inner close).readings.map Reading.uncommented =
      k.opening.map k.uncommented ++ (inner.map k.uncommented ++ close.map k.uncommented) := by
  simp [readings, Function.comp_def, k.uncommented_eq]

section

variable {k : Construct} {rest : List UInt8}

theorem maskCommentsFrom_opening (k : Construct) (bytes : List UInt8) :
    maskCommentsFrom .code (k.opening ++ bytes) =
      k.opening.map k.uncommented ++ maskCommentsFrom k.lexis bytes := by
  cases k with
  | string => cases bytes <;> rfl
  | lineComment | blockComment => rfl

theorem maskCommentsFrom_inside {inner : List UInt8} (hinner : k.Inside inner)
    (hrest : k.Ends rest) :
    maskCommentsFrom k.lexis (inner ++ rest) =
      inner.map k.uncommented ++ maskCommentsFrom k.lexis rest := by
  rw [maskCommentsFrom_eq_rewrite, Construct.rewrite_inside k.writesEach_outOfComment hinner hrest,
    ← maskCommentsFrom_eq_rewrite]

theorem maskCommentsFrom_closing (h : k.Ends (k.closing ++ rest)) :
    maskCommentsFrom k.lexis (k.closing ++ rest) =
      k.closing.map k.uncommented ++ maskCommentsFrom .code rest := by
  cases k with
  | string =>
      have hrest : rest.head? ≠ some quote := Construct.head?_ne_of_ends h
      cases rest with
      | nil => rfl
      | cons c rest =>
          have hc : c ≠ quote := fun hc => hrest (congrArg some hc)
          simp [Construct.lexis, Construct.closing, Construct.uncommented, maskCommentsFrom, hc]
  | lineComment =>
      -- The line break behind the comment is code.
      cases rest with
      | nil => rfl
      | cons b rest =>
          have hb : b = lf ∨ b = cr := by simpa [isBreak] using h b rfl
          rcases hb with rfl | rfl <;> cases rest <;> rfl
  | blockComment => rfl

end

/-- The first pass on one lexeme. -/
theorem maskCommentsFrom_text {l : Lexeme} {rest : List UInt8} (h : l.Precedes rest) :
    maskCommentsFrom .code (l.text ++ rest) =
      l.readings.map Reading.uncommented ++ maskCommentsFrom .code rest := by
  cases h with
  | @code b _ hopens =>
      have hquote : b ≠ quote := fun hb => hopens .string ⟨rest, by rw [hb]; rfl⟩
      have hline : ¬ (b = hyphen ∧ rest.head? = some hyphen) := by
        rintro ⟨rfl, hnext⟩
        obtain ⟨rest, rfl⟩ := List.head?_eq_some_iff.mp hnext
        exact hopens .lineComment ⟨rest, rfl⟩
      have hblock : ¬ (b = slash ∧ rest.head? = some star) := by
        rintro ⟨rfl, hnext⟩
        obtain ⟨rest, rfl⟩ := List.head?_eq_some_iff.mp hnext
        exact hopens .blockComment ⟨rest, rfl⟩
      have hmove : Lexis.code.move b rest.head? = {} := by
        simp [Lexis.move, hquote, hline, hblock]
      have hmark : (Lexis.code.move b rest.head?).inMark = false := by rw [hmove]
      have hbyte := maskCommentsFrom_byte hmark
      simpa [Lexeme.text, Lexeme.readings, Reading.uncommented, Scan.outOfComment, Scan.move, hmove]
        using hbyte
  | @closed k inner _ hinner hrest =>
      rw [Lexeme.map_uncommented_readings, Lexeme.text, List.append_assoc, List.append_assoc,
        maskCommentsFrom_opening, maskCommentsFrom_inside hinner hrest,
        maskCommentsFrom_closing hrest, List.append_assoc, List.append_assoc]
  | @unclosed k inner hinner =>
      rw [Lexeme.map_uncommented_readings, Lexeme.text, List.append_assoc, List.append_assoc,
        maskCommentsFrom_opening, List.append_nil, maskCommentsFrom_inside hinner k.ends_nil]
      cases k <;> simp [maskCommentsFrom]

/-- The first pass blanks what the lexer reads in a comment. -/
theorem maskComments_eq_map_lex (bytes : List UInt8) :
    maskComments bytes = (lex bytes).map Reading.uncommented := by
  unfold lex maskComments
  induction bytes using lexemes_induction with
  | nil => rfl
  | cons l rest h ih => rw [maskCommentsFrom_text h, ih, List.flatMap_cons, List.map_append]

/-! ### The second pass -/

/-- For each byte of a text, whether the second pass is inside a string there. -/
def insideStrings (inside : Bool) : List UInt8 → List Bool
  | [] => []
  | b :: bytes =>
      if b = quote then
        match bytes with
        | c :: rest =>
            if inside && c == quote then true :: true :: insideStrings inside rest
            else false :: insideStrings (!inside) (c :: rest)
        | [] => [false]
      else inside :: insideStrings inside bytes

theorem insideStrings_of_ne {b : UInt8} (h : b ≠ quote) (inside : Bool) (bytes : List UInt8) :
    insideStrings inside (b :: bytes) = inside :: insideStrings inside bytes := by
  cases bytes <;> simp [insideStrings, h]

/-- The second pass blanks the bytes that are inside a string. -/
theorem blankStringsFrom_eq_zipWith (inside : Bool) (bytes : List UInt8) :
    blankStringsFrom inside bytes =
      List.zipWith (fun inside b => if inside then blankByte b else b)
        (insideStrings inside bytes) bytes := by
  fun_induction blankStringsFrom inside bytes with
  | case1 => rfl
  | case2 inside c rest hpair ih =>
      obtain ⟨rfl, hc⟩ := Bool.and_eq_true_iff.mp hpair
      obtain rfl : c = quote := beq_iff_eq.mp hc
      exact congrArg (space :: space :: ·) ih
  | case3 inside c rest hpair ih => simp [insideStrings, hpair, ih]
  | case4 inside => simp [insideStrings]
  | case5 inside b bytes hb ih => rw [insideStrings_of_ne hb, List.zipWith_cons_cons, ih]

theorem insideStrings_of_not_mem {xs : List UInt8} (h : quote ∉ xs) (inside : Bool)
    (bytes : List UInt8) :
    insideStrings inside (xs ++ bytes) =
      xs.map (fun _ => inside) ++ insideStrings inside bytes := by
  induction xs with
  | nil => rfl
  | cons b xs ih =>
      obtain ⟨hb, hxs⟩ := not_or.mp (mt List.mem_cons.mpr h)
      rw [List.cons_append, insideStrings_of_ne (Ne.symm hb), ih hxs]
      rfl

theorem insideStrings_of_paired {inner : List UInt8} (h : Construct.paired inner = true)
    (bytes : List UInt8) :
    insideStrings true (inner ++ bytes) =
      inner.map (fun _ => true) ++ insideStrings true bytes := by
  fun_induction Construct.paired inner with
  | case1 => rfl
  | case2 c bytes ih =>
      obtain ⟨hc, hbytes⟩ := Bool.and_eq_true_iff.mp h
      obtain rfl : c = quote := beq_iff_eq.mp hc
      exact congrArg (true :: true :: ·) (ih hbytes)
  | case3 => cases h
  | case4 b bytes hb ih =>
      rw [List.cons_append, insideStrings_of_ne hb, ih h]
      rfl

theorem insideStrings_quote {inside : Bool} {bytes : List UInt8}
    (h : inside = true → bytes.head? ≠ some quote) :
    insideStrings inside (quote :: bytes) = false :: insideStrings (!inside) bytes := by
  cases bytes with
  | nil => simp [insideStrings]
  | cons c bytes => simp [insideStrings, not_paired_head h]

/-- The first pass leaves no quote in a comment. -/
theorem Construct.quote_not_mem_uncommented {k : Construct} (hk : k ≠ .string)
    (xs : List UInt8) : quote ∉ xs.map k.uncommented := by
  have hne (b : UInt8) : k.uncommented b ≠ quote := by
    cases k with
    | string => exact absurd rfl hk
    | lineComment | blockComment => exact blankByte_ne_quote b
  intro hmem
  obtain ⟨b, -, hb⟩ := List.mem_map.mp hmem
  exact hne b hb

theorem Lexeme.map_isInString_readings (k : Construct) (inner close : List UInt8) :
    (construct k inner close).readings.map Reading.isInString =
      k.opening.map (fun _ => false) ++ (inner.map (fun _ => decide (k = .string)) ++
        close.map (fun _ => false)) := by
  have hstring : (k.lexis == .string) = decide (k = .string) := by cases k <;> rfl
  simp [readings, Function.comp_def, Reading.isInString, hstring]

theorem insideStrings_comment {k : Construct} (hk : k ≠ .string) (inner close bytes : List UInt8) :
    insideStrings false ((Lexeme.construct k inner close).readings.map Reading.uncommented ++
      bytes) = (Lexeme.construct k inner close).readings.map Reading.isInString ++
        insideStrings false bytes := by
  rw [Lexeme.map_uncommented_readings, Lexeme.map_isInString_readings, ← List.map_append,
    ← List.map_append, insideStrings_of_not_mem (Construct.quote_not_mem_uncommented hk _)]
  simp [hk]

theorem insideStrings_string {inner close bytes : List UInt8}
    (hinner : Construct.paired inner = true)
    (hclose : insideStrings true (close ++ bytes) =
      close.map (fun _ => false) ++ insideStrings false bytes) :
    insideStrings false ((Lexeme.construct .string inner close).readings.map
      Reading.uncommented ++ bytes) =
        (Lexeme.construct .string inner close).readings.map Reading.isInString ++
          insideStrings false bytes := by
  have hkept (xs : List UInt8) : xs.map Construct.string.uncommented = xs := List.map_id xs
  rw [Lexeme.map_uncommented_readings, Lexeme.map_isInString_readings, hkept, hkept, hkept,
    List.append_assoc, List.append_assoc]
  show insideStrings false (quote :: (inner ++ (close ++ bytes))) = _
  rw [insideStrings_quote (by simp)]
  show false :: insideStrings true _ = _
  rw [insideStrings_of_paired hinner, hclose]
  simp [Construct.opening]

/-- The second pass on what the first one has made of a lexeme. -/
theorem insideStrings_readings {l : Lexeme} {rest bytes : List UInt8} (h : l.Precedes rest)
    (hnext : rest.head? ≠ some quote → bytes.head? ≠ some quote)
    (hend : rest = [] → bytes = []) :
    insideStrings false (l.readings.map Reading.uncommented ++ bytes) =
      l.readings.map Reading.isInString ++ insideStrings false bytes := by
  cases h with
  | @code b _ hopens =>
      have hquote : b ≠ quote := fun hb => hopens .string ⟨rest, by rw [hb]; rfl⟩
      have hkept : Reading.uncommented ⟨b, .code, false⟩ = b := ite_self b
      rw [Lexeme.readings, List.map_singleton, hkept]
      exact insideStrings_of_ne hquote false bytes
  | @closed k inner _ hinner hrest =>
      by_cases hk : k = .string
      · subst hk
        refine insideStrings_string hinner ?_
        exact insideStrings_quote fun _ => hnext (Construct.head?_ne_of_ends hrest)
      · exact insideStrings_comment hk inner k.closing bytes
  | @unclosed k inner hinner =>
      by_cases hk : k = .string
      · subst hk
        refine insideStrings_string hinner ?_
        rw [hend rfl]
        rfl
      · exact insideStrings_comment hk inner [] bytes

theorem insideStrings_maskComments (bytes : List UInt8) :
    insideStrings false (maskComments bytes) = (lex bytes).map Reading.isInString := by
  unfold maskComments lex
  induction bytes using lexemes_induction with
  | nil => rfl
  | cons l rest h ih =>
      rw [maskCommentsFrom_text h,
        insideStrings_readings h (fun hrest => head?_maskCommentsFrom_ne hrest .code)
          (fun hrest => by rw [hrest]; rfl),
        ih, List.flatMap_cons, List.map_append]

/-! ### Both passes -/

/-- Masking follows one lexer. The lexer reads each byte of the script once; the first pass blanks
what it reads in a comment, the second pass is inside a string exactly where the lexer is and
blanks that, and of the whole script line breaks, code and the quotes around strings remain. -/
theorem masked_eq_map_lex (bytes : List UInt8) :
    (lex bytes).map Reading.byte = bytes ∧
      (masked bytes).length = bytes.length ∧
      masked bytes = (lex bytes).map Reading.masked ∧
      maskComments bytes = (lex bytes).map Reading.uncommented ∧
      insideStrings false (maskComments bytes) = (lex bytes).map Reading.isInString ∧
      masked bytes = List.zipWith (fun inside b => if inside then blankByte b else b)
        (insideStrings false (maskComments bytes)) (maskComments bytes) := by
  have hbytes := map_byte_lex bytes
  have hfirst := maskComments_eq_map_lex bytes
  have hinside := insideStrings_maskComments bytes
  have hsecond := blankStringsFrom_eq_zipWith false (maskComments bytes)
  have hmasked : masked bytes = (lex bytes).map Reading.masked := by
    rw [masked, blankStrings, hsecond, hinside, hfirst, List.zipWith_map, List.zipWith_self]
    exact List.map_congr_left fun r _ => r.masked_eq.symm
  refine ⟨hbytes, ?_, hmasked, hfirst, hinside, hsecond⟩
  rw [hmasked, List.length_map, ← List.length_map Reading.byte, hbytes]

end CodeGraph.Sql
