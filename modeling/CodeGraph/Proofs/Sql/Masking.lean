import CodeGraph.Sql.Analysis
import Mathlib.Data.List.Forall2
import Mathlib.Data.List.Infix

/-!
What SQL analysis does not see. Both passes of masking follow one scan, which reads a byte at a
time and looks at the next one: the second pass opens and closes strings where the first did. The
scan leaves nothing of a comment or a string but its line breaks, and it stands at the same place
behind it, so the interior may be replaced without any change in the result.
-/

namespace CodeGraph.Sql

open Mask

/-! ### The scan -/

/-- Where a scan stands before a byte. -/
structure Scan where
  lexis : Lexis := .code
  /-- Whether the byte is the second one of a mark. -/
  inMark : Bool := false
  deriving DecidableEq, Repr, Inhabited

/-- Where a scan goes from a byte that does not end a mark, when `next` follows it. -/
def Lexis.move (l : Lexis) (b : UInt8) (next : Option UInt8) : Scan :=
  match l with
  | .code =>
      if b = quote then ⟨.string, false⟩
      else if b = hyphen ∧ next = some hyphen then ⟨.lineComment, true⟩
      else if b = slash ∧ next = some star then ⟨.blockComment, true⟩
      else ⟨.code, false⟩
  | .string =>
      if b = quote then if next = some quote then ⟨.string, true⟩ else ⟨.code, false⟩
      else ⟨.string, false⟩
  | .lineComment => if isBreak b then ⟨.code, false⟩ else ⟨.lineComment, false⟩
  | .blockComment =>
      if b = star ∧ next = some slash then ⟨.code, true⟩ else ⟨.blockComment, false⟩

namespace Scan

def move (s : Scan) (b : UInt8) (next : Option UInt8) : Scan :=
  if s.inMark then ⟨s.lexis, false⟩ else s.lexis.move b next

def after (s : Scan) (next : Option UInt8) : List UInt8 → Scan
  | [] => s
  | b :: bytes => (s.move b (bytes.head?.or next)).after next bytes

def rewrite (out : Scan → UInt8 → Option UInt8 → UInt8) (s : Scan) : List UInt8 → List UInt8
  | [] => []
  | b :: bytes => out s b bytes.head? :: (s.move b bytes.head?).rewrite out bytes

def outOfComment (s : Scan) (b : UInt8) (next : Option UInt8) : UInt8 :=
  match s.lexis with
  | .code => if s.inMark || (s.move b next).inMark then space else b
  | .string => b
  | .lineComment | .blockComment => blankByte b

/-- What masking of comments and strings makes of a byte: of a string the quotes remain. -/
def outOfCode (s : Scan) (b : UInt8) (next : Option UInt8) : UInt8 :=
  if s.lexis = .string then if (s.move b next).lexis = .code then b else blankByte b
  else s.outOfComment b next

end Scan

/-- Where the scan that masking follows stands at an offset of a script. -/
def scanAt (bytes : List UInt8) (offset : Nat) : Scan :=
  Scan.after {} (bytes.drop offset).head? (bytes.take offset)

/-! ### Both passes follow the scan -/

/-- The marks of two bytes. -/
theorem Lexis.mark_cases {l : Lexis} {b : UInt8} {next : Option UInt8}
    (h : (l.move b next).inMark = true) :
    (l = .code ∧ b = hyphen ∧ next = some hyphen) ∨ (l = .code ∧ b = slash ∧ next = some star) ∨
      (l = .string ∧ b = quote ∧ next = some quote) ∨
      (l = .blockComment ∧ b = star ∧ next = some slash) := by
  cases l <;> simp only [Lexis.move] at h <;> split_ifs at h <;> simp_all

/-- Induction along a scan: what it reads next is a single byte or a mark. -/
theorem Lexis.scan_induction {motive : Lexis → List UInt8 → Prop} (nil : ∀ l, motive l [])
    (byte : ∀ l b bytes, (l.move b bytes.head?).inMark = false →
      motive (l.move b bytes.head?).lexis bytes → motive l (b :: bytes))
    (mark : ∀ l b c bytes, (l.move b (some c)).inMark = true →
      motive (l.move b (some c)).lexis bytes → motive l (b :: c :: bytes)) :
    ∀ (l : Lexis) (bytes : List UInt8), motive l bytes
  | l, [] => nil l
  | l, [b] => by
      refine byte l b [] (Bool.eq_false_iff.mpr fun hmark => ?_) (nil _)
      rcases mark_cases hmark with h | h | h | h <;> cases h.2.2
  | l, b :: c :: bytes => by
      cases h : (l.move b (some c)).inMark with
      | true => exact mark l b c bytes h (scan_induction nil byte mark _ bytes)
      | false => exact byte l b (c :: bytes) h (scan_induction nil byte mark _ (c :: bytes))

/-- Code goes on unless a string or a comment begins. -/
theorem Lexis.move_code {b : UInt8} {next : Option UInt8} (hquote : b ≠ quote)
    (h : (Lexis.code.move b next).inMark = false) :
    Lexis.code.move b next = {} ∧ ¬ (b = hyphen ∧ next = some hyphen) ∧
      ¬ (b = slash ∧ next = some star) := by
  simp only [Lexis.move, if_neg hquote] at h ⊢
  split_ifs at h ⊢ with hline hblock
  exact ⟨rfl, hline, hblock⟩

theorem blankByte_of_isBreak {b : UInt8} (h : isBreak b = true) : blankByte b = b := by
  rw [blankByte, if_pos h]

theorem blankByte_of_not_isBreak {b : UInt8} (h : isBreak b = false) : blankByte b = space := by
  rw [blankByte, if_neg (by simp [h])]

section

variable {l : Lexis} {b c : UInt8} {bytes : List UInt8}

theorem Scan.rewrite_byte (out : Scan → UInt8 → Option UInt8 → UInt8)
    (h : (l.move b bytes.head?).inMark = false) :
    Scan.rewrite out ⟨l, false⟩ (b :: bytes) = out ⟨l, false⟩ b bytes.head? ::
      Scan.rewrite out ⟨(l.move b bytes.head?).lexis, false⟩ bytes := by
  have hmove : Scan.move ⟨l, false⟩ b bytes.head? = ⟨(l.move b bytes.head?).lexis, false⟩ := by
    show l.move b bytes.head? = _
    rw [← h]
  rw [Scan.rewrite, hmove]

theorem Scan.rewrite_mark (out : Scan → UInt8 → Option UInt8 → UInt8)
    (h : (l.move b (some c)).inMark = true) :
    Scan.rewrite out ⟨l, false⟩ (b :: c :: bytes) = out ⟨l, false⟩ b (some c) ::
      out (l.move b (some c)) c bytes.head? ::
        Scan.rewrite out ⟨(l.move b (some c)).lexis, false⟩ bytes := by
  have hmove : (l.move b (some c)).move c bytes.head? = ⟨(l.move b (some c)).lexis, false⟩ := by
    rw [Scan.move, if_pos h]
  rw [Scan.rewrite, Scan.rewrite, ← hmove]
  rfl

theorem maskCommentsFrom_byte (h : (l.move b bytes.head?).inMark = false) :
    maskCommentsFrom l (b :: bytes) = Scan.outOfComment ⟨l, false⟩ b bytes.head? ::
      maskCommentsFrom (l.move b bytes.head?).lexis bytes := by
  cases l with
  | code =>
      by_cases hquote : b = quote
      · cases bytes <;>
          simp [maskCommentsFrom, Scan.outOfComment, Scan.move, Lexis.move, hquote]
      · obtain ⟨hmove, hline, hblock⟩ := Lexis.move_code hquote h
        cases bytes with
        | nil =>
            rw [List.head?_nil] at hmove
            simp [maskCommentsFrom, Scan.outOfComment, Scan.move, hmove, hquote]
        | cons c rest =>
            simp only [List.head?_cons, Option.some.injEq] at hmove hline hblock
            simp [maskCommentsFrom, Scan.outOfComment, Scan.move, hmove, hquote, hline, hblock]
  | string =>
      cases bytes with
      | nil => by_cases hquote : b = quote <;> simp [maskCommentsFrom, Scan.outOfComment, hquote]
      | cons c rest =>
          by_cases hquote : b = quote
          · have hc : c ≠ quote := by
              rintro rfl
              simp [Lexis.move, hquote] at h
            simp [maskCommentsFrom, Scan.outOfComment, Lexis.move, hquote, hc]
          · simp [maskCommentsFrom, Scan.outOfComment, Lexis.move, hquote]
  | lineComment =>
      cases hb : isBreak b with
      | true => simp [maskCommentsFrom, Scan.outOfComment, Lexis.move, hb, blankByte_of_isBreak]
      | false =>
          simp [maskCommentsFrom, Scan.outOfComment, Lexis.move, hb, blankByte_of_not_isBreak]
  | blockComment =>
      have hmove : ¬ (b = star ∧ bytes.head? = some slash) := by
        intro hmark
        simp [Lexis.move, hmark] at h
      cases bytes with
      | nil => rfl
      | cons c rest =>
          simp only [List.head?_cons, Option.some.injEq] at hmove
          simp [maskCommentsFrom, Scan.outOfComment, Lexis.move, hmove]

theorem maskCommentsFrom_mark (h : (l.move b (some c)).inMark = true) :
    maskCommentsFrom l (b :: c :: bytes) = Scan.outOfComment ⟨l, false⟩ b (some c) ::
      Scan.outOfComment (l.move b (some c)) c bytes.head? ::
        maskCommentsFrom (l.move b (some c)).lexis bytes := by
  obtain ⟨rfl, rfl, hc⟩ | ⟨rfl, rfl, hc⟩ | ⟨rfl, rfl, hc⟩ | ⟨rfl, rfl, hc⟩ := Lexis.mark_cases h <;>
    cases hc <;> rfl

end

/-- Masking of comments follows the scan. -/
theorem maskCommentsFrom_eq_rewrite (l : Lexis) (bytes : List UInt8) :
    maskCommentsFrom l bytes = Scan.rewrite Scan.outOfComment ⟨l, false⟩ bytes := by
  induction l, bytes using Lexis.scan_induction with
  | nil l => cases l <;> rfl
  | byte l b bytes h ih => rw [maskCommentsFrom_byte h, ih, Scan.rewrite_byte _ h]
  | mark l b c bytes h ih => rw [maskCommentsFrom_mark h, ih, Scan.rewrite_mark _ h]

theorem blankByte_ne_quote (b : UInt8) : blankByte b ≠ quote := by
  cases h : isBreak b with
  | true =>
      rw [blankByte_of_isBreak h]
      rintro rfl
      cases h
  | false =>
      rw [blankByte_of_not_isBreak h]
      decide

/-- The first pass puts no quote behind a quote that ends a string. -/
theorem head?_maskCommentsFrom_ne {bytes : List UInt8} (h : bytes.head? ≠ some quote) (l : Lexis) :
    (maskCommentsFrom l bytes).head? ≠ some quote := by
  rw [maskCommentsFrom_eq_rewrite]
  cases bytes with
  | nil => exact h
  | cons b bytes =>
      have hb : b ≠ quote := fun hb => h (congrArg some hb)
      intro hout
      have hout : Scan.outOfComment ⟨l, false⟩ b bytes.head? = quote := Option.some.inj hout
      cases l with
      | code =>
          rw [Scan.outOfComment] at hout
          dsimp only at hout
          split at hout
          · exact absurd hout (by decide)
          · exact hb hout
      | string => exact hb hout
      | lineComment => exact blankByte_ne_quote b hout
      | blockComment => exact blankByte_ne_quote b hout

theorem blankStringsFrom_of_ne {b : UInt8} (h : b ≠ quote) (inside : Bool) (bytes : List UInt8) :
    blankStringsFrom inside (b :: bytes) =
      (if inside then blankByte b else b) :: blankStringsFrom inside bytes := by
  cases bytes <;> simp [blankStringsFrom, h]

/-- A quote that ends a string is not the first of a pair. -/
theorem not_paired_head {inside : Bool} {c : UInt8} {bytes : List UInt8}
    (h : inside = true → (c :: bytes).head? ≠ some quote) : (inside && c == quote) = false := by
  cases inside with
  | false => rfl
  | true => simpa using h rfl

theorem blankStringsFrom_quote {inside : Bool} {bytes : List UInt8}
    (h : inside = true → bytes.head? ≠ some quote) :
    blankStringsFrom inside (quote :: bytes) = quote :: blankStringsFrom (!inside) bytes := by
  cases bytes with
  | nil => simp [blankStringsFrom]
  | cons c bytes => simp [blankStringsFrom, not_paired_head h]

theorem Lexis.move_comment_ne_string {l : Lexis} (hcode : l ≠ .code) (hstring : l ≠ .string)
    (b : UInt8) (next : Option UInt8) : (l.move b next).lexis ≠ .string := by
  cases l with
  | code => exact absurd rfl hcode
  | string => exact absurd rfl hstring
  | lineComment | blockComment =>
      rw [Lexis.move]
      split <;> simp

theorem blankStringsFrom_byte {l : Lexis} {b : UInt8} {next : Option UInt8} {bytes : List UInt8}
    (h : (l.move b next).inMark = false) (hnext : next ≠ some quote → bytes.head? ≠ some quote) :
    blankStringsFrom (decide (l = .string)) (Scan.outOfComment ⟨l, false⟩ b next :: bytes) =
      Scan.outOfCode ⟨l, false⟩ b next ::
        blankStringsFrom (decide ((l.move b next).lexis = .string)) bytes := by
  cases l with
  | code =>
      by_cases hquote : b = quote
      · subst hquote
        exact @blankStringsFrom_quote false bytes (by simp)
      · obtain ⟨hmove, -⟩ := Lexis.move_code hquote h
        simp [Scan.outOfCode, Scan.outOfComment, Scan.move, hmove, blankStringsFrom_of_ne hquote]
  | string =>
      by_cases hquote : b = quote
      · subst hquote
        have hlast : next ≠ some quote := by
          rintro rfl
          cases h
        have hmove : Lexis.string.move quote next = {} := by simp [Lexis.move, hlast]
        have hbytes := @blankStringsFrom_quote true bytes fun _ => hnext hlast
        simpa [Scan.outOfCode, Scan.outOfComment, Scan.move, hmove] using hbytes
      · have hmove : Lexis.string.move b next = ⟨.string, false⟩ := by simp [Lexis.move, hquote]
        simp [Scan.outOfCode, Scan.outOfComment, Scan.move, hmove, blankStringsFrom_of_ne hquote]
  | lineComment | blockComment =>
      simp [Scan.outOfCode, Scan.outOfComment, Lexis.move_comment_ne_string,
        blankStringsFrom_of_ne (blankByte_ne_quote b)]

theorem blankStringsFrom_mark {l : Lexis} {b c : UInt8} (h : (l.move b (some c)).inMark = true)
    (next : Option UInt8) (bytes : List UInt8) :
    blankStringsFrom (decide (l = .string)) (Scan.outOfComment ⟨l, false⟩ b (some c) ::
        Scan.outOfComment (l.move b (some c)) c next :: bytes) =
      Scan.outOfCode ⟨l, false⟩ b (some c) :: Scan.outOfCode (l.move b (some c)) c next ::
        blankStringsFrom (decide ((l.move b (some c)).lexis = .string)) bytes := by
  -- Each of the four marks is rewritten in the same way by the two passes and by the scan.
  obtain ⟨rfl, rfl, hc⟩ | ⟨rfl, rfl, hc⟩ | ⟨rfl, rfl, hc⟩ | ⟨rfl, rfl, hc⟩ := Lexis.mark_cases h <;>
    cases hc <;> cases bytes <;> rfl

/-- Both passes together follow the scan. -/
theorem blankStringsFrom_maskCommentsFrom (l : Lexis) (bytes : List UInt8) :
    blankStringsFrom (decide (l = .string)) (maskCommentsFrom l bytes) =
      Scan.rewrite Scan.outOfCode ⟨l, false⟩ bytes := by
  induction l, bytes using Lexis.scan_induction with
  | nil l => cases l <;> rfl
  | byte l b bytes h ih =>
      rw [maskCommentsFrom_byte h,
        blankStringsFrom_byte h fun hnext => head?_maskCommentsFrom_ne hnext _, ih,
        Scan.rewrite_byte _ h]
  | mark l b c bytes h ih =>
      rw [maskCommentsFrom_mark h, blankStringsFrom_mark h, ih, Scan.rewrite_mark _ h]

theorem masked_eq_rewrite (bytes : List UInt8) :
    masked bytes = Scan.rewrite Scan.outOfCode {} bytes :=
  blankStringsFrom_maskCommentsFrom .code bytes

/-! ### Parts of a script -/

/-- What a scan writes for some bytes depends on no more of what follows than its first byte. -/
theorem Scan.exists_rewrite_append (out : Scan → UInt8 → Option UInt8 → UInt8) (s : Scan)
    (next : Option UInt8) (before : List UInt8) :
    ∃ written, ∀ rest : List UInt8, rest.head? = next →
      s.rewrite out (before ++ rest) = written ++ (s.after next before).rewrite out rest := by
  induction before generalizing s with
  | nil => exact ⟨[], fun _ _ => rfl⟩
  | cons b before ih =>
      obtain ⟨written, hwritten⟩ := ih (s.move b (before.head?.or next))
      refine ⟨out s b (before.head?.or next) :: written, fun rest hrest => ?_⟩
      rw [List.cons_append, rewrite, List.head?_append, hrest, hwritten rest hrest]
      rfl

/-- The parts of a script whose interior is blanked. -/
inductive Construct where
  | string
  | lineComment
  | blockComment
  deriving DecidableEq, Repr

namespace Construct

def lexis : Construct → Lexis
  | string => .string
  | lineComment => .lineComment
  | blockComment => .blockComment

def opening : Construct → List UInt8
  | string => [quote]
  | lineComment => [hyphen, hyphen]
  | blockComment => [slash, star]

def paired : List UInt8 → Bool
  | [] => true
  | b :: bytes =>
      if b = quote then
        match bytes with
        | c :: bytes => c == quote && paired bytes
        | [] => false
      else paired bytes

theorem paired_of_not_mem {bytes : List UInt8} (h : quote ∉ bytes) : paired bytes = true := by
  induction bytes with
  | nil => rfl
  | cons b bytes ih =>
      obtain ⟨hb, hbytes⟩ := not_or.mp (mt List.mem_cons.mpr h)
      cases bytes <;> simp_all [paired, Ne.symm hb]

def Inside : Construct → List UInt8 → Prop
  | string, bytes => paired bytes = true
  | lineComment, bytes => ∀ b ∈ bytes, isBreak b = false
  | blockComment, bytes => ¬ [star, slash] <:+: bytes

instance : ∀ (k : Construct) (bytes : List UInt8), Decidable (k.Inside bytes)
  | string, bytes => inferInstanceAs (Decidable (paired bytes = true))
  | lineComment, bytes => inferInstanceAs (Decidable (∀ b ∈ bytes, isBreak b = false))
  | blockComment, bytes => inferInstanceAs (Decidable (¬ [star, slash] <:+: bytes))

/-- What follows the interior: the end of the construct or that of the script. -/
def Ends : Construct → List UInt8 → Prop
  | string, rest => rest = [] ∨ (rest.head? = some quote ∧ rest.tail.head? ≠ some quote)
  | lineComment, rest => ∀ b ∈ rest.head?, isBreak b = true
  | blockComment, rest => rest = [] ∨ [star, slash] <+: rest

/-- What follows an opening is the interior of the construct and the rest of the script. -/
structure Interior (k : Construct) (tail inner rest : List UInt8) : Prop where
  eq : tail = inner ++ rest
  inside : k.Inside inner
  ends : k.Ends rest

/-- The scan enters a construct at its opening. -/
theorem exists_rewrite_opening (k : Construct) :
    ∃ written, ∀ bytes, Scan.rewrite Scan.outOfCode {} (k.opening ++ bytes) =
      written ++ Scan.rewrite Scan.outOfCode ⟨k.lexis, false⟩ bytes := by
  cases k with
  | string => exact ⟨[quote], fun _ => rfl⟩
  | lineComment | blockComment => exact ⟨[space, space], fun _ => rfl⟩

/-- What is written for a byte inside the construct depends on nothing else. -/
structure WritesEach (k : Construct) (out : Scan → UInt8 → Option UInt8 → UInt8)
    (f : UInt8 → UInt8) : Prop where
  stay : ∀ {b next}, k.lexis.move b next = ⟨k.lexis, false⟩ → out ⟨k.lexis, false⟩ b next = f b
  pair : k = string → out ⟨.string, false⟩ quote (some quote) = f quote ∧
    ∀ next, out ⟨.string, true⟩ quote next = f quote

section

variable {k : Construct} {out : Scan → UInt8 → Option UInt8 → UInt8} {f : UInt8 → UInt8}
  {inner rest : List UInt8}

theorem rewrite_of_stay (hout : k.WritesEach out f) {b : UInt8}
    (h : k.lexis.move b rest.head? = ⟨k.lexis, false⟩) :
    Scan.rewrite out ⟨k.lexis, false⟩ (b :: rest) =
      f b :: Scan.rewrite out ⟨k.lexis, false⟩ rest := by
  rw [Scan.rewrite_byte _ (by rw [h]), h, hout.stay h]

theorem rewrite_string (hout : string.WritesEach out f) (h : paired inner = true)
    (rest : List UInt8) :
    Scan.rewrite out ⟨.string, false⟩ (inner ++ rest) =
      inner.map f ++ Scan.rewrite out ⟨.string, false⟩ rest := by
  fun_induction paired inner with
  | case1 => rfl
  | case2 c bytes ih =>
      -- A pair of quotes is one mark, and the string goes on behind it.
      obtain ⟨hc, hbytes⟩ := Bool.and_eq_true_iff.mp h
      obtain rfl : c = quote := beq_iff_eq.mp hc
      obtain ⟨hfirst, hsecond⟩ := hout.pair rfl
      have hmove : Lexis.string.move quote (some quote) = ⟨.string, true⟩ := rfl
      rw [List.cons_append, List.cons_append, Scan.rewrite_mark _ rfl, hmove, hfirst, hsecond,
        ih hbytes]
      rfl
  | case3 => cases h
  | case4 b bytes hb ih =>
      have hstay : string.lexis.move b (bytes ++ rest).head? = ⟨string.lexis, false⟩ := by
        simp [lexis, Lexis.move, hb]
      rw [List.cons_append, List.map_cons, List.cons_append, ← ih h]
      exact rewrite_of_stay hout hstay

theorem rewrite_lineComment (hout : lineComment.WritesEach out f)
    (h : ∀ b ∈ inner, isBreak b = false) (rest : List UInt8) :
    Scan.rewrite out ⟨.lineComment, false⟩ (inner ++ rest) =
      inner.map f ++ Scan.rewrite out ⟨.lineComment, false⟩ rest := by
  induction inner with
  | nil => rfl
  | cons b inner ih =>
      obtain ⟨hb, hinner⟩ := List.forall_mem_cons.mp h
      have hstay : lineComment.lexis.move b (inner ++ rest).head? = ⟨lineComment.lexis, false⟩ := by
        simp [lexis, Lexis.move, hb]
      rw [List.cons_append, List.map_cons, List.cons_append, ← ih hinner]
      exact rewrite_of_stay hout hstay

theorem rewrite_blockComment (hout : blockComment.WritesEach out f)
    (h : ¬ [star, slash] <:+: inner) (hrest : rest = [] ∨ [star, slash] <+: rest) :
    Scan.rewrite out ⟨.blockComment, false⟩ (inner ++ rest) =
      inner.map f ++ Scan.rewrite out ⟨.blockComment, false⟩ rest := by
  induction inner with
  | nil => rfl
  | cons b inner ih =>
      have hmark : ¬ (b = star ∧ (inner ++ rest).head? = some slash) := by
        rintro ⟨rfl, hslash⟩
        cases inner with
        | nil =>
            -- The end of the comment does not begin with a slash.
            obtain rfl | ⟨rest', rfl⟩ := hrest <;> cases hslash
        | cons c inner =>
            obtain rfl : c = slash := Option.some.inj hslash
            exact h ⟨[], inner, rfl⟩
      have hstay : blockComment.lexis.move b (inner ++ rest).head? =
          ⟨blockComment.lexis, false⟩ := by
        rw [lexis, Lexis.move, if_neg hmark]
      have hinner : ¬ [star, slash] <:+: inner := fun hin => h (List.infix_cons hin)
      rw [List.cons_append, List.map_cons, List.cons_append, ← ih hinner]
      exact rewrite_of_stay hout hstay

/-- The scan stays in the construct up to the end of its interior. -/
theorem rewrite_inside (hout : k.WritesEach out f) (hinner : k.Inside inner)
    (hrest : k.Ends rest) :
    Scan.rewrite out ⟨k.lexis, false⟩ (inner ++ rest) =
      inner.map f ++ Scan.rewrite out ⟨k.lexis, false⟩ rest := by
  cases k with
  | string => exact rewrite_string hout hinner rest
  | lineComment => exact rewrite_lineComment hout hinner rest
  | blockComment => exact rewrite_blockComment hout hinner hrest

end

/-- Of the interior of a construct only the line breaks remain. -/
theorem writesEach_outOfCode (k : Construct) : k.WritesEach Scan.outOfCode blankByte := by
  cases k with
  | string =>
      refine ⟨fun {b next} h => ?_, fun _ => ⟨rfl, fun _ => rfl⟩⟩
      have hmove : Scan.move ⟨.string, false⟩ b next = ⟨.string, false⟩ := h
      simp [lexis, Scan.outOfCode, hmove]
  | lineComment | blockComment => exact ⟨fun _ => rfl, fun h => by cases h⟩

/-! ### Interiors -/

theorem exists_interior_string : ∀ tail, ∃ inner rest, string.Interior tail inner rest
  | [] => ⟨[], [], rfl, rfl, .inl rfl⟩
  | [b] => by
      by_cases hb : b = quote
      · exact ⟨[], [b], rfl, rfl, .inr ⟨by rw [hb]; rfl, by simp⟩⟩
      · exact ⟨[b], [], rfl, by simp [Inside, paired, hb], .inl rfl⟩
  | b :: c :: tail => by
      by_cases hb : b = quote
      · subst hb
        by_cases hc : c = quote
        · subst hc
          obtain ⟨inner, rest, rfl, hinner, hrest⟩ := exists_interior_string tail
          exact ⟨quote :: quote :: inner, rest, rfl, by simpa [Inside, paired] using hinner, hrest⟩
        · exact ⟨[], quote :: c :: tail, rfl, rfl, .inr ⟨rfl, by simpa using hc⟩⟩
      · obtain ⟨inner, rest, heq, hinner, hrest⟩ := exists_interior_string (c :: tail)
        refine ⟨b :: inner, rest, by rw [heq]; rfl, ?_, hrest⟩
        cases inner with
        | nil => simp [Inside, paired, hb]
        | cons d inner => simpa [Inside, paired, hb] using hinner

theorem exists_interior_lineComment (tail : List UInt8) :
    ∃ inner rest, lineComment.Interior tail inner rest := by
  refine ⟨tail.takeWhile (!isBreak ·), tail.dropWhile (!isBreak ·),
    List.takeWhile_append_dropWhile.symm, fun b hb => ?_, fun b hb => ?_⟩
  · simpa using List.all_eq_true.mp List.all_takeWhile b hb
  · have hnot := List.head?_dropWhile_not (!isBreak ·) tail
    rw [Option.mem_def.mp hb] at hnot
    simpa using hnot

theorem exists_interior_blockComment (tail : List UInt8) :
    ∃ inner rest, blockComment.Interior tail inner rest := by
  induction tail with
  | nil => exact ⟨[], [], rfl, by simp [Inside], .inl rfl⟩
  | cons b tail ih =>
      by_cases hend : [star, slash] <+: b :: tail
      · exact ⟨[], b :: tail, rfl, by simp [Inside], .inr hend⟩
      · obtain ⟨inner, rest, rfl, hinner, hrest⟩ := ih
        refine ⟨b :: inner, rest, rfl, fun hin => ?_, hrest⟩
        rcases List.infix_cons_iff.mp hin with hpre | hin
        · exact hend (hpre.trans (List.prefix_append (b :: inner) rest))
        · exact hinner hin

/-- Every construct has an interior. -/
theorem exists_interior (k : Construct) (tail : List UInt8) :
    ∃ inner rest, k.Interior tail inner rest := by
  cases k with
  | string => exact exists_interior_string tail
  | lineComment => exact exists_interior_lineComment tail
  | blockComment => exact exists_interior_blockComment tail

end Construct

/-! ### Replacing an interior -/

/-- Texts of one length with the same line breaks in the same places. -/
def SameBreaks (xs ys : List UInt8) : Prop :=
  List.Forall₂ (fun a b => (a = lf ↔ b = lf) ∧ (a = cr ↔ b = cr)) xs ys

theorem SameBreaks.blank_eq {xs ys : List UInt8} (h : SameBreaks xs ys) : blank xs = blank ys := by
  induction h with
  | nil => rfl
  | @cons a b xs ys hab _ ih =>
      have hblank : blankByte a = blankByte b := by
        by_cases hlf : a = lf
        · rw [hlf, hab.1.mp hlf]
        · by_cases hcr : a = cr
          · rw [hcr, hab.2.mp hcr]
          · have ha : isBreak a = false := by simp [isBreak, hlf, hcr]
            have hb : isBreak b = false := by
              simp [isBreak, hab.1.not.mp hlf, hab.2.not.mp hcr]
            rw [blankByte_of_not_isBreak ha, blankByte_of_not_isBreak hb]
      exact congrArg₂ List.cons hblank ih

/-- The masked script does not depend on the interior of a construct. -/
theorem masked_replace_interior {content tail inner rest inner' : List UInt8} {offset : Nat}
    {k : Construct} (htop : scanAt content offset = {})
    (hstart : content.drop offset = k.opening ++ tail) (h : k.Interior tail inner rest)
    (hinside : k.Inside inner') (hbreaks : SameBreaks inner inner') :
    masked (content.take offset ++ (k.opening ++ (inner' ++ rest))) = masked content := by
  obtain ⟨written, hwritten⟩ := Scan.exists_rewrite_append Scan.outOfCode {} k.opening.head?
    (content.take offset)
  obtain ⟨mark, hmark⟩ := k.exists_rewrite_opening
  have hhead (bytes : List UInt8) : (k.opening ++ bytes).head? = k.opening.head? := by
    cases k <;> rfl
  have htop : Scan.after {} k.opening.head? (content.take offset) = {} := by
    rw [scanAt, hstart, hhead] at htop
    exact htop
  -- Both scripts are masked alike before the construct, at its opening, inside and behind it.
  have hmasked (bytes : List UInt8) (hbytes : k.Inside bytes) :
      masked (content.take offset ++ (k.opening ++ (bytes ++ rest))) =
        written ++ (mark ++ (blank bytes ++
          Scan.rewrite Scan.outOfCode ⟨k.lexis, false⟩ rest)) := by
    rw [masked_eq_rewrite, hwritten _ (hhead _), htop, hmark,
      Construct.rewrite_inside k.writesEach_outOfCode hbytes h.ends, blank]
  have hcontent : content = content.take offset ++ (k.opening ++ (inner ++ rest)) := by
    rw [← h.eq, ← hstart, List.take_append_drop]
  rw [hmasked inner' hinside, ← hbreaks.blank_eq, ← hmasked inner h.inside, ← hcontent]

/-- Whatever is put in the place of the interior of a comment or a string, as long as the line
breaks stay and the construct does not end earlier, the analysis has the same result. -/
theorem analyze_replace_interior {content tail : List UInt8} {offset : Nat} {k : Construct}
    (htop : scanAt content offset = {}) (hstart : content.drop offset = k.opening ++ tail) :
    (∃ inner rest, k.Interior tail inner rest) ∧
      ∀ inner rest, k.Interior tail inner rest → ∀ inner', k.Inside inner' →
        SameBreaks inner inner' → ∀ path,
          analyze ⟨path, content.take offset ++ (k.opening ++ (inner' ++ rest))⟩ =
            analyze ⟨path, content⟩ := by
  refine ⟨k.exists_interior tail, fun inner rest h inner' hinside hbreaks path => ?_⟩
  rw [analyze, analyze, masked_replace_interior htop hstart h hinside hbreaks]

/-- A procedure with a string that holds a pair of quotes and the mark of a comment. -/
def quotedScript : List UInt8 :=
  Utf8.encode "CREATE PROC a AS 'EXEC''--b' /*'*/ EXEC c".toList

theorem quotedScript_replace_interior :
    scanAt quotedScript 17 = {} ∧
      Construct.string.Interior (quotedScript.drop 18) (Utf8.encode "EXEC''--b".toList)
        (Utf8.encode "' /*'*/ EXEC c".toList) ∧
      (analyze ⟨"s.sql", quotedScript⟩).toOption.map (·.edges) =
        some [⟨"s.sql:a", "UNKNOWN:c", Relation.calls⟩] ∧
      analyze ⟨"s.sql", Utf8.encode "CREATE PROC a AS '/*EXEC d ' /*'*/ EXEC c".toList⟩ =
        analyze ⟨"s.sql", quotedScript⟩ := by
  have htop : scanAt quotedScript 17 = {} := by decide +kernel
  have hstart : quotedScript.drop 17 = Construct.string.opening ++ quotedScript.drop 18 := by
    decide +kernel
  have hinterior : Construct.string.Interior (quotedScript.drop 18)
      (Utf8.encode "EXEC''--b".toList) (Utf8.encode "' /*'*/ EXEC c".toList) := by
    refine ⟨by decide +kernel, by decide +kernel, .inr ⟨?_, ?_⟩⟩ <;> decide +kernel
  have hreplaced : Utf8.encode "CREATE PROC a AS '/*EXEC d ' /*'*/ EXEC c".toList =
      quotedScript.take 17 ++ (Construct.string.opening ++ (Utf8.encode "/*EXEC d ".toList ++
        Utf8.encode "' /*'*/ EXEC c".toList)) := by
    decide +kernel
  refine ⟨htop, hinterior, by decide +kernel, ?_⟩
  rw [hreplaced]
  refine (analyze_replace_interior htop hstart).2 _ _ hinterior _ ?_ ?_ "s.sql"
  · exact Construct.paired_of_not_mem (by decide +kernel)
  · unfold SameBreaks
    decide +kernel

end CodeGraph.Sql
