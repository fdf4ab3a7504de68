import CodeGraph.Import
import CodeGraph.Proofs.Linking.Scopes
import CodeGraph.Proofs.Text.Trimming
import CodeGraph.Proofs.Vb.LeadingNames
import CodeGraph.Proofs.Vb.Parameters
import Mathlib.Data.List.DropRight

/-!
What the white space of a using directive decides. A directive is a list of words, and the gaps
between them may be any white space: after `global` and `using`, around the equals sign and within
the target the reader skips whatever stands there. After `static` it looks for a blank. Where the
gap begins with a tab or a line break, the keyword is not recognized and stays in what is read.
-/

namespace CodeGraph

theorem Seq.flatten_splitOn {α : Type} (sep : α → Bool) (s : List α) :
    (splitOn sep s).flatten = s.filter fun a => !sep a := by
  induction s with
  | nil => rfl
  | cons a s ih =>
      by_cases ha : sep a = true
      · rw [splitOn_cons_of_sep ha, List.filter_cons_of_neg (by simp [ha]), ← ih]
        rfl
      · obtain ⟨p, ps, hsplit⟩ := exists_splitOn_eq sep s
        rw [splitOn_cons_of_not_sep (by simpa using ha) hsplit,
          List.filter_cons_of_pos (by simp [ha]), ← ih, hsplit]
        rfl

namespace Import

open Chars

theorem compact_eq_flatten_words (s : List Char) : compact s = (words s).flatten := by
  rw [compact, ← Seq.flatten_splitOn, words, List.flatten_filter_ne_nil]

theorem compact_append (s t : List Char) : compact (s ++ t) = compact s ++ compact t :=
  List.filter_append ..

theorem compact_blank {space : List Char} (hspace : IsBlank space) : compact space = [] :=
  List.filter_eq_nil_iff.mpr fun c hc => by simp [hspace c hc]

theorem compact_token {w : List Char} (hw : IsToken w) : compact w = w :=
  List.filter_eq_self.mpr fun c hc => by simp [hw.isSpace c hc]

theorem compact_trimStart (s : List Char) : compact (trimStart s) = compact s := by
  have hspan := List.takeWhile_append_dropWhile (p := Text.isSpace) (l := s)
  have hspace : compact (s.takeWhile Text.isSpace) = [] :=
    compact_blank fun c hc => List.mem_takeWhile_imp hc
  rw [← hspan, compact_append, hspace, List.nil_append, hspan, trimStart]

theorem compact_trimEnd (s : List Char) : compact (trimEnd s) = compact s := by
  have hreverse := compact_trimStart s.reverse
  rw [compact, compact, trimStart, List.filter_reverse] at hreverse
  rw [compact, trimEnd, List.filter_reverse, hreverse, List.reverse_reverse, compact]

/-! ### Directives -/

structure Gap where
  chars : List Char
  ne_nil : chars ≠ []
  isBlank : IsBlank chars

def staticWord : List Char := "static".toList

/-- A using directive as its words: the keywords in front, the name before the equals sign if there
is one, and the words of what is used. -/
structure Using where
  isGlobal : Bool
  isStatic : Bool
  alias? : Option (List Char)
  target : List (List Char)
  alias_token : ∀ name ∈ alias?, IsToken name ∧ '=' ∉ name ∧ name ≠ staticWord
  target_ne_nil : target ≠ []
  /-- Without an equals sign the target begins where a keyword could. -/
  target_plain : alias? = none →
    (∀ w ∈ target, '=' ∉ w) ∧ target.head? ≠ some staticWord

namespace Using

/-- The white space of a directive. The target is written out with its own. -/
structure Layout (u : Using) where
  afterGlobal : Gap
  afterUsing : Gap
  afterStatic : Gap
  afterAlias : List Char
  target : List Char
  isBlank_afterAlias : IsBlank afterAlias
  words_target : words target = u.target

variable (u : Using)

def clause (l : u.Layout) : List Char :=
  match u.alias? with
  | some name => name ++ l.afterAlias ++ '=' :: l.target
  | none => l.target

def body (l : u.Layout) : List Char :=
  if u.isStatic then staticWord ++ l.afterStatic.chars ++ u.clause l else u.clause l

def keywords (l : u.Layout) : List Char :=
  let behind := "using".toList ++ l.afterUsing.chars
  if u.isGlobal then "global".toList ++ (l.afterGlobal.chars ++ behind) else behind

def text (l : u.Layout) : List Char :=
  u.keywords l ++ u.body l ++ [';']

def path : List Char :=
  u.target.flatten

def meaning (line : Nat) : Import :=
  let path := String.ofList u.path
  match u.alias? with
  | some name =>
      { kind := .alias, path, names := [⟨String.ofList name, path⟩], glob := false, line }
  | none =>
      if u.isStatic then { kind := .staticSpace, path, glob := false, line }
      else { kind := .space, path, glob := true, line }

/-- The import that is read where `static` is taken for a part of what follows it. -/
def glued (l : u.Layout) (line : Nat) : Import :=
  match u.alias? with
  | some name =>
      let path := String.ofList u.path
      let here := String.ofList (staticWord ++ l.afterStatic.chars ++ name)
      { kind := .alias, path, names := [⟨here, path⟩], glob := false, line }
  | none =>
      { kind := .space, path := String.ofList (staticWord ++ u.path), glob := true, line }

end Using

/-! ### Reading the clause -/

def ofClause? (isStatic : Bool) (rest : List Char) (line : Nat) : Option Import :=
  match Seq.cut? ['='] rest with
  | some (name, target) =>
      let path := String.ofList (compact target)
      if path == "" then none
      else some { kind := .alias, path, names := [⟨String.ofList (trim name), path⟩],
                  glob := false, line }
  | none =>
      let path := String.ofList (compact rest)
      if path == "" then none
      else if isStatic then some { kind := .staticSpace, path, glob := false, line }
      else some { kind := .space, path, glob := true, line }

theorem ofUsingBody?_static (rest : List Char) (line : Nat) :
    ofUsingBody? ("static ".toList ++ rest) line = ofClause? true (trim rest) line := by
  rw [ofUsingBody?, Seq.stripStart?_append]
  rfl

theorem ofUsingBody?_of_not_static {body : List Char}
    (h : Seq.stripStart? "static ".toList body = none) (line : Nat) :
    ofUsingBody? body line = ofClause? false body line := by
  rw [ofUsingBody?, h]
  rfl

theorem ofList_beq_empty {s : List Char} (h : s ≠ []) : (String.ofList s == "") = false := by
  rw [beq_eq_false_iff_ne]
  intro heq
  exact h (String.ofList_injective heq)

theorem ofClause?_alias {name target : List Char} (hname : '=' ∉ name)
    (htarget : compact target ≠ []) (isStatic : Bool) (line : Nat) :
    ofClause? isStatic (name ++ '=' :: target) line =
      some { kind := .alias, path := String.ofList (compact target),
             names := [⟨String.ofList (trim name), String.ofList (compact target)⟩],
             glob := false, line } := by
  rw [ofClause?, Seq.cut?_append_cons hname]
  simp only [ofList_beq_empty htarget]
  rfl

theorem ofClause?_target {target : List Char} (heq : '=' ∉ target)
    (htarget : compact target ≠ []) (isStatic : Bool) (line : Nat) :
    ofClause? isStatic target line =
      some (if isStatic then
          { kind := .staticSpace, path := String.ofList (compact target), glob := false, line }
        else { kind := .space, path := String.ofList (compact target), glob := true, line }) := by
  rw [ofClause?, Seq.cut?_singleton_eq_none heq]
  simp only [ofList_beq_empty htarget]
  cases isStatic <;> rfl

/-! ### Words -/

theorem isToken_of_mem_words {s w : List Char} (h : w ∈ words s) : IsToken w := by
  obtain ⟨hpiece, hne⟩ := List.mem_filter.mp h
  exact ⟨by simpa using hne, Seq.not_sep_of_mem_splitOn hpiece⟩

theorem words_blank_append {space : List Char} (hspace : IsBlank space) (s : List Char) :
    words (space ++ s) = words s := by
  induction space with
  | nil => rfl
  | cons c space ih =>
      obtain ⟨hc, hspace⟩ := List.forall_mem_cons.mp hspace
      rw [List.cons_append, Vb.words_space hc, ih hspace]

theorem words_trimStart (s : List Char) : words (trimStart s) = words s := by
  have hspan := List.takeWhile_append_dropWhile (p := Text.isSpace) (l := s)
  have hspace : IsBlank (s.takeWhile Text.isSpace) := fun c hc => List.mem_takeWhile_imp hc
  conv_rhs => rw [← hspan, words_blank_append hspace]
  rfl

theorem prefix_of_trimEnd (s : List Char) : trimEnd s <+: s :=
  List.rdropWhile_prefix ..

theorem isToken_staticWord : IsToken staticWord :=
  isToken_of_all (by decide) (by decide)

/-- The keyword is recognized only in front of a blank, as a word of its own. -/
theorem head?_words_of_strip {s rest : List Char}
    (h : Seq.stripStart? "static ".toList (trim s) = some rest) :
    (words s).head? = some staticWord := by
  obtain ⟨more, hmore⟩ := prefix_of_trimEnd (trimStart s)
  have hlist : trimStart s = staticWord ++ ' ' :: (rest ++ more) := by
    rw [← hmore, ← trim, Seq.stripStart?_eq_some.mp h]
    rfl
  rw [← words_trimStart, hlist, Vb.words_word_space isToken_staticWord.ne_nil
    isToken_staticWord.isSpace (by decide), List.head?_cons]

namespace Using

variable {u : Using} (l : u.Layout)

theorem compact_target : compact l.target = u.path := by
  rw [compact_eq_flatten_words, l.words_target, path]

theorem path_ne_nil (l : u.Layout) : u.path ≠ [] := by
  intro h
  obtain ⟨w, ws, hlist⟩ := List.exists_cons_of_ne_nil u.target_ne_nil
  have hw : w ∈ words l.target := by rw [l.words_target, hlist]; exact List.mem_cons_self
  exact (isToken_of_mem_words hw).ne_nil
    (List.flatten_eq_nil_iff.mp h w (by rw [hlist]; exact List.mem_cons_self))

theorem exists_target : ∃ c ∈ l.target, Text.isSpace c = false := by
  obtain ⟨c, hc⟩ := List.exists_mem_of_ne_nil (compact l.target)
    (by rw [compact_target]; exact path_ne_nil l)
  obtain ⟨hmem, hspace⟩ := List.mem_filter.mp hc
  exact ⟨c, hmem, by simpa using hspace⟩

theorem exists_clause : ∃ c ∈ u.clause l, Text.isSpace c = false := by
  obtain ⟨c, hc, hspace⟩ := exists_target l
  refine ⟨c, ?_, hspace⟩
  unfold clause
  split
  · exact List.mem_append_right _ (List.mem_cons_of_mem _ hc)
  · exact hc

theorem clause_alias {name : List Char} (h : u.alias? = some name) :
    u.clause l = name ++ l.afterAlias ++ '=' :: l.target := by
  rw [clause, h]

theorem clause_target (h : u.alias? = none) : u.clause l = l.target := by
  rw [clause, h]

theorem equals_not_mem_target (h : u.alias? = none) : '=' ∉ l.target := by
  intro hmem
  have hcompact : '=' ∈ u.path := by
    rw [← compact_target l]
    exact List.mem_filter.mpr ⟨hmem, by decide⟩
  obtain ⟨w, hw, heq⟩ := List.mem_flatten.mp hcompact
  exact (u.target_plain h).1 w hw heq

theorem equals_not_mem_blank {space : List Char} (hspace : IsBlank space) : '=' ∉ space :=
  fun hmem => absurd (hspace '=' hmem) (by decide)

/-! ### Taking the keywords off -/

theorem dropSemicolon_append (s : List Char) : dropSemicolon (s ++ [';']) = s := by
  rw [dropSemicolon, Seq.stripEnd?, List.reverse_append, Seq.stripStart?_append]
  simp

theorem dropGlobal_text :
    dropGlobal (u.text l) = "using".toList ++ (l.afterUsing.chars ++ (u.body l ++ [';'])) := by
  unfold text keywords
  split
  · rw [List.append_assoc, List.append_assoc, dropGlobal, Seq.stripStart?_append]
    simp only
    rw [List.append_assoc, trimStart_append l.afterGlobal.isBlank, List.append_assoc]
    exact trimStart_token_append (isToken_of_all (by decide) (by decide)) _
  · rw [List.append_assoc, List.append_assoc]
    rfl

theorem trim_text : trim (u.text l) = u.text l := by
  have hkeywords : trimStart (u.keywords l ++ u.body l) = u.keywords l ++ u.body l := by
    unfold keywords
    split
    · rw [List.append_assoc]
      exact trimStart_token_append (isToken_of_all (by decide) (by decide)) _
    · rw [List.append_assoc]
      exact trimStart_token_append (isToken_of_all (by decide) (by decide)) _
  rw [text, trim_append_cons (by decide), hkeywords]
  rfl

theorem ofUsing?_text (line : Nat) :
    ofUsing? (u.text l) line = ofUsingBody? (trim (u.body l)) line := by
  rw [ofUsing?, trim_text, dropGlobal_text, Seq.stripStart?_append]
  simp only
  rw [trim_append l.afterUsing.isBlank, trim_append_cons (by decide)]
  have hend : trimEnd [] = [] := rfl
  rw [hend, dropSemicolon_append, trim_trimStart]

/-! ### Reading what is left -/

theorem trim_clause_alias {name : List Char} (h : u.alias? = some name) :
    trim (u.clause l) = name ++ l.afterAlias ++ '=' :: trimEnd l.target := by
  rw [clause_alias l h, trim_append_cons (by decide),
    trimStart_token_append (u.alias_token name h).1]

/-- Whatever the layout, the clause alone says what is imported. -/
theorem ofClause?_clause (line : Nat) :
    ofClause? u.isStatic (trim (u.clause l)) line = some (u.meaning line) := by
  cases halias : u.alias? with
  | some name =>
      obtain ⟨htoken, heq, -⟩ := u.alias_token name halias
      have hname : '=' ∉ name ++ l.afterAlias := fun hmem =>
        (List.mem_append.mp hmem).elim heq (equals_not_mem_blank l.isBlank_afterAlias)
      have htrim : trim (name ++ l.afterAlias) = name :=
        (trim_token_append [] htoken l.isBlank_afterAlias).trans (trimStart_token htoken)
      have hpath : compact (trimEnd l.target) = u.path := by
        rw [compact_trimEnd, compact_target]
      rw [trim_clause_alias l halias, ofClause?_alias hname (hpath ▸ path_ne_nil l), hpath, htrim,
        meaning, halias]
  | none =>
      have hpath : compact (trim l.target) = u.path := by
        rw [trim, compact_trimEnd, compact_trimStart, compact_target]
      have heq : '=' ∉ trim l.target := fun hmem =>
        equals_not_mem_target l halias
          ((List.dropWhile_suffix _).subset ((prefix_of_trimEnd _).subset hmem))
      rw [clause_target l halias, ofClause?_target heq (hpath ▸ path_ne_nil l), hpath, meaning,
        halias]

theorem body_static (h : u.isStatic = true) :
    u.body l = staticWord ++ l.afterStatic.chars ++ u.clause l := by
  rw [body, if_pos h]

theorem trim_body_static (h : u.isStatic = true) :
    trim (u.body l) = staticWord ++ l.afterStatic.chars ++ trimEnd (u.clause l) := by
  rw [body_static l h, trim, List.append_assoc, trimStart_token_append isToken_staticWord,
    ← List.append_assoc, trimEnd_append _ (exists_clause l)]

/-- Without the keyword there is nothing that could be taken for it. -/
theorem strip_clause_eq_none (l : u.Layout) :
    Seq.stripStart? "static ".toList (trim (u.clause l)) = none := by
  by_contra hstrip
  obtain ⟨rest, hrest⟩ := Option.ne_none_iff_exists'.mp hstrip
  cases halias : u.alias? with
  | none =>
      have hhead := head?_words_of_strip hrest
      rw [clause_target l halias, l.words_target] at hhead
      exact (u.target_plain halias).2 hhead
  | some name =>
      obtain ⟨htoken, heq, hstatic⟩ := u.alias_token name halias
      -- Both texts are cut at the first white space or equals sign.
      let inWord : Char → Bool := fun c => !(Text.isSpace c || c == '=')
      have hword : ∀ c ∈ staticWord, inWord c = true :=
        List.all_eq_true.mp (by decide)
      have hname : ∀ c ∈ name, inWord c = true := fun c hc => by
        have hne : c ≠ '=' := fun h => heq (h ▸ hc)
        simp [inWord, htoken.isSpace c hc, hne]
      have hstop : ∀ c ∈ (l.afterAlias ++ '=' :: trimEnd l.target).head?, inWord c = false := by
        intro c hc
        cases hblank : l.afterAlias with
        | nil =>
            rw [hblank] at hc
            obtain rfl : '=' = c := by simpa using hc
            rfl
        | cons b space =>
            rw [hblank] at hc
            obtain rfl : b = c := by simpa using hc
            simp [inWord, l.isBlank_afterAlias b (by rw [hblank]; exact List.mem_cons_self)]
      have hlist : staticWord ++ ' ' :: rest =
          name ++ (l.afterAlias ++ '=' :: trimEnd l.target) := by
        rw [← List.append_assoc, ← trim_clause_alias l halias, Seq.stripStart?_eq_some.mp hrest]
        rfl
      have hcut := Vb.span_inj hword hname (v := ' ' :: rest) (by simp [inWord]; decide) hstop hlist
      exact hstatic hcut.1.symm

theorem ofUsing?_of_blank (h : u.isStatic = true → l.afterStatic.chars.head? = some ' ')
    (line : Nat) : ofUsing? (u.text l) line = some (u.meaning line) := by
  rw [ofUsing?_text, ← ofClause?_clause l]
  cases hstatic : u.isStatic with
  | false =>
      rw [body, hstatic, if_neg Bool.false_ne_true,
        ofUsingBody?_of_not_static (strip_clause_eq_none l)]
  | true =>
      obtain ⟨more, hmore⟩ : ∃ more, l.afterStatic.chars = ' ' :: more :=
        List.head?_eq_some_iff.mp (h hstatic)
      have hblank : IsBlank more := fun c hc =>
        l.afterStatic.isBlank c (hmore ▸ List.mem_cons_of_mem _ hc)
      have hbody : trim (u.body l) = "static ".toList ++ (more ++ trimEnd (u.clause l)) := by
        rw [trim_body_static l hstatic, hmore, List.append_assoc]
        rfl
      rw [hbody, ofUsingBody?_static, trim_append hblank, trim_trimEnd (exists_clause l)]

/-- What the clause is read as when the keyword is left in front of it. -/
theorem ofClause?_glued (line : Nat) :
    ofClause? false (staticWord ++ l.afterStatic.chars ++ trimEnd (u.clause l)) line =
      some (u.glued l line) := by
  have hgap := l.afterStatic.isBlank
  have hfront : '=' ∉ staticWord ++ l.afterStatic.chars := fun hmem =>
    (List.mem_append.mp hmem).elim (by decide) (equals_not_mem_blank hgap)
  cases halias : u.alias? with
  | some name =>
      obtain ⟨htoken, heq, -⟩ := u.alias_token name halias
      have hname : '=' ∉ staticWord ++ l.afterStatic.chars ++ name ++ l.afterAlias := by
        simp only [List.mem_append, not_or]
        exact ⟨⟨List.mem_append.not.mp hfront |> not_or.mp, heq⟩,
          equals_not_mem_blank l.isBlank_afterAlias⟩
      have htrim : trim (staticWord ++ l.afterStatic.chars ++ name ++ l.afterAlias) =
          staticWord ++ l.afterStatic.chars ++ name := by
        rw [trim_token_append _ htoken l.isBlank_afterAlias, List.append_assoc,
          trimStart_token_append isToken_staticWord]
      have hpath : compact (trimEnd l.target) = u.path := by
        rw [compact_trimEnd, compact_target]
      have hclause : trimEnd (u.clause l) = name ++ l.afterAlias ++ '=' :: trimEnd l.target := by
        rw [clause_alias l halias, trimEnd_append_cons (by decide)]
      rw [hclause, ← List.append_assoc, ← List.append_assoc,
        ofClause?_alias hname (hpath ▸ path_ne_nil l), hpath, htrim, glued, halias]
  | none =>
      have hpath : compact (staticWord ++ l.afterStatic.chars ++ trimEnd l.target) =
          staticWord ++ u.path := by
        rw [compact_append, compact_append, compact_token isToken_staticWord, compact_blank hgap,
          List.append_nil, compact_trimEnd, compact_target]
      have heq : '=' ∉ staticWord ++ l.afterStatic.chars ++ trimEnd l.target := fun hmem =>
        (List.mem_append.mp hmem).elim hfront fun hmem =>
          equals_not_mem_target l halias ((prefix_of_trimEnd _).subset hmem)
      have hne : staticWord ++ u.path ≠ [] := List.append_ne_nil_of_left_ne_nil (by decide) _
      rw [clause_target l halias, ofClause?_target heq (hpath ▸ hne), hpath, glued, halias]
      rfl

theorem ofUsing?_of_not_blank (hstatic : u.isStatic = true)
    (h : l.afterStatic.chars.head? ≠ some ' ') (line : Nat) :
    ofUsing? (u.text l) line = some (u.glued l line) := by
  have hstrip : Seq.stripStart? "static ".toList (trim (u.body l)) = none := by
    by_contra hsome
    obtain ⟨rest, hrest⟩ := Option.ne_none_iff_exists'.mp hsome
    have hlist := Seq.stripStart?_eq_some.mp hrest
    obtain ⟨c, more, hmore⟩ := List.exists_cons_of_ne_nil l.afterStatic.ne_nil
    rw [trim_body_static l hstatic, hmore, List.append_assoc] at hlist
    have htail : c :: more ++ trimEnd (u.clause l) = ' ' :: rest :=
      List.append_cancel_left (show staticWord ++ _ = staticWord ++ _ from hlist)
    exact h (by rw [hmore, (List.cons.inj htail).1]; rfl)
  rw [ofUsing?_text, ofUsingBody?_of_not_static hstrip, trim_body_static l hstatic,
    ofClause?_glued]

theorem glued_ne_meaning (hstatic : u.isStatic = true) (line : Nat) :
    u.glued l line ≠ u.meaning line := by
  intro heq
  cases halias : u.alias? with
  | some name =>
      have hnames := congrArg Import.names heq
      simp only [glued, meaning, halias, List.cons.injEq, Name.mk.injEq, String.ofList_inj]
        at hnames
      have hlength := congrArg List.length hnames.1.1
      have hword : staticWord.length = 6 := by decide
      simp only [List.length_append] at hlength
      omega
  | none =>
      have hkind := congrArg Import.kind heq
      simp [glued, meaning, halias, hstatic] at hkind

/-- However a directive is laid out, its words alone say what is imported, with one exception: after
`static` the first character must be a blank. Where it is any other white space, the keyword is
read as a part of the name that follows, as the beginning of the path or, in front of an equals
sign, of the alias. -/
theorem ofUsing?_text_iff (u : Using) (l : u.Layout) (line : Nat) :
    (ofUsing? (u.text l) line = some (u.meaning line) ↔
      (u.isStatic = true → l.afterStatic.chars.head? = some ' ')) ∧
    (u.isStatic = true → l.afterStatic.chars.head? ≠ some ' ' →
      ofUsing? (u.text l) line = some (u.glued l line)) := by
  refine ⟨⟨fun hread hstatic => ?_, fun h => ofUsing?_of_blank l h line⟩,
    fun hstatic h => ofUsing?_of_not_blank l hstatic h line⟩
  by_contra h
  rw [ofUsing?_of_not_blank l hstatic h, Option.some.injEq] at hread
  exact glued_ne_meaning l hstatic line hread

end Using

namespace Sample

def staticMath : Using where
  isGlobal := false
  isStatic := true
  alias? := none
  target := ["System.Math".toList]
  alias_token := by simp
  target_ne_nil := by simp
  target_plain := fun _ => by decide

def gap (c : Char) (h : Text.isSpace c = true) : Gap where
  chars := [c]
  ne_nil := by simp
  isBlank := by simpa [IsBlank] using h

/-- The directive with one character behind the keyword. -/
def staticMathLayout (c : Char) (h : Text.isSpace c = true) : staticMath.Layout where
  afterGlobal := gap ' ' rfl
  afterUsing := gap ' ' rfl
  afterStatic := gap c h
  afterAlias := []
  target := "System.Math".toList
  isBlank_afterAlias := by simp [IsBlank]
  words_target := by decide

end Sample

/-- A tab in the place of the blank makes the static members a namespace of another name. -/
theorem static_tab_read_as_namespace :
    Sample.staticMath.text (Sample.staticMathLayout ' ' rfl) =
      "using static System.Math;".toList ∧
    Sample.staticMath.text (Sample.staticMathLayout '\t' rfl) =
      "using static\tSystem.Math;".toList ∧
    ofUsing? "using static System.Math;".toList 1 =
      some { kind := .staticSpace, path := "System.Math", glob := false, line := 1 } ∧
    ofUsing? "using static\tSystem.Math;".toList 1 =
      some { kind := .space, path := "staticSystem.Math", glob := true, line := 1 } := by
  decide

end Import
end CodeGraph
