import CodeGraph.Proofs.Sql.Fragments
import CodeGraph.Proofs.Sql.Masking
import CodeGraph.Proofs.Text.Lines
import CodeGraph.Proofs.Text.Preference

/-!
Line numbers of definitions against the line feeds of the script. Masking and decoding keep every
line feed and the keyword with which a definition begins, so what a line number counts besides the
line feeds in front of the keyword are the other line breaks that are left in the masked text.
-/

namespace CodeGraph.Sql

open Mask

/-! ### What masking keeps -/

/-- What masking makes of a byte: the byte itself, or a space unless it breaks the line. -/
def MaskedAs (b m : UInt8) : Prop :=
  m = b ∨ m = space ∧ isBreak b = false

theorem maskedAs_blankByte (b : UInt8) : MaskedAs b (blankByte b) := by
  cases h : isBreak b with
  | true => exact .inl (blankByte_of_isBreak h)
  | false => exact .inr ⟨blankByte_of_not_isBreak h, h⟩

theorem maskedAs_outOfCode {l : Lexis} {b : UInt8} {next : Option UInt8}
    (h : (l.move b next).inMark = false) : MaskedAs b (Scan.outOfCode ⟨l, false⟩ b next) := by
  have hmove : Scan.move ⟨l, false⟩ b next = l.move b next := rfl
  cases l with
  | code =>
      refine .inl ?_
      simp [Scan.outOfCode, Scan.outOfComment, hmove, h]
  | string =>
      simp only [Scan.outOfCode, if_true, hmove]
      split
      · exact .inl rfl
      · exact maskedAs_blankByte b
  | lineComment | blockComment => exact maskedAs_blankByte b

theorem forall₂_maskedAs_rewrite (l : Lexis) (bytes : List UInt8) :
    List.Forall₂ MaskedAs bytes (Scan.rewrite Scan.outOfCode ⟨l, false⟩ bytes) := by
  induction l, bytes using Lexis.scan_induction with
  | nil l => exact .nil
  | byte l b bytes h ih =>
      rw [Scan.rewrite_byte _ h]
      exact .cons (maskedAs_outOfCode h) ih
  | mark l b c bytes h ih =>
      -- No mark has a line break in it.
      have hmark : MaskedAs b (Scan.outOfCode ⟨l, false⟩ b (some c)) ∧
          MaskedAs c (Scan.outOfCode (l.move b (some c)) c bytes.head?) := by
        obtain ⟨rfl, rfl, hc⟩ | ⟨rfl, rfl, hc⟩ | ⟨rfl, rfl, hc⟩ | ⟨rfl, rfl, hc⟩ :=
          Lexis.mark_cases h <;> cases hc <;> exact ⟨.inr ⟨rfl, rfl⟩, .inr ⟨rfl, rfl⟩⟩
      rw [Scan.rewrite_mark _ h]
      exact .cons hmark.1 (.cons hmark.2 ih)

theorem forall₂_maskedAs (bytes : List UInt8) : List.Forall₂ MaskedAs bytes (masked bytes) := by
  rw [masked_eq_rewrite]
  exact forall₂_maskedAs_rewrite .code bytes

theorem count_lf_of_maskedAs {bytes written : List UInt8}
    (h : List.Forall₂ MaskedAs bytes written) : written.count lf = bytes.count lf := by
  induction h with
  | nil => rfl
  | @cons b m bytes written hb _ ih =>
      rw [List.count_cons, List.count_cons, ih]
      rcases hb with rfl | ⟨rfl, hbreak⟩
      · rfl
      · have hne : b ≠ lf := by
          rintro rfl
          cases hbreak
        rw [beq_false_of_ne hne]
        rfl

/-- What is written without spaces is what was there. -/
theorem prefix_of_maskedAs {bytes written w : List UInt8} (h : List.Forall₂ MaskedAs bytes written)
    (hw : w <+: written) (hspace : space ∉ w) : w <+: bytes := by
  induction w generalizing bytes written with
  | nil => exact List.nil_prefix
  | cons m w ih =>
      obtain ⟨hm, hspace⟩ := not_or.mp (List.mem_cons.not.mp hspace)
      cases h with
      | nil => cases List.prefix_nil.mp hw
      | cons hb hrest =>
          obtain ⟨rfl, htail⟩ := List.cons_prefix_cons.mp hw
          obtain rfl := hb.resolve_right fun hb => hm hb.1.symm
          exact List.cons_prefix_cons.mpr ⟨rfl, ih hrest htail hspace⟩

/-! ### Line breaks -/

/-- The number of line breaks that are neither line feeds nor followed by one as a part of it. -/
def strayBreaks : List Char → Nat
  | [] => 0
  | c :: s =>
      (if isLineBreak c && !(c == '\n' || c == '\r' && s.head? == some '\n') then 1 else 0)
        + strayBreaks s

def StrayBreak (text : List Char) : Prop :=
  ∃ before c after, text = before ++ c :: after ∧ isLineBreak c = true ∧ c ≠ '\n' ∧
    ¬(c = '\r' ∧ after.head? = some '\n')

theorem lineBreaks_eq (s : List Char) : lineBreaks s = s.count '\n' + strayBreaks s := by
  induction s with
  | nil => rfl
  | cons c s ih =>
      have hown : (if isLineBreak c && !(c == '\r' && s.head? == some '\n') then 1 else 0) =
          (if c == '\n' then 1 else 0) +
            (if isLineBreak c && !(c == '\n' || c == '\r' && s.head? == some '\n') then 1
              else 0) := by
        by_cases hc : c = '\n'
        · subst hc
          rfl
        · rw [beq_false_of_ne hc, Bool.false_or]
          exact (Nat.zero_add _).symm
      rw [lineBreaks, strayBreaks, ih, List.count_cons, hown]
      omega

theorem strayBreaks_eq_zero_iff {s : List Char} : strayBreaks s = 0 ↔ ¬StrayBreak s := by
  induction s with
  | nil => simp [strayBreaks, StrayBreak]
  | cons c s ih =>
      have hcons : StrayBreak (c :: s) ↔ (isLineBreak c = true ∧ c ≠ '\n' ∧
          ¬(c = '\r' ∧ s.head? = some '\n')) ∨ StrayBreak s := by
        constructor
        · rintro ⟨before, d, after, heq, hd⟩
          cases before with
          | nil =>
              cases heq
              exact .inl hd
          | cons b before => exact .inr ⟨before, d, after, (List.cons.inj heq).2, hd⟩
        · rintro (hc | ⟨before, d, after, rfl, hd⟩)
          · exact ⟨[], c, s, rfl, hc⟩
          · exact ⟨c :: before, d, after, rfl, hd⟩
      rw [strayBreaks, hcons, not_or, ← ih]
      simp

/-! ### Where definitions begin -/

def openingWords : List (List Char) :=
  ["create".toList, "alter".toList]

open Pattern in
/-- The pattern of definitions reads one of the words first, in any letter case. -/
theorem exists_read_of_mem_runs {a b : Pattern.Place} (h : b ∈ definitionPattern.runs a) :
    ∃ read rest, a.rest = symbolsOf read ++ rest ∧ Chars.lower read ∈ openingWords := by
  obtain ⟨behind, hbehind, hword⟩ := mem_runs_seqs_cons.mp h
  obtain rfl : behind = a := by
    unfold runs at hbehind
    split at hbehind
    · exact List.mem_singleton.mp hbehind
    · cases hbehind
  obtain ⟨mid, hmid, -⟩ := mem_runs_seqs_cons.mp hword
  have hread : ∃ word ∈ ["CREATE", "ALTER"], ∃ c, c ∈ (keyword word).runs behind := by
    rcases List.mem_append.mp hmid with hcreate | halter
    · obtain ⟨c, hc, -⟩ := List.mem_flatMap.mp hcreate
      exact ⟨"CREATE", by simp, c, hc⟩
    · exact ⟨"ALTER", by simp, mid, halter⟩
  obtain ⟨word, hword, c, hc⟩ := hread
  obtain ⟨read, rest, hrest, hread, -⟩ := mem_runs_keyword.mp hc
  have hletters : ∀ word ∈ ["CREATE", "ALTER"], Chars.lower word.toList ∈ openingWords ∧
      word.toList.all (fun c => Text.lowerChar c != 's' && Text.lowerChar c != 'k') = true := by
    decide
  obtain ⟨hlower, hfold⟩ := hletters word hword
  refine ⟨read, rest, hrest, ?_⟩
  rw [← lower_eq_of_sameLetter (by simpa using hfold) hread]
  exact hlower

theorem exists_keyword {text : List Char} {d : Definition} (h : d ∈ definitions text) :
    ∃ read rest, text.drop d.start = read ++ rest ∧ Chars.lower read ∈ openingWords := by
  obtain ⟨d', hd', stop, rfl⟩ := mem_closeEach h
  obtain ⟨m, hm, hd⟩ := List.mem_filterMap.mp hd'
  obtain ⟨before, rest, last, hsplit, -, hhere⟩ := Pattern.exists_here?_of_mem_allFrom hm
  obtain ⟨hstart, -⟩ := ofMatch?_eq_some hd (bounds_of_mem_all hm).2
  obtain ⟨reached, hreached, hoffset, -⟩ := Pattern.here?_eq_some hhere
  obtain ⟨read, rest', hrest, hread⟩ := exists_read_of_mem_runs hreached
  have hplace : d'.start = before.length := by omega
  have hsymbols : symbolsOf (text.drop d'.start) = symbolsOf read ++ rest' := by
    rw [symbolsOf, List.map_drop, ← symbolsOf, hsplit, hplace, List.drop_left]
    exact hrest
  obtain ⟨u, v, hsplit', hu, -⟩ := List.map_eq_append_iff.mp hsymbols
  obtain rfl : u = read := List.map_injective_iff.mpr (fun _ _ => Symbol.char.inj) hu
  exact ⟨u, v, hsplit', hread⟩

/-- The number of bytes in front of a definition. -/
def keywordOffset (bytes : List UInt8) (d : Definition) : Nat :=
  (((Utf8.decode (masked bytes)).take d.start).map Symbol.width).sum

def bytesBefore (bytes : List UInt8) (d : Definition) : List UInt8 :=
  bytes.take (keywordOffset bytes d)

theorem ascii_of_isAsciiLetter {c : Char} (h : Text.isAsciiLetter c = true) :
    0x20 < c.toNat ∧ c.toNat < 0x80 := by
  simp only [Text.isAsciiLetter, Bool.or_eq_true, Bool.and_eq_true, decide_eq_true_eq, Char.le_def,
    UInt32.le_iff_toNat_le] at h
  have hcodes : 'a'.val.toNat = 97 ∧ 'z'.val.toNat = 122 ∧ 'A'.val.toNat = 65 ∧
      'Z'.val.toNat = 90 := by decide
  rw [Char.toNat]
  omega

/-- The word stands in the script itself, and the bytes in front of it are those whose masked text
is in front of the definition. -/
theorem exists_bytes_of_mem_definitions {bytes : List UInt8} {d : Definition}
    (h : d ∈ definitions (maskedText bytes)) :
    (∃ word rest, bytes = bytesBefore bytes d ++ word ++ rest ∧
      Chars.lower (Utf8.lossy word) ∈ openingWords) ∧
    Utf8.lossy ((masked bytes).take (keywordOffset bytes d)) =
      (maskedText bytes).take d.start := by
  obtain ⟨read, rest, hsplit, hread⟩ := exists_keyword h
  have hletters : ∀ c ∈ read, 0x20 < c.toNat ∧ c.toNat < 0x80 := by
    have hopening : ∀ word ∈ openingWords, word.all Text.isAsciiLetter = true := by decide
    intro c hc
    refine ascii_of_isAsciiLetter (Pattern.isAsciiLetter_of_lowerChar ?_)
    exact List.all_eq_true.mp (hopening _ hread) _ (List.mem_map_of_mem hc)
  obtain ⟨c, read', rfl⟩ : ∃ c read', read = c :: read' := by
    refine List.exists_cons_of_ne_nil ?_
    rintro rfl
    exact absurd hread (by decide)
  -- The first letter of the word is an ASCII character, so that the text can be cut there.
  obtain ⟨s, after, hafter, hs, -⟩ : ∃ s after,
      (Utf8.decode (masked bytes)).drop d.start = s :: after ∧ s.toChar = c ∧ _ :=
    List.map_eq_cons_iff.mp (by rw [List.map_drop]; exact hsplit)
  obtain rfl : s = .char c := by
    cases s with
    | char d => exact congrArg Symbol.char hs
    | broken w =>
        have hlt := (hletters c List.mem_cons_self).2
        have hbroken : (Symbol.broken w).toChar.toNat = 0xfffd := rfl
        rw [hs] at hbroken
        omega
  have hdecode : Utf8.decode (masked bytes) =
      (Utf8.decode (masked bytes)).take d.start ++ .char c :: after := by
    rw [← hafter, List.take_append_drop]
  obtain ⟨hbefore, hbehind⟩ :=
    Utf8.decode_cut_of_decode_eq hdecode (hletters c List.mem_cons_self).2
  have htext : Utf8.lossy ((masked bytes).drop (keywordOffset bytes d)) = c :: read' ++ rest := by
    rw [Utf8.lossy, keywordOffset, hbehind, ← hafter, List.map_drop]
    exact hsplit
  obtain ⟨word, tail, hword, hlossy, hown⟩ :=
    Utf8.exists_bytes_of_lossy_eq (fun c hc => (hletters c hc).2) htext
  have hkept : word <+: bytes.drop (keywordOffset bytes d) := by
    refine prefix_of_maskedAs (List.forall₂_drop _ (forall₂_maskedAs bytes)) ⟨tail, hword.symm⟩ ?_
    intro hspace
    obtain ⟨c, hc, heq⟩ := hown _ hspace
    have hlt := (hletters c hc).1
    rw [← heq] at hlt
    exact absurd hlt (by decide)
  obtain ⟨after', hafter'⟩ := hkept
  refine ⟨⟨word, after', ?_, hlossy ▸ hread⟩, ?_⟩
  · rw [bytesBefore, List.append_assoc, hafter', List.take_append_drop]
  · rw [Utf8.lossy, keywordOffset, hbefore, List.map_take]
    rfl

/-! ### Line numbers -/

/-- A line number counts the line feeds of the script in front of the keyword, and the stray breaks
of the masked text there. -/
theorem lineAt_eq {bytes : List UInt8} {d : Definition} (h : d ∈ definitions (maskedText bytes)) :
    lineAt (maskedText bytes) d.start =
      1 + (bytesBefore bytes d).count lf + strayBreaks ((maskedText bytes).take d.start) := by
  have hcount : ((maskedText bytes).take d.start).count '\n' = (bytesBefore bytes d).count lf := by
    rw [← (exists_bytes_of_mem_definitions h).2, Utf8.count_newline_lossy, bytesBefore]
    exact count_lf_of_maskedAs (List.forall₂_take _ (forall₂_maskedAs bytes))
  rw [lineAt, lineBreaks_eq, hcount]
  omega

/-- The line of a node is one more than the number of line feeds in front of its definition. -/
def CountsLineFeeds (file : SourceFile) (n : Node) : Prop :=
  ∀ d, leading? file.path (maskedText file.bytes) n.id = some d →
    n.get? Key.line = some (.int (1 + (bytesBefore file.bytes d).count lf : Nat))

theorem countsLineFeeds_iff {file : SourceFile} {d : Definition} {n : Node}
    (hd : leading? file.path (maskedText file.bytes) n.id = some d)
    (hline : n.get? Key.line = some (.int (1 + (bytesBefore file.bytes d).count lf +
      strayBreaks ((maskedText file.bytes).take d.start) : Nat))) :
    CountsLineFeeds file n ↔ ¬StrayBreak ((maskedText file.bytes).take d.start) := by
  rw [← strayBreaks_eq_zero_iff]
  constructor
  · intro hcounts
    have hsame := hcounts d hd
    rw [hline] at hsame
    have heq := Int.ofNat.inj (Json.int.inj (Option.some.inj hsame))
    omega
  · intro hzero d' hd'
    obtain rfl : d = d' := Option.some.inj (hd.symm.trans hd')
    rw [hline, hzero]
    rfl

/-- Each definition begins with its keyword in the script itself, behind the bytes whose masked text
is in front of it. The line of a node is one more than the number of line feeds in front of the
keyword of its definition and of the stray line breaks that the masked text has there: carriage
returns alone, vertical tabs, form feeds, next-line characters and line or paragraph separators. So
all line numbers count line feeds exactly if there is no stray break in front of any definition that
has its node. -/
theorem lines_count_line_feeds_iff_no_stray_break {file : SourceFile} {f : Fragment}
    (h : analyze file = .ok f) :
    (∀ d ∈ definitions (maskedText file.bytes),
      (∃ word rest, file.bytes = bytesBefore file.bytes d ++ word ++ rest ∧
        Chars.lower (Utf8.lossy word) ∈ openingWords) ∧
      Utf8.lossy ((masked file.bytes).take (keywordOffset file.bytes d)) =
        (maskedText file.bytes).take d.start) ∧
    (∀ n ∈ f.nodes, ∃ d, leading? file.path (maskedText file.bytes) n.id = some d ∧
      n.get? Key.line = some (.int (1 + (bytesBefore file.bytes d).count lf +
        strayBreaks ((maskedText file.bytes).take d.start) : Nat))) ∧
    ((∀ n ∈ f.nodes, CountsLineFeeds file n) ↔
      ∀ id d, leading? file.path (maskedText file.bytes) id = some d →
        ¬StrayBreak ((maskedText file.bytes).take d.start)) := by
  rw [analyze_eq_ok_iff] at h
  have hlines : ∀ n ∈ f.nodes, ∃ d, leading? file.path (maskedText file.bytes) n.id = some d ∧
      n.get? Key.line = some (.int (1 + (bytesBefore file.bytes d).count lf +
        strayBreaks ((maskedText file.bytes).take d.start) : Nat)) := by
    intro n hn
    obtain ⟨d, hd, hnode⟩ := exists_leading?_of_mem_nodes h hn
    obtain ⟨-, hline, -⟩ := lines_of_node? (mem_of_leading? hd) hnode
    rw [lineAt_eq (mem_of_leading? hd)] at hline
    exact ⟨d, hd, hline⟩
  refine ⟨fun d hd => exists_bytes_of_mem_definitions hd, hlines, ?_, ?_⟩
  · intro hcounts id d hd
    obtain ⟨n, hn, rfl, -⟩ := exists_node_of_leading? h hd
    obtain ⟨d', hd', hline⟩ := hlines n hn
    obtain rfl : d = d' := Option.some.inj (hd.symm.trans hd')
    exact (countsLineFeeds_iff hd hline).mp (hcounts n hn)
  · intro hstray n hn
    obtain ⟨d, hd, hline⟩ := hlines n hn
    exact (countsLineFeeds_iff hd hline).mpr (hstray n.id d hd)

/-- A script with both kinds of line ends and a form feed in a comment. -/
def Sample.commentedTable : SourceFile :=
  ⟨"t.sql", Utf8.encode "-- a\x0c\r\nSELECT 1\nCREATE TABLE t (a int)\r\n".toList⟩

/-- The form feed is masked, so the table is on the third line. -/
theorem commented_form_feed_not_counted :
    ∃ f, analyze Sample.commentedTable = .ok f ∧ f.ids = ["t.sql:t"] ∧
      (∀ d ∈ definitions (maskedText Sample.commentedTable.bytes),
        (bytesBefore Sample.commentedTable.bytes d).count lf = 2) ∧
      ∀ n ∈ f.nodes, CountsLineFeeds Sample.commentedTable n := by
  have hids : (fragment? "t.sql" (maskedText Sample.commentedTable.bytes)).map Fragment.ids =
      some ["t.sql:t"] := by decide +kernel
  have hplain : ∀ d ∈ definitions (maskedText Sample.commentedTable.bytes),
      (bytesBefore Sample.commentedTable.bytes d).count lf = 2 ∧
        strayBreaks ((maskedText Sample.commentedTable.bytes).take d.start) = 0 := by
    decide +kernel
  obtain ⟨f, hf, hids⟩ := Option.map_eq_some_iff.mp hids
  have hok : analyze Sample.commentedTable = .ok f := analyze_eq_ok_iff.mpr hf
  refine ⟨f, hok, hids, fun d hd => (hplain d hd).1,
    (lines_count_line_feeds_iff_no_stray_break hok).2.2.mpr fun id d hd => ?_⟩
  exact strayBreaks_eq_zero_iff.mp (hplain d (mem_of_leading? hd)).2

/-- A script with a form feed in front of a table. -/
def Sample.pagedTable : SourceFile :=
  ⟨"t.sql", Utf8.encode "SELECT 1\n\x0cCREATE TABLE t (a int)\n".toList⟩

/-- The table gets the third line, though a single line feed is in front of it. -/
theorem form_feed_counted :
    ∃ f, analyze Sample.pagedTable = .ok f ∧
      f.nodes.map (fun n => (n.id, n.line?)) = [("t.sql:t", some 3)] ∧
      (∀ d ∈ definitions (maskedText Sample.pagedTable.bytes),
        bytesBefore Sample.pagedTable.bytes d = Utf8.encode "SELECT 1\n\x0c".toList) ∧
      ¬∀ n ∈ f.nodes, CountsLineFeeds Sample.pagedTable n := by
  have hnodes : (fragment? "t.sql" (maskedText Sample.pagedTable.bytes)).map
      (fun f => f.nodes.map fun n => (n.id, n.line?)) = some [("t.sql:t", some 3)] := by
    decide +kernel
  have hbefore : ∀ d ∈ definitions (maskedText Sample.pagedTable.bytes),
      bytesBefore Sample.pagedTable.bytes d = Utf8.encode "SELECT 1\n\x0c".toList := by
    decide +kernel
  obtain ⟨f, hf, hnodes⟩ := Option.map_eq_some_iff.mp hnodes
  have hok : analyze Sample.pagedTable = .ok f := analyze_eq_ok_iff.mpr hf
  refine ⟨f, hok, hnodes, hbefore, fun hall => ?_⟩
  obtain ⟨n, hn, hline⟩ := List.mem_map.mp (hnodes ▸ List.mem_singleton_self _)
  obtain ⟨d, hd, -⟩ := exists_leading?_of_mem_nodes (analyze_eq_ok_iff.mp hok) hn
  have htwo := hall n hn d hd
  rw [hbefore d (mem_of_leading? hd)] at htwo
  have hthree : n.line? = some 3 := (Prod.mk.inj hline).2
  rw [Node.line?, htwo] at hthree
  exact absurd hthree (by decide)

end CodeGraph.Sql
