import CodeGraph.Cpp.Tables
import CodeGraph.Proofs.Linking.Scopes
import CodeGraph.Proofs.Text.Seq

/-!
Scoped names. A scope is a sequence of segments, each of which may carry template arguments. The
name that stands for a scope is found by cutting the text at the first template argument list and
taking the last segment of what is left. So it is the name of the first segment that carries
arguments, and that of the last segment only if no segment before it carries any.
-/

namespace CodeGraph

/-! ### The last occurrence of a separator -/

namespace Seq

variable {α : Type} [DecidableEq α] {needle s t : List α}

theorem afterLast?_eq_map_cutLastOn? (needle s : List α) :
    afterLast? needle s = (cutLastOn? needle s).map (·.2) := by
  induction s with
  | nil => simp [afterLast?, cutLastOn?, Function.comp_def]
  | cons a s ih =>
      rw [afterLast?, cutLastOn?, ih]
      cases cutLastOn? needle s with
      | none => simp [Function.comp_def]
      | some parts => rfl

theorem stripStart?_eq_none (h : ¬ needle <+: s) : stripStart? needle s = none :=
  Option.not_isSome_iff_eq_none.mp (mt startsWith_iff.mp h)

theorem cutLastOn?_eq_none (h : ¬ needle <:+: s) : cutLastOn? needle s = none := by
  have hlead := stripStart?_eq_none fun hin => h hin.isInfix
  induction s with
  | nil => rw [cutLastOn?, hlead, Option.map_none]
  | cons a s ih =>
      have htail : ¬ needle <:+: s := fun hin => h (List.infix_cons hin)
      rw [cutLastOn?, ih htail (stripStart?_eq_none fun hin => htail hin.isInfix), hlead]
      rfl

/-- A list is cut at a needle behind whose first member no needle begins. -/
theorem cutLastOn?_append {a : α} (h : ¬ a :: needle <:+: needle ++ t) (s : List α) :
    cutLastOn? (a :: needle) (s ++ (a :: needle ++ t)) = some (s, t) := by
  induction s with
  | nil =>
      rw [List.nil_append, List.cons_append, cutLastOn?, cutLastOn?_eq_none h, ← List.cons_append,
        stripStart?_append]
      rfl
  | cons b s ih => rw [List.cons_append, cutLastOn?, ih]

omit [DecidableEq α] in
theorem not_infix_of_not_mem {a : α} (h : a ∉ t) : ¬ [a, a] <:+: a :: t := by
  rw [List.infix_cons_iff, List.cons_prefix_cons]
  rintro (⟨-, hin⟩ | hin)
  · exact h (hin.subset (List.mem_singleton_self a))
  · exact h (hin.subset List.mem_cons_self)

theorem cutLastOn?_pair {a : α} (h : a ∉ t) (s : List α) :
    cutLastOn? [a, a] (s ++ ([a, a] ++ t)) = some (s, t) :=
  cutLastOn?_append (not_infix_of_not_mem h) s

end Seq

namespace Cpp

/-! ### Segments -/

/-- A segment of a scoped name, with the text of its template arguments. -/
structure Segment where
  name : String
  arguments : Option String := none
  deriving DecidableEq, Repr

namespace Segment

def text (s : Segment) : String :=
  match s.arguments with
  | none => s.name
  | some arguments => s.name ++ "<" ++ arguments ++ ">"

def Plain (s : Segment) : Prop :=
  Ident.IsBare s.name.toList ∧ ':' ∉ s.name.toList

instance (s : Segment) : Decidable s.Plain :=
  inferInstanceAs (Decidable (_ ∧ _))

theorem toList_text_of_arguments {s : Segment} {arguments : String}
    (h : s.arguments = some arguments) :
    s.text.toList = s.name.toList ++ '<' :: (arguments.toList ++ ['>']) := by
  simp [text, h, String.toList_append]

end Segment

def scopeText : List Segment → Segment → String
  | [], last => last.text
  | s :: segments, last => s.text ++ "::" ++ scopeText segments last

/-- The first segment of a scope that carries template arguments, or else the last one. -/
def cutSegment : List Segment → Segment → Segment
  | [], last => last
  | s :: segments, last => if s.arguments.isSome then s else cutSegment segments last

theorem cutSegment_mem (segments : List Segment) (last : Segment) :
    cutSegment segments last ∈ segments ++ [last] := by
  induction segments with
  | nil => exact List.mem_singleton_self last
  | cons s segments ih =>
      rw [cutSegment, List.cons_append]
      split
      · exact List.mem_cons_self
      · exact List.mem_cons_of_mem s ih

/-- The text of the scope up to its first template argument list, which ends with the segment
`name`. -/
structure Lead (scope name lead : List Char) : Prop where
  cut : ∃ rest, scope = lead ++ rest ∧ (rest = [] ∨ ∃ arguments, rest = '<' :: arguments)
  bare : Ident.IsBare lead
  last : lead = name ∨ ∃ before, lead = before ++ ([':', ':'] ++ name)

theorem Lead.of_segment {s : Segment} (hplain : s.Plain) {rest : List Char}
    (hrest : rest = [] ∨ ∃ arguments, rest = '<' :: arguments) :
    Lead (s.name.toList ++ rest) s.name.toList s.name.toList :=
  ⟨⟨rest, rfl, hrest⟩, hplain.1, .inl rfl⟩

theorem Lead.cons {s : Segment} (hplain : s.Plain) {scope name lead : List Char}
    (h : Lead scope name lead) :
    Lead (s.name.toList ++ ([':', ':'] ++ scope)) name (s.name.toList ++ ([':', ':'] ++ lead)) where
  cut := by
    obtain ⟨rest, rfl, hrest⟩ := h.cut
    exact ⟨rest, by simp, hrest⟩
  bare := by
    have hcolons : Ident.IsBare [':', ':'] := by decide
    intro c hc
    rcases List.mem_append.mp hc with hc | hc
    · exact hplain.1 c hc
    · exact (List.mem_append.mp hc).elim (hcolons c) (h.bare c)
  last := by
    rcases h.last with rfl | ⟨before, rfl⟩
    · exact .inr ⟨s.name.toList, rfl⟩
    · exact .inr ⟨s.name.toList ++ ([':', ':'] ++ before), by simp⟩

theorem exists_lead {segments : List Segment} {last : Segment}
    (hplain : ∀ s ∈ segments ++ [last], s.Plain) :
    ∃ lead, Lead (scopeText segments last).toList (cutSegment segments last).name.toList lead := by
  induction segments with
  | nil =>
      have hlast := hplain last (List.mem_singleton_self last)
      refine ⟨last.name.toList, ?_⟩
      cases harguments : last.arguments with
      | none =>
          have htext : last.text.toList = last.name.toList ++ [] := by
            simp [Segment.text, harguments]
          rw [scopeText, htext]
          exact .of_segment hlast (.inl rfl)
      | some arguments =>
          rw [scopeText, Segment.toList_text_of_arguments harguments]
          exact .of_segment hlast (.inr ⟨_, rfl⟩)
  | cons s segments ih =>
      have hs := hplain s List.mem_cons_self
      cases harguments : s.arguments with
      | some arguments =>
          refine ⟨s.name.toList, ?_⟩
          rw [scopeText, cutSegment, harguments, if_pos Option.isSome_some, String.toList_append,
            String.toList_append, Segment.toList_text_of_arguments harguments, List.append_assoc,
            List.append_assoc]
          exact .of_segment hs (.inr ⟨_, rfl⟩)
      | none =>
          obtain ⟨lead, hlead⟩ := ih fun t ht => hplain t (List.mem_cons_of_mem s ht)
          refine ⟨s.name.toList ++ ([':', ':'] ++ lead), ?_⟩
          have htext : s.text = s.name := by rw [Segment.text, harguments]
          rw [scopeText, cutSegment, harguments, if_neg (by simp), htext, String.toList_append,
            String.toList_append, List.append_assoc]
          exact hlead.cons hs

/-! ### Scopes -/

theorem afterLast_of_lead {scope name lead : List Char} (h : Lead scope name lead)
    (hname : ':' ∉ name) : Chars.afterLast [':', ':'] lead = name := by
  rw [Chars.afterLast, Seq.afterLast?_eq_map_cutLastOn?]
  rcases h.last with rfl | ⟨before, rfl⟩
  · have hnone : ¬ [':', ':'] <:+: lead := fun hin => hname (hin.subset List.mem_cons_self)
    rw [Seq.cutLastOn?_eq_none hnone]
    rfl
  · rw [Seq.cutLastOn?_pair hname]
    rfl

/-- A scope stands for the class or namespace that its first segment with template arguments names,
and for that of its last segment only if there is none before it. -/
theorem scopeName_scopeText {segments : List Segment} {last : Segment}
    (hplain : ∀ s ∈ segments ++ [last], s.Plain) :
    scopeName (scopeText segments last) = (cutSegment segments last).name := by
  obtain ⟨lead, hlead⟩ := exists_lead hplain
  obtain ⟨rest, hscope, hrest⟩ := hlead.cut
  have hname := (hplain _ (cutSegment_mem segments last)).2
  have hbase : Ident.baseType (scopeText segments last) = String.ofList lead := by
    rw [Ident.baseType, Text.onChars, hscope, Ident.baseTypeChars_of_isBare hlead.bare hrest]
  have hlast : Chars.afterLast "::".toList (String.ofList lead).toList =
      (cutSegment segments last).name.toList := by
    rw [String.toList_ofList (l := lead)]
    exact afterLast_of_lead hlead hname
  rw [scopeName, lastSegment, hbase, Text.afterLast, Text.onChars, hlast, String.ofList_toList]

theorem cutLastOn?_scopeText (segments : List Segment) (last : Segment) {name : String}
    (hname : ':' ∉ name.toList) :
    Text.cutLastOn? "::" (scopeText segments last ++ "::" ++ name) =
      some (scopeText segments last, name) := by
  rw [Text.cutLastOn?, String.toList_append, String.toList_append, List.append_assoc,
    show "::".toList = [':', ':'] from rfl, Seq.cutLastOn?_pair hname]
  simp

theorem length_le_scopeText (segments : List Segment) (last : Segment) :
    last.name.length ≤ (scopeText segments last).length := by
  induction segments with
  | nil =>
      rw [scopeText, Segment.text]
      split
      · exact Nat.le_refl _
      · simp only [String.length_append]
        omega
  | cons s segments ih =>
      simp only [scopeText, String.length_append]
      omega

/-- A name with its scope is not what the ID of a member adds to the path of its file. -/
theorem scoped_ne_member (segments : List Segment) (last : Segment) (name : String) :
    scopeText segments last ++ "::" ++ name ≠ last.name ++ ":" ++ name := by
  intro heq
  have hlength := congrArg String.length heq
  have hle := length_le_scopeText segments last
  simp only [String.length_append, show "::".length = 2 from rfl, show ":".length = 1 from rfl]
    at hlength
  omega

end Cpp

end CodeGraph
