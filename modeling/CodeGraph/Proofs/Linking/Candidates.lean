import CodeGraph.Proofs.Graph.Occurrences
import CodeGraph.Proofs.Linking.Scopes
import CodeGraph.Proofs.Text.Trimming
import Mathlib.Data.List.Nodup

/-!
What a type reference may denote, by the history of a scope. The first local type and the first
exact import of a name count, and the imported namespaces come in the order of their first import.
A reference denotes what its base name denotes, whatever white space, arguments, brackets or
nullable mark is around the name.
-/

namespace CodeGraph

/-! ### Base names -/

namespace Ident

open Chars

/-- The reference is the name, perhaps between white space, and perhaps followed by what is no part
of a name: type arguments, array brackets, a nullable mark or arguments. -/
structure HasBase (reference name : List Char) : Prop where
  trimmed : trim name = name
  uncut : ∀ c ∈ name, endsTypeName c = false
  spelled : ∃ lead gap suffix, reference = lead ++ name ++ gap ++ suffix ∧ IsBlank lead ∧
    IsBlank gap ∧ ∀ c ∈ suffix.head?, endsTypeName c = true

theorem endsTypeName_of_isSpace {c : Char} (h : Text.isSpace c = true) :
    endsTypeName c = false := by
  rw [Bool.eq_false_iff]
  intro hends
  simp only [endsTypeName, Bool.or_eq_true, beq_iff_eq] at hends
  rcases hends with ((rfl | rfl) | rfl) | rfl <;> simp [Text.isSpace] at h

/-- What precedes the end of a name is cut off there. -/
theorem takeWhile_endsTypeName {s suffix : List Char} (hs : ∀ c ∈ s, endsTypeName c = false)
    (hsuffix : ∀ c ∈ suffix.head?, endsTypeName c = true) :
    (s ++ suffix).takeWhile (fun c => !endsTypeName c) = s := by
  have hall : ∀ c ∈ s, (!endsTypeName c) = true := fun c hc => by simp [hs c hc]
  rw [List.takeWhile_append_of_pos hall]
  cases suffix with
  | nil => simp
  | cons c suffix => rw [List.takeWhile_cons_of_neg (by simp [hsuffix c rfl]), List.append_nil]

theorem baseTypeChars_of_hasBase {reference name : List Char} (h : HasBase reference name) :
    baseTypeChars reference = name := by
  obtain ⟨htrimmed, huncut, lead, gap, suffix, rfl, hlead, hgap, hsuffix⟩ := h
  have hfront : ∀ c ∈ lead ++ name ++ gap, endsTypeName c = false := by
    simp only [List.mem_append]
    rintro c ((hc | hc) | hc)
    · exact endsTypeName_of_isSpace (hlead c hc)
    · exact huncut c hc
    · exact endsTypeName_of_isSpace (hgap c hc)
  have hname : trim (lead ++ name ++ gap) = name := by
    rw [trim_append_blank _ hgap, trim_append hlead, htrimmed]
  cases suffix with
  | nil =>
      have hcut := @takeWhile_endsTypeName _ [] huncut hsuffix
      rw [List.append_nil] at hcut ⊢
      rw [baseTypeChars, hname, hcut, htrimmed]
  | cons c suffix =>
      have hends : endsTypeName c = true := hsuffix c rfl
      have hspace : Text.isSpace c = false := by
        rw [Bool.eq_false_iff]
        intro h
        simp [endsTypeName_of_isSpace h] at hends
      have hstart : ∀ b ∈ trimStart (lead ++ name ++ gap), endsTypeName b = false :=
        fun b hb => hfront b ((List.dropWhile_sublist _).mem hb)
      rw [baseTypeChars, trim_append_cons hspace,
        takeWhile_endsTypeName hstart (by simpa using hends), trim_trimStart, hname]

theorem hasBase_baseTypeChars (reference : List Char) :
    HasBase reference (baseTypeChars reference) := by
  let front := (trim reference).takeWhile fun c => !endsTypeName c
  let suffix := (trim reference).dropWhile fun c => !endsTypeName c
  obtain ⟨lead, gap, htrim, hlead, hgap⟩ := exists_eq_trim reference
  obtain ⟨lead', gap', hfront, hlead', hgap'⟩ := exists_eq_trim front
  have hreference : reference = lead ++ lead' ++ trim front ++ gap' ++ (suffix ++ gap) := by
    have hspan : front ++ suffix = trim reference := List.takeWhile_append_dropWhile
    rw [hfront] at hspan
    rw [htrim, ← hspan]
    simp only [List.append_assoc]
  change HasBase reference (trim front)
  refine ⟨trim_trim front, fun c hc => ?_, ?_⟩
  · have hmem : c ∈ front := by
      rw [hfront]
      exact List.mem_append_left _ (List.mem_append_right _ hc)
    simpa using List.mem_takeWhile_imp hmem
  · cases hsuffix : suffix with
    | nil =>
        exact ⟨lead ++ lead', gap' ++ gap, [], hreference.trans (by simp [hsuffix]),
          hlead.append hlead', hgap'.append hgap, by simp⟩
    | cons c rest =>
        have hends := List.head?_dropWhile_not (fun c => !endsTypeName c) (trim reference)
        rw [show (trim reference).dropWhile _ = c :: rest from hsuffix] at hends
        exact ⟨lead ++ lead', gap', c :: (rest ++ gap), hreference.trans (by simp [hsuffix]),
          hlead.append hlead', hgap', by simpa using hends⟩

theorem HasBase.self {reference name : List Char} (h : HasBase reference name) :
    HasBase name name :=
  ⟨h.trimmed, h.uncut, [], [], [], by simp, by simp [IsBlank], by simp [IsBlank], by simp⟩

/-- Every reference has one base name. -/
theorem baseType_eq_iff {reference name : String} :
    baseType reference = name ↔ HasBase reference.toList name.toList := by
  rw [baseType, Text.onChars, ← String.toList_inj, String.toList_ofList]
  refine ⟨fun h => ?_, baseTypeChars_of_hasBase⟩
  rw [← h]
  exact hasBase_baseTypeChars reference.toList

end Ident

/-! ### Histories of a scope -/

namespace NamespaceScope

/-- What happens to a scope while the imports and declarations of a file are read. -/
inductive Step where
  | setCurrent (space : String)
  | addNamespace (space : String)
  | addExact (name full : String)
  | addLocalType (name id : String)

namespace Step

def apply (s : NamespaceScope) : Step → NamespaceScope
  | setCurrent space => s.setCurrent space
  | addNamespace space => s.addNamespace space
  | addExact name full => s.addExact name full
  | addLocalType name id => s.addLocalType name id

def localType? (name : String) : Step → Option String
  | addLocalType name' id => if name' = name then some id else none
  | _ => none

def exactType? (name : String) : Step → Option String
  | addExact name' full => if name' = name then some full else none
  | _ => none

/-- The namespace that the step imports; the global one is no import. -/
def namespace? : Step → Option String
  | addNamespace space => if space = "" then none else some space
  | _ => none

end Step

def after (current : String) (steps : List Step) : NamespaceScope :=
  steps.foldl Step.apply (of current)

def firstLocal? (steps : List Step) (name : String) : Option String :=
  steps.findSome? (Step.localType? name)

def firstExact? (steps : List Step) (name : String) : Option String :=
  steps.findSome? (Step.exactType? name)

/-- The imported namespaces in the order in which they were first imported. -/
def imported (steps : List Step) : List String :=
  (steps.filterMap Step.namespace?).eraseDups

section Histories

variable (s : NamespaceScope) (step : Step) (steps : List Step) (current name : String)

theorem localType?_apply :
    (step.apply s).localTypes.get? name = (s.localTypes.get? name).or (step.localType? name) := by
  cases step with
  | addLocalType name' id =>
      simp [Step.apply, addLocalType, Step.localType?, Bindings.get?_bind, eq_comm]
  | addNamespace space =>
      simp only [Step.apply, addNamespace, Step.localType?, Option.or_none]
      split <;> rfl
  | _ => simp [Step.apply, setCurrent, addExact, Step.localType?]

theorem exactType?_apply :
    (step.apply s).exact.get? name = (s.exact.get? name).or (step.exactType? name) := by
  cases step with
  | addExact name' full =>
      simp [Step.apply, addExact, Step.exactType?, Bindings.get?_bind, eq_comm]
  | addNamespace space =>
      simp only [Step.apply, addNamespace, Step.exactType?, Option.or_none]
      split <;> rfl
  | _ => simp [Step.apply, setCurrent, addLocalType, Step.exactType?]

theorem namespaces_apply :
    (step.apply s).namespaces =
      s.namespaces ++ (step.namespace?.toList.filter fun space => space ∉ s.namespaces) := by
  cases step with
  | addNamespace space =>
      simp only [Step.apply, addNamespace, Step.namespace?]
      by_cases hempty : space = ""
      · simp [hempty]
      · by_cases hmem : space ∈ s.namespaces <;> simp [hempty, hmem]
  | _ => simp [Step.apply, setCurrent, addExact, addLocalType, Step.namespace?]

theorem localTypes_after : (after current steps).localTypes.get? name = firstLocal? steps name :=
  (read_foldl (fun s : NamespaceScope => s.localTypes.get? name)
    (fun s step => localType?_apply s step name) (fun _ _ => rfl) steps _).trans Option.none_or

theorem exact_after : (after current steps).exact.get? name = firstExact? steps name :=
  (read_foldl (fun s : NamespaceScope => s.exact.get? name)
    (fun s step => exactType?_apply s step name) (fun _ _ => rfl) steps _).trans Option.none_or

theorem after_concat : after current (steps ++ [step]) = step.apply (after current steps) := by
  rw [after, List.foldl_append, List.foldl_cons, List.foldl_nil, after]

theorem namespaces_after : (after current steps).namespaces = imported steps :=
  foldl_append_fresh namespaces namespaces_apply steps rfl

theorem nodup_imported : (imported steps).Nodup := by
  rw [← namespaces_after steps ""]
  induction steps using List.reverseRecOn with
  | nil => exact List.nodup_nil
  | append_singleton steps step ih =>
      rw [after_concat, namespaces_apply]
      cases step.namespace? with
      | none => simpa using ih
      | some space =>
          by_cases hmem : space ∈ (after "" steps).namespaces
          · simpa [hmem] using ih
          · simpa [hmem, List.nodup_append] using ⟨ih, fun a ha heq => hmem (heq ▸ ha)⟩

end Histories

theorem ne_empty_of_mem_imported {steps : List Step} {space : String}
    (h : space ∈ imported steps) : space ≠ "" := by
  rw [imported, List.mem_eraseDups, List.mem_filterMap] at h
  obtain ⟨step, -, hstep⟩ := h
  cases step with
  | addNamespace space' =>
      simp only [Step.namespace?, Option.ite_none_left_eq_some, Option.some.injEq] at hstep
      exact hstep.2 ▸ hstep.1
  | _ => simp [Step.namespace?] at hstep

/-! ### Candidates -/

/-- The segment in front of the first dot of a name. -/
def headSegment (name : String) : String :=
  String.ofList (name.toList.takeWhile (· != '.'))

def laterSegments (name : String) : String :=
  String.ofList ((name.toList.dropWhile (· != '.')).drop 1)

/-- What a dotted name denotes: its first segment may be imported or a type of the file. -/
def dottedName (steps : List Step) (name : String) : String :=
  match (firstExact? steps (headSegment name)).or (firstLocal? steps (headSegment name)) with
  | some id => id ++ "." ++ laterSegments name
  | none => name

/-- What a name without a dot denotes if nothing in the file explains it: a name in each imported
namespace, and then the name in its own namespace unless that is one of them. -/
def openNames (steps : List Step) (space name : String) : List String :=
  let imports := (imported steps).map (· ++ "." ++ name)
  let own := Ident.qualified space name
  imports ++ if own ∈ imports then [] else [own]

/-- What a name denotes in a namespace, by what happened to the scope. -/
def denoted (steps : List Step) (space name : String) : List String :=
  if name = "" then []
  else
    match firstLocal? steps name, firstExact? steps name with
    | some id, _ => [id]
    | none, some full => [full]
    | none, none =>
        if '.' ∈ name.toList then [dottedName steps name] else openNames steps space name

theorem cut?_dot (name : String) :
    Text.cut? "." name =
      if '.' ∈ name.toList then some (headSegment name, laterSegments name) else none := by
  split
  case isTrue hdot =>
    obtain ⟨head, rest, hname, hhead⟩ := List.eq_append_cons_of_mem hdot
    have hsegment : ∀ c ∈ head, (c != '.') = true := by
      intro c hc
      rw [bne_iff_ne]
      exact fun heq => hhead (heq ▸ hc)
    rw [Text.cut?, headSegment, laterSegments, hname, List.takeWhile_append_of_pos hsegment,
      List.dropWhile_append_of_pos hsegment]
    rw [show ".".toList = ['.'] from rfl, Seq.cut?_append_cons hhead]
    simp
  case isFalse hdot =>
    rw [Text.cut?, show ".".toList = ['.'] from rfl, Seq.cut?_singleton_eq_none hdot]
    rfl

variable (current : String) (steps : List Step) (space name : String)

theorem dottedCandidate_after :
    (after current steps).dottedCandidate name (headSegment name) (laterSegments name) =
      dottedName steps name := by
  rw [dottedCandidate, dottedName, exact_after, localTypes_after]
  cases firstExact? steps (headSegment name) with
  | some full => rfl
  | none => cases firstLocal? steps (headSegment name) <;> rfl

theorem openCandidates_after :
    (after current steps).openCandidates space name = openNames steps space name := by
  have himports : (imported steps).map (Ident.qualified · name) =
      (imported steps).map (· ++ "." ++ name) := by
    refine List.map_congr_left fun space hspace => ?_
    rw [Ident.qualified, if_neg (by simpa using ne_empty_of_mem_imported hspace)]
  rw [openCandidates, openNames, namespaces_after, himports]
  by_cases hown : Ident.qualified space name ∈ (imported steps).map (· ++ "." ++ name)
  · rw [if_pos hown, if_pos (List.contains_iff_mem.mpr hown), List.append_nil]
  · rw [if_neg hown, if_neg (mt List.contains_iff_mem.mp hown)]

theorem candidatesIn_after (reference : String) :
    (after current steps).candidatesIn space reference =
      denoted steps space (Ident.baseType reference) := by
  rw [candidatesIn, denoted, localTypes_after, exact_after, cut?_dot]
  cases firstLocal? steps (Ident.baseType reference) with
  | some id => simp only [beq_iff_eq]
  | none =>
      cases firstExact? steps (Ident.baseType reference) with
      | some full => simp only [beq_iff_eq]
      | none =>
          by_cases hdot : '.' ∈ (Ident.baseType reference).toList
          · simp only [beq_iff_eq, if_pos hdot, dottedCandidate_after]
          · simp only [beq_iff_eq, if_neg hdot, openCandidates_after]

theorem nodup_openNames : (openNames steps space name).Nodup := by
  have himports : ((imported steps).map (· ++ "." ++ name)).Nodup := by
    refine List.Nodup.map (fun space space' h => ?_) (nodup_imported steps)
    simpa using h
  rw [openNames]
  split
  case isTrue => simpa using himports
  case isFalse hown =>
    rw [List.nodup_append_comm]
    exact List.nodup_cons.mpr ⟨hown, himports⟩

theorem nodup_denoted : (denoted steps space name).Nodup := by
  unfold denoted
  split
  · exact List.nodup_nil
  · split
    · exact List.nodup_singleton _
    · exact List.nodup_singleton _
    · split
      · exact List.nodup_singleton _
      · exact nodup_openNames steps space name

theorem openNames_ne_nil : openNames steps space name ≠ [] := by
  rw [openNames]
  split
  case isTrue hown =>
    rw [List.append_nil]
    exact List.ne_nil_of_mem hown
  case isFalse => simp

theorem denoted_eq_nil_iff : denoted steps space name = [] ↔ name = "" := by
  unfold denoted
  split
  case isTrue hempty => simp [hempty]
  case isFalse hne =>
    refine iff_of_false ?_ hne
    split
    · exact List.cons_ne_nil _ _
    · exact List.cons_ne_nil _ _
    · split
      · exact List.cons_ne_nil _ _
      · exact openNames_ne_nil steps space name

/-- Every reference has one base name. Its candidates in a namespace, after any history of the
scope, are what the history makes of the base name: distinct names, the same as for the base name
alone, and none only if that is empty. -/
theorem candidates_denoted (reference : String) :
    (Ident.baseType reference = name ↔ Ident.HasBase reference.toList name.toList) ∧
    (Ident.HasBase reference.toList name.toList →
      ((after current steps).candidatesIn space reference).Nodup ∧
      ((after current steps).candidatesIn space reference = [] ↔ name = "") ∧
      (after current steps).candidatesIn space reference =
        (after current steps).candidatesIn space name ∧
      (after current steps).candidatesIn space reference = denoted steps space name) := by
  refine ⟨Ident.baseType_eq_iff, fun h => ?_⟩
  have hreference : (after current steps).candidatesIn space reference =
      denoted steps space name := by
    rw [candidatesIn_after, Ident.baseType_eq_iff.mpr h]
  have hname : (after current steps).candidatesIn space name = denoted steps space name := by
    rw [candidatesIn_after, Ident.baseType_eq_iff.mpr h.self]
  rw [hname, hreference]
  exact ⟨nodup_denoted steps space name, denoted_eq_nil_iff steps space name, rfl, rfl⟩

/-- Imports that are repeated, an alias that is bound twice, and the global namespace. -/
theorem repeated_imports_count_once :
    let steps : List Step := [.addNamespace "System", .addNamespace "", .addExact "Col" "S.Lists",
      .addExact "Col" "Other", .setCurrent "B", .addNamespace "A", .addNamespace "System"]
    (Ident.HasBase " T <int>[]".toList "T".toList ∧
      Ident.HasBase "Col.List?".toList "Col.List".toList) ∧
    (after "A" steps).candidatesIn "A" " T <int>[]" = ["System.T", "A.T"] ∧
    (after "A" steps).candidatesIn "A" "Col.List?" = ["S.Lists.List"] := by
  intro steps
  obtain ⟨hbase, hopen⟩ := candidates_denoted "A" steps "A" "T" " T <int>[]"
  obtain ⟨hbase', hdotted⟩ := candidates_denoted "A" steps "A" "Col.List" "Col.List?"
  have h : Ident.HasBase " T <int>[]".toList "T".toList := hbase.mp (by decide +kernel)
  have h' : Ident.HasBase "Col.List?".toList "Col.List".toList := hbase'.mp (by decide +kernel)
  refine ⟨⟨h, h'⟩, (hopen h).2.2.2.trans ?_, (hdotted h').2.2.2.trans ?_⟩
  · decide +kernel
  · decide +kernel

end NamespaceScope

end CodeGraph
