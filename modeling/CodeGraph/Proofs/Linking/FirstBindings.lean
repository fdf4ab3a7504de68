import CodeGraph.Proofs.Linking.Candidates
import CodeGraph.Proofs.Text.Decoding
import CodeGraph.Scope.Members

/-!
Tables after any history. What a name, a local type, an import, a member or a field is looked up as
is decided by the first step that binds it, and no later step changes the answer. So a member of a
type is resolved by what the history tells of the type and its supertypes, and steps for other types
do not matter to it.
-/

namespace CodeGraph

/-! ### Names up to case -/

namespace Text

/-- One character, or the two cases of one ASCII letter. -/
def SameUpToCase (c d : Char) : Prop :=
  c = d ∨ (isAsciiUpper c = true ∧ d.toNat = c.toNat + 32) ∨
    (isAsciiUpper d = true ∧ c.toNat = d.toNat + 32)

theorem isAsciiUpper_iff {c : Char} : isAsciiUpper c = true ↔ 65 ≤ c.toNat ∧ c.toNat ≤ 90 := by
  simp [isAsciiUpper, Char.le_def, UInt32.le_iff_toNat_le]

theorem toNat_lowerChar (c : Char) :
    (lowerChar c).toNat = if isAsciiUpper c = true then c.toNat + 32 else c.toNat := by
  unfold lowerChar
  split
  case isTrue h =>
    obtain ⟨-, hz⟩ := isAsciiUpper_iff.mp h
    exact Utf8.toNat_ofNat (.inl (by omega))
  case isFalse => rfl

theorem lowerChar_eq_lowerChar_iff {c d : Char} :
    lowerChar c = lowerChar d ↔ SameUpToCase c d := by
  rw [← Char.toNat_inj, toNat_lowerChar, toNat_lowerChar, SameUpToCase, ← Char.toNat_inj]
  simp only [isAsciiUpper_iff]
  split_ifs <;> omega

theorem lower_eq_lower_iff {a b : String} :
    lower a = lower b ↔ List.Forall₂ SameUpToCase a.toList b.toList := by
  rw [lower, onChars, onChars, String.ofList_inj, Chars.lower, Chars.lower,
    ← List.forall₂_eq_eq_eq, List.forall₂_map_left_iff, List.forall₂_map_right_iff]
  simp only [lowerChar_eq_lowerChar_iff]

end Text

/-! ### First entries -/

/-- After any steps a lookup gives the entry of the first step that has one, and nothing if no step
has one. Further steps do not change what it gives. -/
structure FirstWins {σ α β : Type} (step : σ → α → σ) (start : σ) (lookup : σ → Option β)
    (given? : α → Option β) : Prop where
  found : ∀ (steps : List α) (value : β), lookup (steps.foldl step start) = some value ↔
    ∃ before x after, steps = before ++ x :: after ∧ given? x = some value ∧
      ∀ y ∈ before, given? y = none
  absent : ∀ steps : List α, lookup (steps.foldl step start) = none ↔ ∀ x ∈ steps, given? x = none
  stable : ∀ (steps later : List α) (value : β), lookup (steps.foldl step start) = some value →
    lookup ((steps ++ later).foldl step start) = some value

theorem FirstWins.of_run {σ α β : Type} {step : σ → α → σ} {start : σ} {lookup : σ → Option β}
    {given? : α → Option β}
    (h : ∀ steps : List α, lookup (steps.foldl step start) = steps.findSome? given?) :
    FirstWins step start lookup given? where
  found steps value := by rw [h, List.findSome?_eq_some_iff]
  absent steps := by rw [h, List.findSome?_eq_none_iff]
  stable steps later value hvalue := by
    rw [h] at hvalue ⊢
    rw [List.findSome?_append, hvalue, Option.some_or]

/-! ### Symbols -/

namespace SymbolTable

def SameName (ignoresCase : Bool) (a b : String) : Prop :=
  if ignoresCase = true then List.Forall₂ Text.SameUpToCase a.toList b.toList else a = b

theorem fold_eq_fold_iff {t : SymbolTable} {a b : String} :
    t.fold a = t.fold b ↔ SameName t.ignoresCase a b := by
  unfold fold SameName
  split
  · exact Text.lower_eq_lower_iff
  · rfl

instance (ignoresCase : Bool) (a b : String) : Decidable (SameName ignoresCase a b) :=
  decidable_of_iff (fold { ignoresCase } a = fold { ignoresCase } b) fold_eq_fold_iff

def insertEntry (t : SymbolTable) (entry : String × String) : SymbolTable :=
  t.insert entry.1 entry.2

def given? (ignoresCase : Bool) (name : String) (entry : String × String) : Option String :=
  if SameName ignoresCase name entry.1 then some entry.2 else none

theorem get?_insertEntry (t : SymbolTable) (entry : String × String) (name : String) :
    (t.insertEntry entry).get? name = (t.get? name).or (given? t.ignoresCase name entry) := by
  rw [insertEntry, get?_insert_fold, given?]
  simp only [fold_eq_fold_iff]

theorem get?_foldl_insertEntry (entries : List (String × String)) (t : SymbolTable)
    (name : String) : (entries.foldl insertEntry t).get? name =
      (t.get? name).or (entries.findSome? (given? t.ignoresCase name)) :=
  read_foldl (fun t : SymbolTable => t.get? name) (fun t entry => t.get?_insertEntry entry name)
    (fun _ _ => rfl) entries t

end SymbolTable

/-! ### Members -/

namespace TypeMembers

/-- What happens to the members of types while declarations are recorded and linked. -/
inductive Step where
  | addMember (owner name id : String)
  | addField (owner name id typeText : String)
  | markInterface (type : String)
  | addBase (type base : String)

namespace Step

def apply (t : TypeMembers) : Step → TypeMembers
  | addMember owner name id => t.addMember owner name id
  | addField owner name id typeText => t.addField owner name id typeText
  | markInterface type => t.markInterface type
  | addBase type base => t.addBase type base

def type : Step → String
  | addMember owner _ _ => owner
  | addField owner _ _ _ => owner
  | markInterface type => type
  | addBase type _ => type

def member? (owner name : String) : Step → Option String
  | addMember owner' name' id => if (owner, name) = (owner', name') then some id else none
  | addField owner' name' id _ => if (owner, name) = (owner', name') then some id else none
  | _ => none

def fieldType? (owner name : String) : Step → Option String
  | addField owner' name' _ typeText =>
      if (owner, name) = (owner', name') then some typeText else none
  | _ => none

def base? (type : String) : Step → Option String
  | addBase type' base => if type' = type then some base else none
  | _ => none

end Step

def after (steps : List Step) : TypeMembers :=
  steps.foldl Step.apply {}

def firstMember? (steps : List Step) (owner name : String) : Option String :=
  steps.findSome? (Step.member? owner name)

/-- The supertypes of a type in the order in which they were first added. -/
def basesIn (steps : List Step) (type : String) : List String :=
  (steps.filterMap (Step.base? type)).eraseDups

/-- What a member of a type stands for, by what happened to the types: the first ID that it was
given there, else on the first supertype that has such a member, else the ID below the type. -/
def resolved (steps : List Step) (type name : String) : String :=
  ((firstMember? steps type name).or
    ((basesIn steps type).findSome? (firstMember? steps · name))).getD (Ident.member type name)

section Histories

variable (t : TypeMembers) (step : Step) (steps later : List Step) (type owner name : String)

theorem markInterface_eq : ∃ interfaces, t.markInterface type = { t with interfaces } := by
  unfold markInterface
  split
  · exact ⟨t.interfaces, rfl⟩
  · exact ⟨_, rfl⟩

theorem member?_apply :
    (step.apply t).member? owner name = (t.member? owner name).or (step.member? owner name) := by
  cases step with
  | addMember owner' name' id => exact Bindings.get?_bind ..
  | addField owner' name' id typeText => exact Bindings.get?_bind ..
  | markInterface type =>
      obtain ⟨interfaces, h⟩ := markInterface_eq t type
      rw [Step.apply, h]
      exact (Option.or_none ..).symm
  | addBase type base =>
      simp only [Step.apply, addBase, Step.member?, Option.or_none]
      split <;> rfl

theorem fieldType?_apply : (step.apply t).fieldType? owner name =
    (t.fieldType? owner name).or (step.fieldType? owner name) := by
  cases step with
  | addMember owner' name' id => exact (Option.or_none ..).symm
  | addField owner' name' id typeText => exact Bindings.get?_bind ..
  | markInterface type =>
      obtain ⟨interfaces, h⟩ := markInterface_eq t type
      rw [Step.apply, h]
      exact (Option.or_none ..).symm
  | addBase type base =>
      simp only [Step.apply, addBase, Step.fieldType?, Option.or_none]
      split <;> rfl

theorem bases_apply : (step.apply t).bases type =
    t.bases type ++ (step.base? type).toList.filter fun base => base ∉ t.bases type := by
  cases step with
  | addMember owner' name' id => simp [Step.apply, addMember, Step.base?, bases]
  | addField owner' name' id typeText => simp [Step.apply, addField, addMember, Step.base?, bases]
  | markInterface type' =>
      obtain ⟨interfaces, h⟩ := markInterface_eq t type'
      simp [Step.apply, h, Step.base?, bases]
  | addBase type' base =>
      rw [Step.apply, addBase, Step.base?]
      by_cases hbase : (type', base) ∈ t.supertypes
      · by_cases htype : type' = type
        · subst htype
          simp [bases, hbase]
        · simp [hbase, htype]
      · by_cases htype : type' = type
        · subst htype
          simp [bases, hbase]
        · simp [bases, hbase, htype]

theorem member?_after : (after steps).member? owner name = firstMember? steps owner name :=
  (read_foldl (fun t : TypeMembers => t.member? owner name)
    (fun t step => member?_apply t step owner name) (fun _ _ => rfl) steps {}).trans Option.none_or

theorem fieldType?_after :
    (after steps).fieldType? owner name = steps.findSome? (Step.fieldType? owner name) :=
  (read_foldl (fun t : TypeMembers => t.fieldType? owner name)
    (fun t step => fieldType?_apply t step owner name) (fun _ _ => rfl) steps {}).trans
    Option.none_or

theorem bases_after : (after steps).bases type = basesIn steps type :=
  foldl_append_fresh (fun t : TypeMembers => t.bases type) (fun t step => bases_apply t step type)
    steps rfl

theorem resolveMember_after : (after steps).resolveMember type name = resolved steps type name := by
  have hfirst : ((after steps).member? · name) = (firstMember? steps · name) :=
    funext fun owner => member?_after steps owner name
  rw [resolveMember, resolved, member?_after, bases_after, hfirst]
  cases firstMember? steps type name <;> rfl

/-! ### Steps for other types -/

variable {steps later type owner name}

theorem Step.member?_eq_none {step : Step} (h : step.type ≠ owner) :
    step.member? owner name = none := by
  cases step with
  | addMember owner' name' id => exact if_neg fun heq => h (Prod.mk.inj heq).1.symm
  | addField owner' name' id typeText => exact if_neg fun heq => h (Prod.mk.inj heq).1.symm
  | _ => rfl

theorem Step.base?_eq_none {step : Step} (h : step.type ≠ type) : step.base? type = none := by
  cases step with
  | addBase type' base => exact if_neg h
  | _ => rfl

theorem firstMember?_append (h : ∀ step ∈ later, step.type ≠ owner) :
    firstMember? (steps ++ later) owner name = firstMember? steps owner name := by
  have hlater : later.findSome? (Step.member? owner name) = none :=
    List.findSome?_eq_none_iff.mpr fun step hstep => Step.member?_eq_none (h step hstep)
  rw [firstMember?, List.findSome?_append, hlater, Option.or_none, firstMember?]

theorem basesIn_append (h : ∀ step ∈ later, step.type ≠ type) :
    basesIn (steps ++ later) type = basesIn steps type := by
  have hlater : later.filterMap (Step.base? type) = [] :=
    List.filterMap_eq_nil_iff.mpr fun step hstep => Step.base?_eq_none (h step hstep)
  rw [basesIn, List.filterMap_append, hlater, List.append_nil, basesIn]

theorem resolved_append (h : ∀ step ∈ later, step.type ≠ type ∧ step.type ∉ basesIn steps type) :
    resolved (steps ++ later) type name = resolved steps type name := by
  have hbase : ∀ base ∈ basesIn steps type,
      firstMember? (steps ++ later) base name = firstMember? steps base name := fun base hbase =>
    firstMember?_append fun step hstep heq => (h step hstep).2 (heq ▸ hbase)
  have hbases : (basesIn steps type).findSome? (firstMember? (steps ++ later) · name) =
      (basesIn steps type).findSome? (firstMember? steps · name) := by
    rw [← List.head?_filterMap, List.filterMap_congr hbase, List.head?_filterMap]
  rw [resolved, resolved, firstMember?_append fun step hstep => (h step hstep).1,
    basesIn_append fun step hstep => (h step hstep).1, hbases]

end Histories

end TypeMembers

/-! ### All tables -/

/-- After any steps a lookup in a table gives what the first step gave to an equal name: a symbol
its ID, a local type or an exact import the name that it stands for, a member its ID and a field its
type. So a member of a type is resolved by the history of the type and its supertypes, and steps for
other types leave it as it is. -/
theorem lookups_keep_first_entries :
    (∀ ignoresCase name, FirstWins SymbolTable.insertEntry { ignoresCase } (·.get? name)
      (SymbolTable.given? ignoresCase name)) ∧
    (∀ current name, FirstWins NamespaceScope.Step.apply (.of current) (·.localType? name)
      (NamespaceScope.Step.localType? name)) ∧
    (∀ current name, FirstWins NamespaceScope.Step.apply (.of current) (·.exact.get? name)
      (NamespaceScope.Step.exactType? name)) ∧
    (∀ owner name, FirstWins TypeMembers.Step.apply {} (·.member? owner name)
      (TypeMembers.Step.member? owner name)) ∧
    (∀ owner name, FirstWins TypeMembers.Step.apply {} (·.fieldType? owner name)
      (TypeMembers.Step.fieldType? owner name)) ∧
    (∀ steps type name, (TypeMembers.after steps).resolveMember type name =
      TypeMembers.resolved steps type name) ∧
    ∀ steps later type name,
      (∀ step ∈ later, step.type ≠ type ∧ step.type ∉ (TypeMembers.after steps).bases type) →
      (TypeMembers.after (steps ++ later)).resolveMember type name =
        (TypeMembers.after steps).resolveMember type name := by
  refine ⟨fun ignoresCase name => .of_run fun entries => ?_,
    fun current name => .of_run fun steps => NamespaceScope.localTypes_after steps current name,
    fun current name => .of_run fun steps => NamespaceScope.exact_after steps current name,
    fun owner name => .of_run fun steps => TypeMembers.member?_after steps owner name,
    fun owner name => .of_run fun steps => TypeMembers.fieldType?_after steps owner name,
    TypeMembers.resolveMember_after, fun steps later type name h => ?_⟩
  · exact (SymbolTable.get?_foldl_insertEntry entries _ name).trans Option.none_or
  · rw [TypeMembers.resolveMember_after, TypeMembers.resolveMember_after]
    exact TypeMembers.resolved_append fun step hstep => by
      simpa only [TypeMembers.bases_after] using h step hstep

/-- A member that is inherited stays the same though another type is given a member of the same name
and the inheriting type as its supertype. -/
theorem inherited_member_kept :
    let steps : List TypeMembers.Step :=
      [.addMember "app.Base" "save" "app.Base:save", .addBase "app.Derived" "app.Base"]
    let later : List TypeMembers.Step :=
      [.addMember "app.Other" "save" "app.Other:save", .addBase "app.Other" "app.Derived"]
    (∀ step ∈ later, step.type ≠ "app.Derived" ∧
      step.type ∉ (TypeMembers.after steps).bases "app.Derived") ∧
    (TypeMembers.after (steps ++ later)).resolveMember "app.Derived" "save" = "app.Base:save" := by
  intro steps later
  have hothers : ∀ step ∈ later, step.type ≠ "app.Derived" ∧
      step.type ∉ (TypeMembers.after steps).bases "app.Derived" := by decide
  have hkept := lookups_keep_first_entries.2.2.2.2.2.2 steps later "app.Derived" "save" hothers
  exact ⟨hothers, hkept.trans (by decide)⟩

end CodeGraph
