import CodeGraph.Proofs.Linking.Outlines

/-!
Analyses that link the references of a tree in one walk. The walk records the supertypes of a type
when it comes to the declaration of the type, so a call on the type is linked to an inherited
member exactly if the declaration stands before the call.
-/

namespace CodeGraph

open CodeGraph.Tree (Site)

/-! ### Recorded supertypes -/

namespace TypeMembers

/-- Records supertypes, each with the type that has it. -/
def inherit (t : TypeMembers) (pairs : List (String × String)) : TypeMembers :=
  pairs.foldl (fun t pair => t.addBase pair.1 pair.2) t

@[simp]
theorem inherit_nil (t : TypeMembers) : t.inherit [] = t :=
  rfl

theorem inherit_append (t : TypeMembers) (pairs pairs' : List (String × String)) :
    t.inherit (pairs ++ pairs') = (t.inherit pairs).inherit pairs' :=
  List.foldl_append

/-- A supertype that is recorded again changes no search through the supertypes. -/
theorem findSome?_bases_addBase {α : Type} (t : TypeMembers) (owner base type : String)
    (find : String → Option α) :
    ((t.addBase owner base).bases type).findSome? find =
      ((t.bases type).findSome? find).or (if owner = type then find base else none) := by
  unfold addBase
  split
  case isTrue h =>
    split_ifs with howner
    · subst howner
      have hbase : base ∈ t.bases owner :=
        List.mem_map.mpr ⟨(owner, base), by simpa using h, rfl⟩
      cases hfound : (t.bases owner).findSome? find with
      | none => rw [List.findSome?_eq_none_iff.mp hfound base hbase, Option.none_or]
      | some found => rw [Option.some_or]
    · rw [Option.or_none]
  case isFalse =>
    rw [bases, List.filter_append, List.map_append, List.findSome?_append, bases]
    split_ifs with howner
    · simp [howner]
    · simp [howner]

theorem findSome?_bases_inherit {α : Type} (t : TypeMembers) (pairs : List (String × String))
    (type : String) (find : String → Option α) :
    ((t.inherit pairs).bases type).findSome? find =
      ((t.bases type).findSome? find).or
        (pairs.findSome? fun pair => if pair.1 = type then find pair.2 else none) := by
  exact read_foldl (fun t : TypeMembers => (t.bases type).findSome? find)
    (fun t pair => findSome?_bases_addBase t pair.1 pair.2 type find) (fun _ _ => rfl) pairs t

end TypeMembers

/-- The supertypes that the declaration of a type at a site has, each with the type. -/
def Outline.heritage (o : Outline) (s : Site) (bases : List String) : List (String × String) :=
  match o.types.get? s.node.key with
  | none => []
  | some type => bases.map fun base => (type, base)

theorem Outline.findSome?_heritage {α : Type} (o : Outline) (s : Site) (bases : List String)
    (type : String) (find : String → Option α) :
    ((o.heritage s bases).findSome? fun pair => if pair.1 = type then find pair.2 else none) =
      if o.types.get? s.node.key = some type then bases.findSome? find else none := by
  unfold heritage
  cases o.types.get? s.node.key with
  | none => rfl
  | some type' =>
      by_cases htype : type' = type
      · simp [List.findSome?_map, Function.comp_def, htype]
      · simp [List.findSome?_map, Function.comp_def, htype]

theorem Outline.members_foldl_addBase {α : Type} (relation base : α → String) (type : String)
    (xs : List α) (o : Outline) :
    (xs.foldl (fun o x => o.addBase (relation x) type (base x)) o).members =
      o.members.inherit (xs.map fun x => (type, base x)) := by
  induction xs generalizing o with
  | nil => rfl
  | cons x xs ih => exact ih _

theorem Outline.members_linkField (o : Outline) (ctx : Context) (name : String) :
    (o.linkField ctx name).members = o.members := by
  unfold linkField
  split
  · rfl
  · split <;> rfl

theorem Outline.members_linkFieldUse (o : Outline) (ctx : Context) (locals : Locals)
    (use : FieldUse) (name : String) :
    (o.linkFieldUse ctx locals use name).members = o.members := by
  cases use with
  | none => rfl
  | bare =>
      unfold linkFieldUse
      dsimp only
      split
      · rfl
      · exact o.members_linkField ctx name
  | ofThis => exact o.members_linkField ctx name

/-! ### Walks -/

/-- An analysis that records the declarations of a tree and then visits one site after the other,
where it links calls and records supertypes. -/
structure Linker where
  State : Type
  declarations : SourceFile → Tree → List Declaration
  initialState : SourceFile → Tree → State
  file : State → SourceFile
  outline : State → Outline
  visit : State → Site → State
  /-- The supertypes that a declaration lists, in order. -/
  listed : State → Site → List String
  /-- Whether a visit of the declaration records the supertypes that it lists. -/
  records : Site → Bool
  /-- The types that the receiver of a call may have, and the name that is called. -/
  called? : State → Outline.Context → Site → Option (List String × String)
  file_initialState : ∀ f root, file (initialState f root) = f
  outline_initialState : ∀ f root,
    outline (initialState f root) = Outline.ofDeclarations (declarations f root)
  member_id : ∀ f root, ∀ d ∈ declarations f root, ∀ owner name,
    d.member? = some (owner, name) → d.node.id = Ident.member owner name
  file_visit : ∀ st s, file (visit st s) = file st
  grown_visit : ∀ st s, (outline st).Grown (outline (visit st s))
  listed_visit : ∀ st s, listed (visit st s) = listed st
  members_visit : ∀ st s, (outline (visit st s)).members = (outline st).members.inherit
    (if records s then (outline st).heritage s (listed st s) else [])
  visit_call : ∀ st ctx s types name, (outline st).context? s = some ctx →
    called? st ctx s = some (types, name) → types ≠ [] →
      outline (visit st s) = (outline st).link ctx.source
        (types.map ((outline st).members.resolveMember · name)) Relation.calls

namespace Linker

variable (L : Linker) (f : SourceFile) (root : Tree)

def analyze : Fragment :=
  (L.outline (root.sites.foldl L.visit (L.initialState f root))).fragment

/-- The state in which the walk comes to the site at a place. -/
def stateAt (n : Nat) : L.State :=
  (root.sites.take n).foldl L.visit (L.initialState f root)

def membersAt (n : Nat) : TypeMembers :=
  (L.outline (L.stateAt f root n)).members

/-- The call on a receiver at a place in a routine: the routine, the types that the receiver may
have, and the name that is called. -/
def callAt? (n : Nat) : Option (Routine × List String × String) := do
  let s ← root.sites[n]?
  let (callable, r) ← (L.outline (L.stateAt f root n)).routineAround? s
  let (types, name) ← L.called? (L.stateAt f root n) ⟨r.id, r.owner, some callable⟩ s
  return (r, types, name)

def typeAt? (k : Nat) : Option String :=
  (root.sites[k]?).bind fun t => (L.outline (L.initialState f root)).types.get? t.node.key

def listedAt (k : Nat) : List String :=
  ((root.sites[k]?).map (L.listed (L.initialState f root))).getD []

def recordsAt (k : Nat) : Bool :=
  (root.sites[k]?).any L.records

def typeIds : List String :=
  (L.declarations f root).filterMap Declaration.typeId?

def Declares (type name : String) : Prop :=
  ∃ d ∈ L.declarations f root, d.member? = some (type, name)

instance (type name : String) : Decidable (L.Declares f root type name) :=
  inferInstanceAs (Decidable (∃ d ∈ _, _))

def ownMember? (name type : String) : Option String :=
  if L.Declares f root type name then some (Ident.member type name) else none

/-- The type that is declared at a place does not declare the member; the base is the first of its
listed supertypes that does. -/
structure Inherits (k : Nat) (type base name : String) : Prop where
  declared : L.typeAt? f root k = some type
  own : ¬L.Declares f root type name
  first : (L.listedAt f root k).find? (fun c => L.Declares f root c name) = some base

/-! ### What a walk finds through supertypes -/

section Search

variable {α : Type} (st : L.State) (type : String) (find : String → Option α)

/-- What is found through the supertypes that a visit of the site records for the type. -/
def found? (s : Site) : Option α :=
  if L.records s = true ∧ (L.outline st).types.get? s.node.key = some type then
    (L.listed st s).findSome? find
  else none

theorem found?_visit (s : Site) : L.found? (L.visit st s) type find = L.found? st type find := by
  funext s'
  rw [found?, L.listed_visit, (L.grown_visit st s).types, found?]

theorem findSome?_bases_visit (s : Site) :
    ((L.outline (L.visit st s)).members.bases type).findSome? find =
      (((L.outline st).members.bases type).findSome? find).or (L.found? st type find s) := by
  rw [L.members_visit, TypeMembers.findSome?_bases_inherit, found?]
  by_cases hrecords : L.records s = true
  · simp only [hrecords, if_true, true_and, Outline.findSome?_heritage]
  · simp [hrecords]

/-- The search goes through the visited sites in order. -/
theorem findSome?_bases_foldl_visit (sites : List Site) :
    ((L.outline (sites.foldl L.visit st)).members.bases type).findSome? find =
      (((L.outline st).members.bases type).findSome? find).or
        (sites.findSome? (L.found? st type find)) := by
  exact read_foldl (fun st => ((L.outline st).members.bases type).findSome? find)
    (fun st s => L.findSome?_bases_visit st type find s)
    (fun st s => L.found?_visit st type find s) sites st

end Search

theorem grown_foldl_visit (st : L.State) (sites : List Site) :
    (L.outline st).Grown (L.outline (sites.foldl L.visit st)) :=
  List.foldlRecOn (motive := fun st' => (L.outline st).Grown (L.outline st')) _ _ (.refl _)
    fun st' h s _ => h.trans (L.grown_visit st' s)

variable {L f root}

/-- What no visit changes is at every place of the walk what it was before. -/
theorem read_stateAt {β : Type} (read : L.State → β)
    (hvisit : ∀ st s, read (L.visit st s) = read st) (n : Nat) :
    read (L.stateAt f root n) = read (L.initialState f root) :=
  foldl_read read hvisit _ _

theorem file_stateAt (n : Nat) : L.file (L.stateAt f root n) = f :=
  (read_stateAt L.file L.file_visit n).trans (L.file_initialState f root)

theorem bases_initialState (type : String) :
    (L.outline (L.initialState f root)).members.bases type = [] := by
  rw [L.outline_initialState, TypeMembers.bases, Outline.supertypes_ofDeclarations]
  rfl

/-- The members that types declare themselves are known from the beginning of the walk. -/
theorem member?_membersAt (n : Nat) (type name : String) :
    (L.membersAt f root n).member? type name = L.ownMember? f root name type := by
  have hinitial : (L.membersAt f root n).member? type name =
      (Outline.ofDeclarations (L.declarations f root)).members.member? type name := by
    rw [TypeMembers.member?, membersAt, stateAt, (L.grown_foldl_visit _ _).members,
      L.outline_initialState]
    rfl
  rw [hinitial, ownMember?]
  split_ifs with h
  · obtain ⟨d, hd, hmember⟩ := h
    cases hid : (Outline.ofDeclarations (L.declarations f root)).members.member? type name with
    | none =>
        rw [Outline.member?_eq_findSome?, List.findSome?_eq_none_iff] at hid
        simpa [Declaration.memberId?, hmember] using hid d hd
    | some id => rw [Outline.member?_ofDeclarations (L.member_id f root) hid]
  · rw [Outline.member?_eq_findSome?, List.findSome?_eq_none_iff]
    intro d hd
    exact if_neg fun hmember => h ⟨d, hd, hmember⟩

/-- Only one site declares a type, if nodes have keys and types have IDs of their own. -/
theorem site_unique (hkeys : (root.sites.map (·.node.key)).Nodup) (hids : (L.typeIds f root).Nodup)
    {s t : Site} (hs : s ∈ root.sites) (ht : t ∈ root.sites) {type : String}
    (hstype : (L.outline (L.initialState f root)).types.get? s.node.key = some type)
    (httype : (L.outline (L.initialState f root)).types.get? t.node.key = some type) : s = t := by
  rw [L.outline_initialState] at hstype httype
  exact List.inj_on_of_nodup_map hkeys hs ht (Outline.key_unique hids hstype httype)

/-- A search that only one element of a list can answer, among the first elements. -/
theorem findSome?_take_of_unique {α β : Type} {xs : List α} (hxs : xs.Nodup) {k : Nat} {x : α}
    (hx : xs[k]? = some x) {find : α → Option β} (hfind : ∀ y ∈ xs, find y ≠ none → y = x)
    (n : Nat) : (xs.take n).findSome? find = if k < n then find x else none := by
  split_ifs with hlt
  · have hmem : x ∈ xs.take n := by
      refine List.mem_iff_getElem?.mpr ⟨k, ?_⟩
      rw [List.getElem?_take, if_pos hlt, hx]
    cases hfound : (xs.take n).findSome? find with
    | none => exact (List.findSome?_eq_none_iff.mp hfound x hmem).symm
    | some b =>
        obtain ⟨y, hy, hyfind⟩ := List.exists_of_findSome?_eq_some hfound
        rw [← hfind y (List.mem_of_mem_take hy) (by simp [hyfind]), hyfind]
  · rw [List.findSome?_eq_none_iff]
    intro y hy
    by_contra hne
    obtain rfl := hfind y (List.mem_of_mem_take hy) hne
    obtain ⟨j, hj⟩ := List.mem_iff_getElem?.mp hy
    rw [List.getElem?_take] at hj
    split_ifs at hj with hjn
    have hlength : j < xs.length := (List.getElem?_eq_some_iff.mp hj).1
    have hjk : j = k := (List.getElem?_inj hlength hxs).mp (hj.trans hx.symm)
    omega

/-- The base is what a search through the listed supertypes comes to. -/
theorem Inherits.findSome?_listed {k : Nat} {type base name : String}
    (h : L.Inherits f root k type base name) {t : Site} (ht : root.sites[k]? = some t) :
    (L.listed (L.initialState f root) t).findSome? (L.ownMember? f root name) =
      some (Ident.member base name) := by
  have hfirst := h.first
  rw [listedAt, ht, Option.map_some, Option.getD_some, List.find?_eq_some_iff_append] at hfirst
  obtain ⟨hbase, earlier, later, heq, hearlier⟩ := hfirst
  rw [List.findSome?_eq_some_iff]
  refine ⟨earlier, base, later, heq, if_pos (of_decide_eq_true hbase), fun c hc => if_neg ?_⟩
  simpa using hearlier c hc

/-- At every place of the walk, the inherited member is found exactly if the declaration of the
type has been visited. -/
theorem resolveMember_membersAt (hkeys : (root.sites.map (·.node.key)).Nodup)
    (hids : (L.typeIds f root).Nodup) {k : Nat} {type base name : String}
    (h : L.Inherits f root k type base name) (n : Nat) :
    (L.membersAt f root n).resolveMember type name =
      if k < n ∧ L.recordsAt root k = true then Ident.member base name
      else Ident.member type name := by
  obtain ⟨t, ht, htype⟩ := Option.bind_eq_some_iff.mp h.declared
  have hrecords : L.recordsAt root k = L.records t := by rw [recordsAt, ht, Option.any_some]
  have hmember : ((L.membersAt f root n).member? · name) = L.ownMember? f root name :=
    funext fun c => member?_membersAt n c name
  -- No other site declares the type, so no other one has a say in the search.
  have hunique : ∀ s ∈ root.sites,
      L.found? (L.initialState f root) type (L.ownMember? f root name) s ≠ none → s = t := by
    intro s hs hfound
    unfold found? at hfound
    split_ifs at hfound with hs'
    · exact site_unique hkeys hids hs (List.mem_of_getElem? ht) hs'.2 htype
    · exact absurd rfl hfound
  have hown : L.ownMember? f root name type = none := if_neg h.own
  unfold TypeMembers.resolveMember
  rw [member?_membersAt, hown, hmember, membersAt, stateAt, findSome?_bases_foldl_visit,
    bases_initialState, List.findSome?_nil, Option.none_or,
    findSome?_take_of_unique (hkeys.of_map _) ht hunique, found?, h.findSome?_listed ht, hrecords]
  by_cases hlt : k < n
  · by_cases hrec : L.records t = true <;> simp [hlt, hrec, htype]
  · simp [hlt]

/-! ### Calls -/

theorem stateAt_succ {n : Nat} {s : Site} (hs : root.sites[n]? = some s) :
    L.stateAt f root (n + 1) = L.visit (L.stateAt f root n) s := by
  rw [stateAt, List.take_add_one, hs, List.foldl_append]
  rfl

/-- A call is linked to the member of each type that its receiver may have. -/
theorem outline_stateAt_succ {n : Nat} {r : Routine} {types : List String} {name : String}
    (hcall : L.callAt? f root n = some (r, types, name)) (hne : types ≠ []) :
    L.outline (L.stateAt f root (n + 1)) = (L.outline (L.stateAt f root n)).link r.id
      (types.map ((L.membersAt f root n).resolveMember · name)) Relation.calls := by
  obtain ⟨s, hs, hcall⟩ := Option.bind_eq_some_iff.mp hcall
  obtain ⟨⟨callable, r'⟩, hroutine, hcall⟩ := Option.bind_eq_some_iff.mp hcall
  obtain ⟨⟨types', name'⟩, hcalled, hcall⟩ := Option.bind_eq_some_iff.mp hcall
  cases hcall
  have hctx : (L.outline (L.stateAt f root n)).context? s =
      some ⟨r.id, r.owner, some callable⟩ := by
    rw [Outline.context?, hroutine]
  rw [stateAt_succ hs]
  exact L.visit_call _ _ s types name hctx hcalled hne

theorem edges_stateAt_subset (n : Nat) :
    (L.outline (L.stateAt f root n)).fragment.edges ⊆ (L.analyze f root).edges := by
  have hgrown := L.grown_foldl_visit (L.stateAt f root n) (root.sites.drop n)
  rw [stateAt, ← List.foldl_append, List.take_append_drop] at hgrown
  exact hgrown.kept

theorem grown_stateAt (n : Nat) :
    (L.outline (L.initialState f root)).Grown (L.outline (L.stateAt f root n)) :=
  L.grown_foldl_visit _ _

/-- What the visit of a site links is in the fragment. -/
theorem mem_edges_of_link {n : Nat} {source target relation : String} {targets : List String}
    (hlink : L.outline (L.stateAt f root (n + 1)) =
      (L.outline (L.stateAt f root n)).link source targets relation) (htarget : target ∈ targets) :
    ⟨source, target, relation⟩ ∈ (L.analyze f root).edges := by
  refine edges_stateAt_subset (n + 1) ?_
  rw [hlink]
  exact Outline.mem_edges_link htarget _

end Linker

end CodeGraph
