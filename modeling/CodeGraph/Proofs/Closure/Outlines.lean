import CodeGraph.Outline
import CodeGraph.Proofs.Graph.Fragments
import Mathlib.Data.List.Basic

/-!
Outlines and closed fragments. Recording declarations keeps an invariant: the fragment is closed,
and every type and routine that a later reference may be attributed to has its node. Linking
references then only adds edges that start at such an entity or lead to a supertype, so it keeps
the fragment closed. It also takes no edge away and leaves the members of all types as they are.
-/

namespace CodeGraph

/-! ### Tables of IDs -/

namespace Bindings

variable {κ α : Type} [DecidableEq κ]

theorem get?_bind (t : Bindings κ α) (key : κ) (value : α) (k : κ) :
    (t.bind key value).get? k = (t.get? k).or (if k = key then some value else none) := by
  unfold bind
  split
  case isTrue h =>
    by_cases hk : k = key
    · subst hk
      obtain ⟨v, hv⟩ := Option.isSome_iff_exists.mp h
      rw [hv, Option.some_or]
    · rw [if_neg hk, Option.or_none]
  case isFalse =>
    have hlast : List.lookup k [(key, value)] = if k = key then some value else none := by
      by_cases hk : k = key
      · simp [hk]
      · simp [List.lookup_cons, beq_false_of_ne hk, hk]
    rw [get?, List.lookup_append, hlast, get?]

/-- Of bindings one after the other, the first one of a key counts. -/
theorem get?_foldl_bind {β : Type} (key : β → κ) (value : β → α) (xs : List β)
    (t : Bindings κ α) (k : κ) :
    (xs.foldl (fun t x => t.bind (key x) (value x)) t).get? k =
      (t.get? k).or ((xs.find? fun x => key x = k).map value) := by
  induction xs generalizing t with
  | nil => simp
  | cons x xs ih =>
      rw [List.foldl_cons, ih, get?_bind, Option.or_assoc, List.find?_cons]
      by_cases hx : key x = k
      · simp [hx]
      · rw [if_neg fun h => hx h.symm, decide_eq_false hx, Option.none_or]

/-- Every value of the table has its ID in a list. -/
def Within (t : Bindings κ α) (id : α → String) (ids : List String) : Prop :=
  ∀ key value, t.get? key = some value → id value ∈ ids

variable {t : Bindings κ α} {id : α → String} {ids ids' : List String}

theorem within_empty : Within ({} : Bindings κ α) id ids := by
  intro key value h
  cases h

theorem Within.mono (h : t.Within id ids) (hids : ids ⊆ ids') : t.Within id ids' :=
  fun key value hv => hids (h key value hv)

theorem Within.bind (h : t.Within id ids) {key : κ} {value : α} (hvalue : id value ∈ ids) :
    (t.bind key value).Within id ids := by
  intro k v hv
  rw [get?_bind, Option.or_eq_some_iff] at hv
  rcases hv with hv | ⟨-, hv⟩
  · exact h k v hv
  · split at hv
    · cases hv
      exact hvalue
    · cases hv

end Bindings

namespace Outline

/-! ### Recording declarations -/

/-- The fragment is closed, and what references can be attributed to has its node. -/
structure Closed (o : Outline) : Prop where
  fragment : o.fragment.Closed
  types : o.types.Within (fun id => id) o.fragment.ids
  routines : o.routines.Within Routine.id o.fragment.ids

theorem closed_empty : Closed {} :=
  ⟨Fragment.closed_empty, Bindings.within_empty, Bindings.within_empty⟩

variable {o o' o'' : Outline}

theorem Closed.record (h : o.Closed) (d : Declaration) : (o.record d).Closed := by
  cases d with
  | type key name node isInterface =>
      have hsub := Fragment.ids_subset_addNode (f := o.fragment) node
      exact
        { fragment := h.fragment.addNode node
          types := (h.types.mono hsub).bind (Fragment.id_mem_addNode node)
          routines := h.routines.mono hsub }
  | routine key name node owner =>
      cases owner with
      | none =>
          have hsub := Fragment.ids_subset_addNode (f := o.fragment) node
          exact
            { fragment := h.fragment.addNode node
              types := h.types.mono hsub
              routines := (h.routines.mono hsub).bind (Fragment.id_mem_addNode node) }
      | some owner =>
          have hsub := Fragment.ids_subset_addMember (f := o.fragment) node owner
            Relation.hasMethod
          exact
            { fragment := h.fragment.addMember node owner (by decide)
              types := h.types.mono hsub
              routines := (h.routines.mono hsub).bind (Fragment.id_mem_addMember node owner _) }
  | field name node owner typeText =>
      have hsub := Fragment.ids_subset_addMember (f := o.fragment) node owner Relation.defines
      exact
        { fragment := h.fragment.addMember node owner (by decide)
          types := h.types.mono hsub
          routines := h.routines.mono hsub }
  | global name node =>
      have hsub := Fragment.ids_subset_addNode (f := o.fragment) node
      exact
        { fragment := h.fragment.addNode node
          types := h.types.mono hsub
          routines := h.routines.mono hsub }

theorem closed_ofDeclarations (ds : List Declaration) : (ofDeclarations ds).Closed :=
  List.foldlRecOn ds record closed_empty fun _ h d _ => h.record d

/-! ### Linking references -/

/-- An ID that a declaration has given to a type or a routine. -/
def Declares (o : Outline) (id : String) : Prop :=
  (∃ key, o.types.get? key = some id) ∨ ∃ key r, o.routines.get? key = some r ∧ r.id = id

/-- The edges that a reference may give: from a declared entity, or to a supertype. -/
def Refers (o : Outline) (e : Edge) : Prop :=
  (e.relation ∈ Relation.outgoing ∧ o.Declares e.source) ∨ e.relation ∈ Relation.supertyping

/-- The second outline is the first one with references linked. -/
structure Linked (o o' : Outline) : Prop where
  nodes : o'.fragment.nodes = o.fragment.nodes
  types : o'.types = o.types
  routines : o'.routines = o.routines
  edges : ∀ e ∈ o'.fragment.edges, e ∈ o.fragment.edges ∨ o.Refers e

theorem Linked.refl (o : Outline) : o.Linked o :=
  ⟨rfl, rfl, rfl, fun _ => Or.inl⟩

theorem Linked.refers_iff (h : o.Linked o') (e : Edge) : o'.Refers e ↔ o.Refers e := by
  rw [Refers, Refers, Declares, Declares, h.types, h.routines]

theorem Linked.trans (h : o.Linked o') (h' : o'.Linked o'') : o.Linked o'' := by
  refine ⟨h'.nodes.trans h.nodes, h'.types.trans h.types, h'.routines.trans h.routines, ?_⟩
  intro e he
  -- The tables have not changed, so a reference of the second outline is one of the first.
  rcases h'.edges e he with he | he
  · exact h.edges e he
  · exact .inr ((h.refers_iff e).mp he)

/-- Steps that link references, one after the other, on a state that holds the outline. -/
theorem Linked.foldl {σ α : Type} (outline : σ → Outline) {step : σ → α → σ} {xs : List α}
    (hstep : ∀ st, ∀ x ∈ xs, (outline st).Linked (outline (step st x))) (st : σ) :
    (outline st).Linked (outline (xs.foldl step st)) :=
  List.foldlRecOn (motive := fun st' => (outline st).Linked (outline st')) xs step (.refl _)
    fun st' h x hx => h.trans (hstep st' x hx)

theorem linked_link {source relation : String} {targets : List String}
    (h : ∀ target, o.Refers ⟨source, target, relation⟩) :
    o.Linked (o.link source targets relation) := by
  have hfragment : (o.link source targets relation).fragment =
      o.fragment.addAll (targets.map fun target => ⟨source, target, relation⟩) :=
    Fragment.addEdges_eq_addAll ..
  refine ⟨?_, rfl, rfl, ?_⟩
  · rw [hfragment, Fragment.nodes_addAll]
  · intro e he
    rw [hfragment, Fragment.mem_edges_addAll, List.mem_map] at he
    rcases he with he | ⟨target, -, rfl⟩
    · exact .inl he
    · exact .inr (h target)

theorem linked_link_of_declares {source relation : String} (hsource : o.Declares source)
    (hrelation : relation ∈ Relation.outgoing) (targets : List String) :
    o.Linked (o.link source targets relation) :=
  linked_link fun _ => .inl ⟨hrelation, hsource⟩

theorem linked_link_of_supertyping {relation : String}
    (hrelation : relation ∈ Relation.supertyping) (source : String) (targets : List String) :
    o.Linked (o.link source targets relation) :=
  linked_link fun _ => .inr hrelation

theorem linked_addBase {relation : String} (hrelation : relation ∈ Relation.supertyping)
    (type base : String) : o.Linked (o.addBase relation type base) := by
  refine ⟨Fragment.nodes_addEdge .., rfl, rfl, ?_⟩
  intro e he
  rcases Fragment.mem_edges_addEdge.mp he with he | rfl
  · exact .inl he
  · exact .inr (.inr hrelation)

/-- A reference is attributed to a declared entity. -/
theorem declares_of_context? {s : Tree.Site} {ctx : Context} (h : o.context? s = some ctx) :
    o.Declares ctx.source := by
  unfold context? at h
  split at h
  case h_1 site r hr =>
    cases h
    obtain ⟨a, -, ha⟩ := List.exists_of_findSome?_eq_some hr
    obtain ⟨r', hget, hpair⟩ := Option.map_eq_some_iff.mp ha
    cases hpair
    exact .inr ⟨site.node.key, r, hget, rfl⟩
  case h_2 =>
    obtain ⟨id, hid, rfl⟩ := Option.map_eq_some_iff.mp h
    obtain ⟨t, -, ht⟩ := List.exists_of_findSome?_eq_some hid
    exact .inl ⟨t.key, ht⟩

/-! ### What linking keeps -/

/-- The second outline is the first one with references linked: nothing is lost, no members are
added, and only types of the file get supertypes. -/
structure Grown (o o' : Outline) : Prop extends Linked o o' where
  kept : o.fragment.edges ⊆ o'.fragment.edges
  members : o'.members.members = o.members.members
  fieldTypes : o'.members.fieldTypes = o.members.fieldTypes
  supertypes : ∀ pair ∈ o'.members.supertypes,
    pair ∈ o.members.supertypes ∨ ∃ key, o.types.get? key = some pair.1

theorem Grown.refl (o : Outline) : o.Grown o :=
  { Linked.refl o with
    kept := List.Subset.refl _
    members := rfl
    fieldTypes := rfl
    supertypes := fun _ => Or.inl }

theorem Grown.trans (h : o.Grown o') (h' : o'.Grown o'') : o.Grown o'' :=
  { h.toLinked.trans h'.toLinked with
    kept := List.Subset.trans h.kept h'.kept
    members := h'.members.trans h.members
    fieldTypes := h'.fieldTypes.trans h.fieldTypes
    supertypes := by
      intro pair hpair
      rcases h'.supertypes pair hpair with hpair | hkey
      · exact h.supertypes pair hpair
      · exact .inr (h.types ▸ hkey) }

theorem edges_subset_link (o : Outline) (source : String) (targets : List String)
    (relation : String) : o.fragment.edges ⊆ (o.link source targets relation).fragment.edges := by
  intro e he
  rw [link, Fragment.addEdges_eq_addAll]
  exact Fragment.mem_edges_addAll.mpr (.inl he)

theorem Linked.grown_link {source relation : String} {targets : List String}
    (h : o.Linked (o.link source targets relation)) : o.Grown (o.link source targets relation) :=
  { h with
    kept := edges_subset_link o source targets relation
    members := rfl
    fieldTypes := rfl
    supertypes := fun _ => Or.inl }

theorem grown_link {source relation : String} (hsource : o.Declares source)
    (hrelation : relation ∈ Relation.outgoing) (targets : List String) :
    o.Grown (o.link source targets relation) :=
  (linked_link_of_declares hsource hrelation targets).grown_link

theorem grown_addBase {relation type : String} (hrelation : relation ∈ Relation.supertyping)
    (htype : ∃ key, o.types.get? key = some type) (base : String) :
    o.Grown (o.addBase relation type base) := by
  have hmembers : (o.members.addBase type base).members = o.members.members ∧
      (o.members.addBase type base).fieldTypes = o.members.fieldTypes := by
    unfold TypeMembers.addBase
    split <;> exact ⟨rfl, rfl⟩
  refine
    { linked_addBase hrelation type base with
      kept := fun e he => Fragment.mem_edges_addEdge.mpr (.inl he)
      members := hmembers.1
      fieldTypes := hmembers.2
      supertypes := fun pair hpair => ?_ }
  have hcases : pair ∈ o.members.supertypes ∨ pair = (type, base) := by
    have hpair : pair ∈ (o.members.addBase type base).supertypes := hpair
    unfold TypeMembers.addBase at hpair
    split at hpair
    · exact .inl hpair
    · exact (List.mem_append.mp hpair).imp_right List.mem_singleton.mp
  rcases hcases with hpair | rfl
  · exact .inl hpair
  · exact .inr htype

/-- Supertypes of one type of the file, one after the other. -/
theorem grown_foldl_addBase {α : Type} {type : String} (relation base : α → String) {xs : List α}
    (hrelation : ∀ x ∈ xs, relation x ∈ Relation.supertyping)
    (htype : ∃ key, o.types.get? key = some type) :
    o.Grown (xs.foldl (fun o x => o.addBase (relation x) type (base x)) o) := by
  refine List.foldlRecOn (motive := o.Grown) _ _ (.refl o) fun o' h x hx => ?_
  exact h.trans (grown_addBase (hrelation x hx) (h.types ▸ htype) (base x))

theorem grown_linkField {ctx : Context} (hctx : o.Declares ctx.source) (name : String) :
    o.Grown (o.linkField ctx name) := by
  unfold linkField
  split
  · exact .refl o
  · split
    -- Only a field of the type around the reference is linked.
    · exact grown_link hctx (by decide) _
    · exact .refl o

theorem grown_linkFieldUse {ctx : Context} (hctx : o.Declares ctx.source) (locals : Locals)
    (use : FieldUse) (name : String) : o.Grown (o.linkFieldUse ctx locals use name) := by
  cases use with
  | none => exact .refl o
  | bare =>
      unfold linkFieldUse
      dsimp only
      split
      · exact .refl o
      · exact grown_linkField hctx name
  | ofThis => exact grown_linkField hctx name

/-! ### Closed after linking -/

theorem Closed.mem_ids_of_declares (h : o.Closed) {id : String} (hid : o.Declares id) :
    id ∈ o.fragment.ids := by
  rcases hid with ⟨key, hkey⟩ | ⟨key, r, hkey, rfl⟩
  · exact h.types key id hkey
  · exact h.routines key r hkey

theorem Closed.of_linked (h : o.Closed) (hlink : o.Linked o') : o'.fragment.Closed := by
  intro e he
  rw [Fragment.ids, hlink.nodes]
  rcases hlink.edges e he with he | ⟨hrelation, hsource⟩ | hrelation
  · exact h.fragment e he
  · exact Edge.anchored_of_outgoing hrelation (h.mem_ids_of_declares hsource)
  · exact Edge.anchored_of_supertyping hrelation

/-- An analysis that records declarations and then visits one site after the other. -/
theorem closed_foldl_of_linked {σ α : Type} (outline : σ → Outline) {visit : σ → α → σ}
    (hvisit : ∀ st x, (outline st).Linked (outline (visit st x))) {st : σ}
    {ds : List Declaration} (hst : outline st = ofDeclarations ds) (xs : List α) :
    (outline (xs.foldl visit st)).fragment.Closed := by
  have hclosed : (outline st).Closed := by
    rw [hst]
    exact closed_ofDeclarations ds
  exact hclosed.of_linked (Linked.foldl outline (fun st x _ => hvisit st x) st)

end Outline

end CodeGraph
