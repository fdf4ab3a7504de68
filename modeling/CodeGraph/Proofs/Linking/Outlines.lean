import CodeGraph.Proofs.Closure.Outlines
import CodeGraph.Proofs.Graph.Declared
import Mathlib.Data.List.Nodup
import Mathlib.Data.List.Pairwise

/-!
What the tables of an outline hold. After the declarations of a file are recorded, a member is found
under its owner and its name, a field has the type of its first declaration, and no type has
supertypes yet.
-/

namespace CodeGraph

/-! ### After recording -/

namespace Declaration

def member? : Declaration → Option (String × String)
  | routine _ name _ (some owner) => some (owner, name)
  | field name _ owner _ => some (owner, name)
  | _ => none

/-- The declared type, if this is the field of an owner with a name. -/
def fieldType? (owner name : String) : Declaration → Option String
  | field name' _ owner' typeText => if (owner, name) = (owner', name') then some typeText else none
  | _ => none

/-- The ID of the node, if this is the member of an owner with a name. -/
def memberId? (owner name : String) (d : Declaration) : Option String :=
  if d.member? = some (owner, name) then some d.node.id else none

def typeAt? (key : Nat) : Declaration → Option String
  | type key' _ n _ => if key = key' then some n.id else none
  | _ => none

def type? : Declaration → Option (String × String)
  | type _ name n _ => some (name, n.id)
  | _ => none

def typeId? (d : Declaration) : Option String :=
  d.type?.map (·.2)

end Declaration

namespace Outline

theorem members_markIf (m : TypeMembers) (isInterface : Bool) (id : String) :
    (markIf m isInterface id).members = m.members ∧
      (markIf m isInterface id).fieldTypes = m.fieldTypes ∧
        (markIf m isInterface id).supertypes = m.supertypes := by
  unfold markIf TypeMembers.markInterface
  split_ifs <;> exact ⟨rfl, rfl, rfl⟩

/-- What a table of the outline holds: the entry of the first declaration that has one. -/
theorem read_ofDeclarations {α : Type} (read : Outline → Option α) {entry : Declaration → Option α}
    (hempty : read {} = none) (hrecord : ∀ o d, read (o.record d) = (read o).or (entry d))
    (ds : List Declaration) : read (ofDeclarations ds) = ds.findSome? entry := by
  rw [ofDeclarations, read_foldl read hrecord (fun _ _ => rfl), hempty, Option.none_or]

theorem member?_eq_findSome? (ds : List Declaration) (owner name : String) :
    (ofDeclarations ds).members.member? owner name =
      ds.findSome? (Declaration.memberId? owner name) := by
  refine read_ofDeclarations (fun o => o.members.members.get? (owner, name)) rfl ?_ ds
  intro o d
  have hbind (owner' name' id : String) :
      (o.members.members.bind (owner', name') id).get? (owner, name) =
        (o.members.members.get? (owner, name)).or
          (if some (owner', name') = some (owner, name) then some id else none) := by
    simp only [Bindings.get?_bind, Option.some_inj, eq_comm]
  cases d with
  | type key name' n isInterface =>
      rw [record, (members_markIf o.members isInterface n.id).1]
      exact (Option.or_none ..).symm
  | routine key name' n owner' =>
      cases owner' with
      | none => exact (Option.or_none ..).symm
      | some owner' => exact hbind owner' name' n.id
  | field name' n owner' typeText => exact hbind owner' name' n.id
  | global name' n => exact (Option.or_none ..).symm

/-- Members keep the IDs that they have in their declarations. -/
theorem member?_ofDeclarations {ds : List Declaration}
    (hds : ∀ d ∈ ds, ∀ owner name, d.member? = some (owner, name) →
      d.node.id = Ident.member owner name) {owner name id : String}
    (h : (ofDeclarations ds).members.member? owner name = some id) :
    id = Ident.member owner name := by
  rw [member?_eq_findSome?] at h
  obtain ⟨d, hd, hid⟩ := List.exists_of_findSome?_eq_some h
  obtain ⟨hmember, hid⟩ := Option.ite_none_right_eq_some.mp hid
  cases hid
  exact hds d hd owner name hmember

/-- A field has the type of its first declaration. -/
theorem fieldType?_ofDeclarations (ds : List Declaration) (owner name : String) :
    (ofDeclarations ds).members.fieldType? owner name =
      ds.findSome? (Declaration.fieldType? owner name) := by
  refine read_ofDeclarations (fun o => o.members.fieldTypes.get? (owner, name)) rfl ?_ ds
  intro o d
  cases d with
  | type key name' n isInterface =>
      rw [record, (members_markIf o.members isInterface n.id).2.1]
      exact (Option.or_none ..).symm
  | routine key name' n owner' => cases owner' <;> exact (Option.or_none ..).symm
  | field name' n owner' typeText => exact Bindings.get?_bind ..
  | global name' n => exact (Option.or_none ..).symm

theorem types_eq_findSome? (ds : List Declaration) (key : Nat) :
    (ofDeclarations ds).types.get? key = ds.findSome? (Declaration.typeAt? key) := by
  refine read_ofDeclarations (fun o => o.types.get? key) rfl ?_ ds
  intro o d
  cases d with
  | type key' name n isInterface => exact Bindings.get?_bind ..
  | routine key' name n owner => cases owner <;> exact (Option.or_none ..).symm
  | field name n owner typeText => exact (Option.or_none ..).symm
  | global name n => exact (Option.or_none ..).symm

/-- A type is known under the key of its declaration. -/
theorem type_mem_of_get? {ds : List Declaration} {key : Nat} {id : String}
    (h : (ofDeclarations ds).types.get? key = some id) :
    ∃ name n isInterface, Declaration.type key name n isInterface ∈ ds ∧ n.id = id := by
  rw [types_eq_findSome?] at h
  obtain ⟨d, hd, hid⟩ := List.exists_of_findSome?_eq_some h
  cases d with
  | type key' name n isInterface =>
      obtain ⟨rfl, heq⟩ := Option.ite_none_right_eq_some.mp hid
      cases heq
      exact ⟨name, n, isInterface, hd, rfl⟩
  | routine => cases hid
  | field => cases hid
  | global => cases hid

/-- A type is known by the ID of its declaration. -/
theorem types_ofDeclarations {ds : List Declaration} {key : Nat} {id : String}
    (h : (ofDeclarations ds).types.get? key = some id) :
    ∃ d ∈ ds, ∃ name, d.type? = some (name, id) := by
  obtain ⟨name, n, isInterface, hd, rfl⟩ := type_mem_of_get? h
  exact ⟨_, hd, name, rfl⟩

/-- A type is known under one key, if types have IDs of their own. -/
theorem key_unique {ds : List Declaration} (hds : (ds.filterMap Declaration.typeId?).Nodup)
    {key key' : Nat} {id : String} (h : (ofDeclarations ds).types.get? key = some id)
    (h' : (ofDeclarations ds).types.get? key' = some id) : key = key' := by
  obtain ⟨name, n, isInterface, hd, hid⟩ := type_mem_of_get? h
  obtain ⟨name', n', isInterface', hd', hid'⟩ := type_mem_of_get? h'
  let Same (d d' : Declaration) : Prop := d.typeId? = some id → d'.typeId? = some id → d = d'
  have hsymm : Std.Symm Same := ⟨fun d d' h hd' hd => (h hd hd').symm⟩
  have hpairs : ds.Pairwise Same :=
    (List.pairwise_filterMap.mp hds).imp fun hne hid hid' => absurd rfl (hne id hid id hid')
  have heq := hpairs.forall_of_forall (fun _ _ _ _ => rfl) hd hd' (congrArg some hid)
    (congrArg some hid')
  cases heq
  rfl

theorem supertypes_ofDeclarations (ds : List Declaration) :
    (ofDeclarations ds).members.supertypes = [] := by
  refine List.foldlRecOn (motive := fun o : Outline => o.members.supertypes = []) ds record rfl
    fun o ho d _ => ?_
  cases d with
  | type key name n isInterface => exact (members_markIf o.members isInterface n.id).2.2.trans ho
  | routine key name n owner => cases owner <;> exact ho
  | field => exact ho
  | global => exact ho

/-! ### After linking -/

/-- In an analysis that records declarations and then visits one site after the other, every
declaration has its node. -/
theorem id_mem_foldl_of_linked {σ α : Type} (outline : σ → Outline) {visit : σ → α → σ}
    (hvisit : ∀ st x, (outline st).Linked (outline (visit st x))) {st : σ}
    {ds : List Declaration} (hst : outline st = ofDeclarations ds) (xs : List α)
    {d : Declaration} (hd : d ∈ ds) :
    d.node.id ∈ (outline (xs.foldl visit st)).fragment.ids := by
  have hlinked := Linked.foldl outline (fun st x (_ : x ∈ xs) => hvisit st x) st
  rw [Fragment.ids, hlinked.nodes, hst]
  exact id_mem_ofDeclarations hd

/-- Linking leaves the routines around a site as they are. -/
theorem Grown.routinesAt_eq {o o' : Outline} (h : o.Grown o') (s : Tree.Site) :
    o'.routinesAt s = o.routinesAt s := by
  rw [routinesAt, h.routines]
  rfl

/-- Linking leaves the context of a reference as it is. -/
theorem Grown.context?_eq {o o' : Outline} (h : o.Grown o') (s : Tree.Site) :
    o'.context? s = o.context? s := by
  rw [context?, routineAround?, h.types, h.routines]
  rfl

theorem mem_edges_link {source target relation : String} {targets : List String}
    (h : target ∈ targets) (o : Outline) :
    ⟨source, target, relation⟩ ∈ (o.link source targets relation).fragment.edges := by
  rw [link, Fragment.addEdges_eq_addAll]
  exact Fragment.mem_edges_addAll.mpr (.inr (List.mem_map_of_mem h))

end Outline

end CodeGraph
