import CodeGraph.Proofs.Linking.Sites
import Mathlib.Data.List.Pairwise

/-!
Walks through a tree. A node has an address, which tells the way to it from the root, and a walk
comes to the addresses in the order of a dictionary: to every node once, to a node before what is
below it, and to siblings in their order. The ID that is found at a node by asking its parent, the
parent of that, and so on, is the one that a walk carries down to the node.
-/

namespace CodeGraph.Tree

/-- The way from the root to a node, by the places of children among their siblings. -/
abbrev Address := List Nat

mutual

/-- The addresses of the nodes of a tree in the order of a walk. -/
def addresses : Tree → List Address
  | .node _ cs => [] :: addressesFrom 0 cs

/-- The same for each of some siblings, the first of which has place `i`. -/
def addressesFrom (i : Nat) : List Tree → List Address
  | [] => []
  | t :: ts => (addresses t).map (i :: ·) ++ addressesFrom (i + 1) ts

end

namespace Site

/-- The site to which an address leads from here. -/
def at? (s : Site) : Address → Option Site
  | [] => some s
  | i :: a => s.node.children[i]?.bind fun c => at? ⟨c, s.node :: s.above⟩ a

def parent? (s : Site) : Option Site :=
  s.ancestors.head?

end Site

def siteAt? (root : Tree) (a : Address) : Option Site :=
  Site.at? ⟨root, []⟩ a

mutual

/-- The nodes in the order of a walk, each with the ID that the walk carries when it comes to it.
Behind a registered node the walk carries the ID of that node. -/
def carried (owners : Owners) (owner : Option String) : Tree → List (Tree × Option String)
  | .node i cs => (.node i cs, owner) :: carriedAll owners ((owners.get? i.key).or owner) cs

def carriedAll (owners : Owners) (owner : Option String) : List Tree → List (Tree × Option String)
  | [] => []
  | t :: ts => carried owners owner t ++ carriedAll owners owner ts

end

/-- The addresses of a tree as a walk comes to them. -/
structure IsWalk (root : Tree) (visits : List Address) : Prop where
  all : ∀ a, a ∈ visits ↔ (root.siteAt? a).isSome
  once : visits.Nodup
  parents : ∀ a i, a ++ [i] ∈ visits → [a, a ++ [i]].Sublist visits
  siblings : ∀ a i j, i < j → a ++ [j] ∈ visits → [a ++ [i], a ++ [j]].Sublist visits
  ascending : visits.Pairwise (· < ·)

/-! ### Addresses in order -/

theorem addresses_eq (t : Tree) : t.addresses = [] :: addressesFrom 0 t.children := by
  cases t
  rfl

theorem mem_addressesFrom {i : Nat} {ts : List Tree} {a : Address} :
    a ∈ addressesFrom i ts ↔ ∃ k c b, ts[k]? = some c ∧ b ∈ c.addresses ∧ a = (i + k) :: b := by
  induction ts generalizing i with
  | nil => simp [addressesFrom]
  | cons t ts ih =>
      rw [addressesFrom, List.mem_append, List.mem_map, ih]
      constructor
      · rintro (⟨b, hb, rfl⟩ | ⟨k, c, b, hc, hb, rfl⟩)
        · exact ⟨0, t, b, rfl, hb, rfl⟩
        · exact ⟨k + 1, c, b, hc, hb, by rw [Nat.add_assoc, Nat.add_comm 1]⟩
      · rintro ⟨k, c, b, hc, hb, rfl⟩
        cases k with
        | zero =>
            cases hc
            exact .inl ⟨b, hb, rfl⟩
        | succ k => exact .inr ⟨k, c, b, hc, hb, by rw [Nat.add_assoc, Nat.add_comm 1]⟩

mutual

theorem pairwise_addresses : (t : Tree) → t.addresses.Pairwise (· < ·)
  | .node i cs => by
      rw [addresses]
      refine List.pairwise_cons.mpr ⟨fun a ha => ?_, pairwise_addressesFrom 0 cs⟩
      obtain ⟨k, c, b, -, -, rfl⟩ := mem_addressesFrom.mp ha
      exact List.nil_lt_cons _ _

theorem pairwise_addressesFrom (i : Nat) : (ts : List Tree) →
    (addressesFrom i ts).Pairwise (· < ·)
  | [] => List.Pairwise.nil
  | t :: ts => by
      rw [addressesFrom]
      refine List.pairwise_append.mpr ⟨?_, pairwise_addressesFrom (i + 1) ts, ?_⟩
      · refine List.pairwise_map.mpr ((pairwise_addresses t).imp fun h => ?_)
        exact List.cons_lt_cons_iff.mpr (.inr ⟨rfl, h⟩)
      · intro a ha b hb
        obtain ⟨a, -, rfl⟩ := List.mem_map.mp ha
        obtain ⟨k, c, b, -, -, rfl⟩ := mem_addressesFrom.mp hb
        exact List.cons_lt_cons_iff.mpr (.inl (by omega))

end

theorem lt_concat (a : Address) (i : Nat) : a < a ++ [i] := by
  have h : a ++ [] < a ++ [i] := List.append_left_lt (List.nil_lt_cons i [])
  rwa [List.append_nil] at h

/-- In an ascending list, what is less comes first. -/
theorem sublist_of_lt {visits : List Address} (h : visits.Pairwise (· < ·)) {a b : Address}
    (ha : a ∈ visits) (hb : b ∈ visits) (hab : a < b) : [a, b].Sublist visits := by
  obtain ⟨before, after, rfl⟩ := List.append_of_mem ha
  obtain ⟨-, hafter, hbefore⟩ := List.pairwise_append.mp h
  have hmem : b ∈ after := by
    rcases List.mem_append.mp hb with hb | hb
    · exact absurd (hbefore b hb a List.mem_cons_self) (List.lt_asymm hab)
    · rcases List.mem_cons.mp hb with rfl | hb
      · exact absurd hab (List.lt_irrefl _)
      · exact hb
  exact (List.singleton_sublist.mpr hmem).cons_cons a |>.trans (List.sublist_append_right ..)

/-! ### Addresses and sites -/

namespace Site

theorem at?_append (s : Site) (a b : Address) : s.at? (a ++ b) = (s.at? a).bind (·.at? b) := by
  induction a generalizing s with
  | nil => rfl
  | cons i a ih =>
      rw [List.cons_append, at?, at?, Option.bind_assoc]
      exact congrArg _ (funext fun c => ih _)

/-- What one more step comes to is a child of what was come to before. -/
theorem at?_concat_eq_some_iff {s c : Site} {a : Address} {i : Nat} :
    s.at? (a ++ [i]) = some c ↔
      ∃ p, s.at? a = some p ∧ p.node.children[i]? = some c.node ∧ c.parent? = some p := by
  rw [at?_append, Option.bind_eq_some_iff]
  refine exists_congr fun p => and_congr_right fun _ => ?_
  rw [at?, Option.bind_eq_some_iff]
  constructor
  · rintro ⟨t, ht, hc⟩
    cases hc
    exact ⟨ht, rfl⟩
  · rintro ⟨ht, hparent⟩
    refine ⟨_, ht, ?_⟩
    obtain ⟨t, above⟩ := c
    cases above with
    | nil => cases hparent
    | cons u above =>
        cases hparent
        rfl

theorem isSome_at?_concat {s : Site} {a : Address} {i : Nat} :
    (s.at? (a ++ [i])).isSome ↔ ∃ p, s.at? a = some p ∧ i < p.node.children.length := by
  rw [at?_append, Option.isSome_iff_exists]
  constructor
  · rintro ⟨c, hc⟩
    obtain ⟨p, hp, hc⟩ := Option.bind_eq_some_iff.mp hc
    obtain ⟨t, ht, -⟩ := Option.bind_eq_some_iff.mp hc
    exact ⟨p, hp, (List.getElem?_eq_some_iff.mp ht).1⟩
  · rintro ⟨p, hp, hi⟩
    rw [hp, Option.bind_some, at?, List.getElem?_eq_getElem hi]
    exact ⟨_, rfl⟩

end Site

/-- The addresses of a tree are those that lead somewhere. -/
theorem mem_addresses (above : List Tree) {t : Tree} {a : Address} :
    a ∈ t.addresses ↔ (Site.at? ⟨t, above⟩ a).isSome := by
  induction a generalizing above t with
  | nil =>
      rw [addresses_eq]
      exact iff_of_true List.mem_cons_self rfl
  | cons i a ih =>
      rw [addresses_eq, List.mem_cons, or_iff_right (List.cons_ne_nil i a), mem_addressesFrom,
        Option.isSome_iff_exists]
      constructor
      · rintro ⟨k, c, b, hc, hb, heq⟩
        obtain ⟨hk, rfl⟩ := List.cons.inj heq
        rw [Nat.zero_add] at hk
        obtain ⟨s, hs⟩ := Option.isSome_iff_exists.mp ((ih _).mp hb)
        exact ⟨s, Option.bind_eq_some_iff.mpr ⟨c, hk ▸ hc, hs⟩⟩
      · rintro ⟨s, hs⟩
        obtain ⟨c, hc, hs⟩ := Option.bind_eq_some_iff.mp hs
        have hb := (ih _).mpr (Option.isSome_iff_exists.mpr ⟨s, hs⟩)
        exact ⟨i, c, a, hc, hb, by rw [Nat.zero_add]⟩

mutual

/-- A walk comes to the sites that the addresses lead to, in their order. -/
theorem map_at?_addresses (above : List Tree) :
    (t : Tree) → t.addresses.map (Site.at? ⟨t, above⟩) = (sitesUnder above t).map some
  | .node i cs => by
      rw [addresses, sitesUnder, List.map_cons, List.map_cons]
      exact congrArg _ (map_at?_addressesFrom ⟨.node i cs, above⟩ 0 cs rfl)

theorem map_at?_addressesFrom (s : Site) (i : Nat) :
    (ts : List Tree) → s.node.children.drop i = ts →
      (addressesFrom i ts).map s.at? = (sitesUnderAll (s.node :: s.above) ts).map some
  | [], _ => rfl
  | t :: ts, h => by
      have hchild : s.node.children[i]? = some t := by
        rw [← List.head?_drop, h, List.head?_cons]
      have hlater : s.node.children.drop (i + 1) = ts := by
        rw [← List.tail_drop, h, List.tail_cons]
      have hfirst : s.at? ∘ (i :: ·) = Site.at? ⟨t, s.node :: s.above⟩ := by
        funext a
        rw [Function.comp_apply, Site.at?, hchild, Option.bind_some]
      rw [addressesFrom, sitesUnderAll, List.map_append, List.map_append, List.map_map, hfirst,
        map_at?_addresses _ t, map_at?_addressesFrom s (i + 1) ts hlater]

end

theorem isWalk_addresses (root : Tree) : IsWalk root root.addresses where
  all _ := mem_addresses []
  once := (pairwise_addresses root).nodup
  parents a i h := by
    obtain ⟨p, hp, -⟩ := Site.isSome_at?_concat.mp ((mem_addresses []).mp h)
    refine sublist_of_lt (pairwise_addresses root) ?_ h ?_
    · exact (mem_addresses []).mpr (Option.isSome_iff_exists.mpr ⟨p, hp⟩)
    · exact lt_concat a i
  siblings a i j hij h := by
    obtain ⟨p, hp, hj⟩ := Site.isSome_at?_concat.mp ((mem_addresses []).mp h)
    refine sublist_of_lt (pairwise_addresses root) ?_ h ?_
    · exact (mem_addresses []).mpr (Site.isSome_at?_concat.mpr ⟨p, hp, Nat.lt_trans hij hj⟩)
    · exact List.append_left_lt (List.cons_lt_cons_iff.mpr (.inl hij))
  ascending := pairwise_addresses root

/-! ### What a walk carries -/

/-- The ID of a node comes before those of the nodes around it. -/
theorem findSome?_owners_cons (owners : Owners) (t : Tree) (above : List Tree) :
    (t :: above).findSome? (owners.get? ·.key) =
      (owners.get? t.key).or (above.findSome? (owners.get? ·.key)) := by
  rw [← List.singleton_append, List.findSome?_append, List.findSome?_singleton]

mutual

/-- What a walk carries to a node is what is found around the node. -/
theorem carried_eq (owners : Owners) (above : List Tree) :
    (t : Tree) → carried owners (above.findSome? (owners.get? ·.key)) t =
      (sitesUnder above t).map fun s => (s.node, s.enclosing? owners)
  | .node i cs => by
      have hinside := findSome?_owners_cons owners (.node i cs) above
      rw [carried, sitesUnder, List.map_cons, ← carriedAll_eq owners _ cs, hinside]
      rfl

theorem carriedAll_eq (owners : Owners) (above : List Tree) :
    (ts : List Tree) → carriedAll owners (above.findSome? (owners.get? ·.key)) ts =
      (sitesUnderAll above ts).map fun s => (s.node, s.enclosing? owners)
  | [] => rfl
  | t :: ts => by
      rw [carriedAll, sitesUnderAll, List.map_append, carried_eq owners above t,
        carriedAll_eq owners above ts]

end

namespace Site

/-- An ID is looked for at the parent, and then around the parent. -/
theorem enclosing?_eq_bind_parent? (s : Site) (owners : Owners) :
    s.enclosing? owners =
      s.parent?.bind fun p => (owners.get? p.node.key).or (p.enclosing? owners) := by
  obtain ⟨t, above⟩ := s
  cases above with
  | nil => rfl
  | cons p above => exact findSome?_owners_cons owners p above

/-- The ID is the last one on the way from the root. -/
theorem enclosing?_eq_getLast? (s : Site) (owners : Owners) :
    s.enclosing? owners = (s.above.reverse.filterMap (owners.get? ·.key)).getLast? := by
  rw [List.filterMap_reverse, List.getLast?_reverse, List.head?_filterMap]
  rfl

theorem enclosing?_eq_none_iff {s : Site} {owners : Owners} :
    s.enclosing? owners = none ↔ ∀ t ∈ s.above, owners.get? t.key = none :=
  List.findSome?_eq_none_iff

end Site

/-- The ID that is found around a node is the one that a walk carries when it comes to the node.
It is looked for at the parent, then at the parent of that; it is the last ID on the way from the
root to the node, without the node itself; and there is none exactly if no node on the way has
one. The walk comes to every address of the tree once, to a node after its parent and before its
later siblings. -/
theorem enclosing_ids_are_carried (root : Tree) (owners : Owners) :
    (root.sites.map fun s => (s.node, s.enclosing? owners)) = root.carried owners none ∧
      (∀ s : Site,
        s.enclosing? owners =
            (s.parent?.bind fun p => (owners.get? p.node.key).or (p.enclosing? owners)) ∧
          s.enclosing? owners = (s.above.reverse.filterMap (owners.get? ·.key)).getLast? ∧
          (s.enclosing? owners = none ↔ ∀ t ∈ s.above, owners.get? t.key = none)) ∧
      root.sites.map Site.node = root.preorder ∧
      root.sites.map some = root.addresses.map root.siteAt? ∧
      IsWalk root root.addresses ∧
      root.siteAt? [] = some ⟨root, []⟩ ∧
      (∀ a i c, root.siteAt? (a ++ [i]) = some c ↔
        ∃ p, root.siteAt? a = some p ∧ p.node.children[i]? = some c.node ∧ c.parent? = some p) := by
  refine ⟨(carried_eq owners [] root).symm, fun s => ⟨?loop, ?last, ?none⟩,
    map_node_sitesUnder [] root, (map_at?_addresses [] root).symm, isWalk_addresses root, rfl,
    fun a i c => Site.at?_concat_eq_some_iff⟩
  case loop => exact s.enclosing?_eq_bind_parent? owners
  case last => exact s.enclosing?_eq_getLast? owners
  case none => exact Site.enclosing?_eq_none_iff

-- The owner of a method does not own itself, and after the method its class is the owner again.
example :
    let method : Tree := .node { kind := "method", key := 2 } [leaf "call" "" 3 0 0]
    let type : Tree := .node { kind := "class", key := 1 } [method, leaf "field" "" 4 0 0]
    type.sites.map (·.enclosing? ⟨[(1, "A"), (2, "A:f")]⟩) =
      [none, some "A", some "A:f", some "A"] := by
  decide

end CodeGraph.Tree
