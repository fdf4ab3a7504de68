import CodeGraph.Proofs.Linking.Sites
import Mathlib.Data.List.Flatten
import Mathlib.Logic.Relation

/-!
Searches through a tree. A search goes from a node to its children, to its body or to what stands in
the body, and carries along the type that owns what it finds there. It finds something at each place
that it comes to and, as it only ever goes down, comes to no node twice. The analyses look for the
definitions of a file in this way, each with a family of functions that call each other; what such a
family gives is what one search finds.
-/

namespace CodeGraph.Tree

theorem sizeOf_lt_of_mem_children {t c : Tree} (h : c ∈ t.children) : sizeOf c < sizeOf t := by
  cases t with
  | node i cs =>
      have hlt := List.sizeOf_lt_of_mem (show c ∈ cs from h)
      rw [Tree.node.sizeOf_spec]
      omega

/-- A condition that goes from a node of a tree to all nodes below it. -/
def Hereditary (Q : Tree → Prop) : Prop :=
  ∀ t, Q t → ∀ c ∈ t.children, Q c

theorem hereditary_true : Hereditary fun _ => True :=
  fun _ _ _ _ => trivial

theorem Hereditary.of_mem_sites {Q : Tree → Prop} (hQ : Hereditary Q) {root : Tree}
    (hroot : Q root) : ∀ s ∈ root.sites, Q s.node :=
  forall_mem_sites (P := fun s => Q s.node) (fun s hs c hc => hQ s.node hs c hc) hroot

/-! ### Families of functions -/

section Family

variable {β : Type} {all : List Tree → List β} {one : Tree → List β}

/-- What is found in siblings is what is found in each of them. -/
theorem eq_flatMap_of_siblings (hnil : all [] = [])
    (hcons : ∀ t ts, all (t :: ts) = one t ++ all ts) (ts : List Tree) :
    all ts = ts.flatMap one := by
  induction ts with
  | nil => exact hnil
  | cons t ts ih => rw [hcons, ih, List.flatMap_cons]

/-- What is looked for in the first sibling of a role is found there. -/
theorem eq_flatMap_of_role {role : String} (hnil : all [] = [])
    (hcons : ∀ t ts, all (t :: ts) = if t.field == role then one t else all ts)
    (ts : List Tree) : all ts = (ts.find? (·.field == role)).toList.flatMap one := by
  induction ts with
  | nil => exact hnil
  | cons t ts ih =>
      rw [hcons, List.find?_cons]
      split
      case isTrue hrole => rw [hrole, Option.toList_some, List.flatMap_singleton]
      case isFalse hrole => rw [Bool.eq_false_iff.mpr hrole, ih]

end Family

/-! ### Steps down from a site -/

namespace Site

def children (s : Site) : List Site :=
  s.node.children.map fun c => ⟨c, s.node :: s.above⟩

def child? (s : Site) (role : String) : Option Site :=
  (s.node.child? role).map fun c => ⟨c, s.node :: s.above⟩

def subtree (s : Site) : List Site :=
  sitesUnder s.above s.node

theorem subtree_eq (s : Site) : s.subtree = s :: s.children.flatMap subtree := by
  rw [subtree, sitesUnder_eq, sitesUnderAll_eq, children, List.flatMap_map]
  rfl

theorem mem_children_iff {s u : Site} :
    u ∈ s.children ↔ ∃ c ∈ s.node.children, u = ⟨c, s.node :: s.above⟩ := by
  simp only [children, List.mem_map, eq_comm]

theorem child?_eq_some_iff {s u : Site} {role : String} :
    s.child? role = some u ↔
      ∃ c, s.node.child? role = some c ∧ u = ⟨c, s.node :: s.above⟩ := by
  simp only [child?, Option.map_eq_some_iff, @eq_comm _ u]

theorem mem_children_of_child? {s u : Site} {role : String} (h : s.child? role = some u) :
    u ∈ s.children := by
  obtain ⟨c, hc, rfl⟩ := child?_eq_some_iff.mp h
  exact mem_children_iff.mpr ⟨c, List.mem_of_find?_eq_some hc, rfl⟩

theorem subtree_sublist {s u : Site} (h : u ∈ s.children) :
    u.subtree.Sublist (s.children.flatMap subtree) := by
  rw [List.flatMap]
  exact List.sublist_flatten_of_mem (List.mem_map_of_mem h)

end Site

/-- Where a search goes on from a site. -/
inductive Way where
  | stop
  | children
  | body
  | inBody

namespace Way

def sites (s : Site) : Way → List Site
  | stop => []
  | children => s.children
  | body => (s.child? "body").toList
  | inBody => (s.child? "body").toList.flatMap Site.children

section Gather

variable {β : Type} (s : Site) (k : Site → List β)

theorem flatMap_sites_children : (children.sites s).flatMap k =
    s.node.children.flatMap fun c => k ⟨c, s.node :: s.above⟩ := by
  rw [sites, Site.children, List.flatMap_map]

theorem flatMap_sites_body : (body.sites s).flatMap k =
    (s.node.child? "body").toList.flatMap fun b => k ⟨b, s.node :: s.above⟩ := by
  rw [sites, Site.child?]
  cases s.node.child? "body" <;> rfl

theorem flatMap_sites_inBody : (inBody.sites s).flatMap k =
    (s.node.child? "body").toList.flatMap fun b =>
      b.children.flatMap fun c => k ⟨c, b :: s.node :: s.above⟩ := by
  rw [sites, Site.child?]
  cases s.node.child? "body" with
  | none => rfl
  | some b => simp [Site.children, List.flatMap_map]

end Gather

variable {w : Way} {s u : Site}

theorem mem_sites_children : u ∈ children.sites s ↔
    ∃ c ∈ s.node.children, u = ⟨c, s.node :: s.above⟩ :=
  Site.mem_children_iff

theorem mem_sites_body : u ∈ body.sites s ↔
    ∃ b, s.node.child? "body" = some b ∧ u = ⟨b, s.node :: s.above⟩ := by
  rw [sites, Option.mem_toList, Site.child?_eq_some_iff]

theorem mem_sites_inBody : u ∈ inBody.sites s ↔
    ∃ b, s.node.child? "body" = some b ∧ ∃ c ∈ b.children, u = ⟨c, b :: s.node :: s.above⟩ := by
  simp only [sites, List.mem_flatMap, Option.mem_toList, Site.child?_eq_some_iff,
    Site.mem_children_iff]
  constructor
  · rintro ⟨_, ⟨b, hb, rfl⟩, hu⟩
    exact ⟨b, hb, hu⟩
  · rintro ⟨b, hb, hu⟩
    exact ⟨_, ⟨b, hb, rfl⟩, hu⟩

/-- A search goes to children, and to children of these. -/
theorem mem_children_of_mem_sites (h : u ∈ w.sites s) :
    u ∈ s.children ∨ ∃ b ∈ s.children, u ∈ b.children := by
  cases w with
  | stop => cases h
  | children => exact .inl h
  | body => exact .inl (Site.mem_children_of_child? (Option.mem_toList.mp h))
  | inBody =>
      obtain ⟨b, hb, hu⟩ := List.mem_flatMap.mp h
      exact .inr ⟨b, Site.mem_children_of_child? (Option.mem_toList.mp hb), hu⟩

theorem sizeOf_lt_of_mem_sites (h : u ∈ w.sites s) : sizeOf u.node < sizeOf s.node := by
  have hchild : ∀ {s u : Site}, u ∈ s.children → sizeOf u.node < sizeOf s.node := by
    intro s u hu
    obtain ⟨c, hc, rfl⟩ := Site.mem_children_iff.mp hu
    exact sizeOf_lt_of_mem_children hc
  rcases mem_children_of_mem_sites h with hu | ⟨b, hb, hu⟩
  · exact hchild hu
  · exact Nat.lt_trans (hchild hu) (hchild hb)

theorem mem_sites_of_mem_sites {root : Tree} (hs : s ∈ root.sites) (h : u ∈ w.sites s) :
    u ∈ root.sites := by
  have hchild : ∀ {s u : Site}, s ∈ root.sites → u ∈ s.children → u ∈ root.sites := by
    intro s u hs hu
    obtain ⟨c, hc, rfl⟩ := Site.mem_children_iff.mp hu
    exact child_mem_sites hs hc
  rcases mem_children_of_mem_sites h with hu | ⟨b, hb, hu⟩
  · exact hchild hs hu
  · exact hchild (hchild hs hb) hu

/-- The sites to which a search goes stand below the site, and none of them below another. -/
theorem subtrees_sublist (w : Way) (s : Site) :
    ((w.sites s).flatMap Site.subtree).Sublist (s.children.flatMap Site.subtree) := by
  cases w with
  | stop => exact List.nil_sublist _
  | children => exact List.Sublist.refl _
  | body =>
      rw [sites]
      cases hbody : s.child? "body" with
      | none => exact List.nil_sublist _
      | some b =>
          rw [Option.toList_some, List.flatMap_singleton]
          exact Site.subtree_sublist (Site.mem_children_of_child? hbody)
  | inBody =>
      rw [sites]
      cases hbody : s.child? "body" with
      | none => exact List.nil_sublist _
      | some b =>
          rw [Option.toList_some, List.flatMap_singleton]
          have hbelow : (b.children.flatMap Site.subtree).Sublist b.subtree := by
            rw [b.subtree_eq]
            exact List.sublist_cons_self _ _
          exact hbelow.trans (Site.subtree_sublist (Site.mem_children_of_child? hbody))

end Way

/-! ### Searches -/

/-- A place of a search: a site with the type that owns what is found there. -/
abbrev OwnedSite := Site × Option String

/-- A search for definitions: what it gives from a place on is what it finds at the place and then,
with the owner that it carries further, what it gives at the sites to which it goes. -/
structure Search (β : Type) where
  all : OwnedSite → List β
  found : OwnedSite → List β
  onward : OwnedSite → Way × Option String
  all_eq : ∀ x, all x =
    found x ++ ((onward x).1.sites x.1).flatMap fun s => all (s, (onward x).2)

namespace Search

variable {β : Type} (S : Search β)

def inside (x : OwnedSite) : List OwnedSite :=
  ((S.onward x).1.sites x.1).map fun s => (s, (S.onward x).2)

/-- The search from one place comes to the other. -/
def Leads : OwnedSite → OwnedSite → Prop :=
  Relation.ReflTransGen fun x y => y ∈ S.inside x

/-- The search in a tree comes to the place. -/
def Reaches (root : Tree) (x : OwnedSite) : Prop :=
  S.Leads (⟨root, []⟩, none) x

variable {S} {root : Tree} {x y : OwnedSite} {b : β}

theorem mem_inside_iff :
    y ∈ S.inside x ↔ y.1 ∈ (S.onward x).1.sites x.1 ∧ y.2 = (S.onward x).2 := by
  rw [inside, List.mem_map]
  constructor
  · rintro ⟨s, hs, rfl⟩
    exact ⟨hs, rfl⟩
  · rintro ⟨hs, howner⟩
    exact ⟨y.1, hs, Prod.ext rfl howner.symm⟩

theorem sizeOf_lt_of_mem_inside (h : y ∈ S.inside x) : sizeOf y.1.node < sizeOf x.1.node :=
  Way.sizeOf_lt_of_mem_sites (mem_inside_iff.mp h).1

variable (S) in
/-- Induction along a search: what holds of a place if it holds where the search goes from there,
holds of every place. -/
theorem induction {P : OwnedSite → Prop} (h : ∀ x, (∀ y ∈ S.inside x, P y) → P x) (x : OwnedSite) :
    P x :=
  h x fun y _ => induction h y
termination_by sizeOf x.1.node
decreasing_by exact sizeOf_lt_of_mem_inside ‹_›

theorem all_eq_inside (x : OwnedSite) : S.all x = S.found x ++ (S.inside x).flatMap S.all := by
  rw [S.all_eq, inside, List.flatMap_map]

/-- A search gives what it finds at the places that it comes to. -/
theorem mem_all_iff : b ∈ S.all x ↔ ∃ y, S.Leads x y ∧ b ∈ S.found y := by
  constructor
  · intro h
    induction x using S.induction with
    | h x ih =>
        rw [all_eq_inside, List.mem_append, List.mem_flatMap] at h
        rcases h with h | ⟨y, hy, h⟩
        · exact ⟨x, .refl, h⟩
        · obtain ⟨z, hz, hb⟩ := ih y hy h
          exact ⟨z, hz.head hy, hb⟩
  · rintro ⟨y, hy, hb⟩
    refine Relation.ReflTransGen.head_induction_on (motive := fun x _ => b ∈ S.all x) hy ?_ ?_
    · rw [all_eq_inside]
      exact List.mem_append_left _ hb
    · intro x z hz _ hb
      rw [all_eq_inside]
      exact List.mem_append_right _ (List.mem_flatMap_of_mem hz hb)

theorem Reaches.mem_sites (h : S.Reaches root x) : x.1 ∈ root.sites := by
  induction h with
  | refl => exact mem_sites_self root
  | tail _ hstep hx => exact Way.mem_sites_of_mem_sites hx (mem_inside_iff.mp hstep).1

/-- What holds of all that is found at nodes with a condition holds of all that a search gives, if
the condition goes from the root to all nodes. -/
theorem forall_mem_all {Q : Tree → Prop} (hQ : Hereditary Q) (hroot : Q root) {P : β → Prop}
    (h : ∀ x, Q x.1.node → ∀ b ∈ S.found x, P b) : ∀ b ∈ S.all (⟨root, []⟩, none), P b := by
  intro b hb
  obtain ⟨x, hx, hb⟩ := mem_all_iff.mp hb
  exact h x (hQ.of_mem_sites hroot x.1 (Reaches.mem_sites hx)) b hb

/-- If no more is found at a place than its node, and that only with a condition, then the search
comes to the nodes with the condition in pre-order, and to none of them twice. -/
theorem nodes_sublist {nodes : β → List Tree} {p : Tree → Bool}
    (h : ∀ x, ((S.found x).flatMap nodes).Sublist ([x.1.node].filter p)) (x : OwnedSite) :
    ((S.all x).flatMap nodes).Sublist (x.1.node.preorder.filter p) := by
  rw [← map_node_sitesUnder x.1.above, ← Site.subtree]
  induction x using S.induction with
  | h x ih =>
      have hsites : ((S.inside x).flatMap fun y => (y.1.subtree.map Site.node).filter p) =
          ((((S.onward x).1.sites x.1).flatMap Site.subtree).map Site.node).filter p := by
        rw [inside, List.flatMap_map, List.map_flatMap, List.filter_flatMap]
      rw [all_eq_inside, List.flatMap_append, List.flatMap_assoc, Site.subtree_eq, List.map_cons,
        ← List.singleton_append, List.filter_append]
      refine (h x).append ((List.Sublist.flatMap_right _ ih).trans ?_)
      rw [hsites]
      exact (((S.onward x).1.subtrees_sublist x.1).map Site.node).filter p

end Search

end CodeGraph.Tree
