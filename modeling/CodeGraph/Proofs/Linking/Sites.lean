import CodeGraph.Tree.Listing
import Mathlib.Data.List.Nodup

/-!
The sites of a tree. A tree is a site, and every child of a site is a site; nothing else is. So what
holds of the whole tree and goes from a site to its children holds everywhere. No two sites of a
tree that is given as a listing have nodes of the same key.
-/

namespace CodeGraph.Tree

def leaf (kind field : String) (key start stop : Nat) : Tree :=
  .node { kind, field, start, stop, key } []

theorem sitesUnder_eq (above : List Tree) (t : Tree) :
    sitesUnder above t = ⟨t, above⟩ :: sitesUnderAll (t :: above) t.children := by
  cases t
  rfl

theorem sitesUnderAll_eq (above : List Tree) (ts : List Tree) :
    sitesUnderAll above ts = ts.flatMap (sitesUnder above) := by
  induction ts with
  | nil => rfl
  | cons t ts ih => rw [sitesUnderAll, ih, List.flatMap_cons]

mutual

theorem map_node_sitesUnder (above : List Tree) :
    (t : Tree) → (sitesUnder above t).map Site.node = t.preorder
  | .node i cs => by
      rw [sitesUnder, preorder, List.map_cons, map_node_sitesUnderAll _ cs]

theorem map_node_sitesUnderAll (above : List Tree) :
    (ts : List Tree) → (sitesUnderAll above ts).map Site.node = preorderAll ts
  | [] => rfl
  | t :: ts => by
      rw [sitesUnderAll, preorderAll, List.map_append, map_node_sitesUnder above t,
        map_node_sitesUnderAll above ts]

end

/-! ### Induction from a site to its children -/

section Induction

variable {P : Site → Prop}

mutual

theorem forall_mem_sitesUnder
    (hchild : ∀ s, P s → ∀ c ∈ s.node.children, P ⟨c, s.node :: s.above⟩) (above : List Tree) :
    (t : Tree) → P ⟨t, above⟩ → ∀ s ∈ sitesUnder above t, P s
  | .node i cs, ht => by
      rw [sitesUnder]
      exact List.forall_mem_cons.mpr
        ⟨ht, forall_mem_sitesUnderAll hchild _ cs fun c hc => hchild _ ht c hc⟩

theorem forall_mem_sitesUnderAll
    (hchild : ∀ s, P s → ∀ c ∈ s.node.children, P ⟨c, s.node :: s.above⟩) (above : List Tree) :
    (ts : List Tree) → (∀ t ∈ ts, P ⟨t, above⟩) → ∀ s ∈ sitesUnderAll above ts, P s
  | [], _ => List.forall_mem_nil _
  | t :: ts, hts => by
      obtain ⟨ht, hts⟩ := List.forall_mem_cons.mp hts
      exact List.forall_mem_append.mpr
        ⟨forall_mem_sitesUnder hchild above t ht, forall_mem_sitesUnderAll hchild above ts hts⟩

end

/-- What holds of the whole tree and goes from a site to its children holds of every site. -/
theorem forall_mem_sites {root : Tree}
    (hchild : ∀ s, P s → ∀ c ∈ s.node.children, P ⟨c, s.node :: s.above⟩)
    (hroot : P ⟨root, []⟩) : ∀ s ∈ root.sites, P s :=
  forall_mem_sitesUnder hchild [] root hroot

end Induction

/-! ### Around and below a site -/

variable {root : Tree}

theorem mem_sites_self (root : Tree) : ⟨root, []⟩ ∈ root.sites := by
  rw [sites, sitesUnder_eq]
  exact List.mem_cons_self

theorem sitesUnder_subset_sites : ∀ s ∈ root.sites, sitesUnder s.above s.node ⊆ root.sites := by
  refine forall_mem_sites ?_ (List.Subset.refl _)
  intro s hs c hc
  refine List.Subset.trans ?_ hs
  rw [sitesUnder_eq s.above, sitesUnderAll_eq]
  exact fun u hu => List.mem_cons_of_mem _ (List.mem_flatMap_of_mem hc hu)

/-- A child of a site is a site. -/
theorem child_mem_sites {s : Site} (hs : s ∈ root.sites) {c : Tree} (hc : c ∈ s.node.children) :
    ⟨c, s.node :: s.above⟩ ∈ root.sites := by
  refine sitesUnder_subset_sites s hs ?_
  rw [sitesUnder_eq, sitesUnderAll_eq]
  refine List.mem_cons_of_mem _ (List.mem_flatMap_of_mem hc ?_)
  rw [sitesUnder_eq]
  exact List.mem_cons_self

/-- What stands around a site is a site. -/
theorem ancestors_subset_sites : ∀ s ∈ root.sites, s.ancestors ⊆ root.sites := by
  have hboth : ∀ s ∈ root.sites, s ∈ root.sites ∧ s.ancestors ⊆ root.sites := by
    refine forall_mem_sites ?_ ⟨mem_sites_self root, List.nil_subset _⟩
    rintro s ⟨hs, habove⟩ c hc
    exact ⟨child_mem_sites hs hc, List.cons_subset.mpr ⟨hs, habove⟩⟩
  exact fun s hs => (hboth s hs).2

/-- The nodes of a tree are those of its sites. -/
theorem mem_preorder_iff {t : Tree} : t ∈ root.preorder ↔ ∃ s ∈ root.sites, s.node = t := by
  rw [← map_node_sitesUnder [] root, ← sites, List.mem_map]

theorem mem_preorder_self (root : Tree) : root ∈ root.preorder :=
  mem_preorder_iff.mpr ⟨_, mem_sites_self root, rfl⟩

theorem child_mem_preorder {t c : Tree} (ht : t ∈ root.preorder) (hc : c ∈ t.children) :
    c ∈ root.preorder := by
  obtain ⟨s, hs, rfl⟩ := mem_preorder_iff.mp ht
  exact mem_preorder_iff.mpr ⟨_, child_mem_sites hs hc, rfl⟩

/-! ### Keys -/

theorem preorderAll_append (ts us : List Tree) :
    preorderAll (ts ++ us) = preorderAll ts ++ preorderAll us := by
  induction ts with
  | nil => rfl
  | cons t ts ih => rw [List.cons_append, preorderAll, preorderAll, ih, List.append_assoc]

/-- A listing lists the nodes of its trees in pre-order. -/
theorem map_info_preorderAll_foldr_graft (entries : List (Info × Nat)) :
    (preorderAll (entries.foldr graft [])).map info = entries.map Prod.fst := by
  induction entries with
  | nil => rfl
  | cons entry entries ih =>
      rw [List.foldr_cons, graft, preorderAll, preorder, List.cons_append, List.map_cons,
        ← preorderAll_append, List.take_append_drop, ih]
      rfl

/-- The nodes of a tree that is given as a listing are told apart by their keys. -/
theorem nodup_keys_of_ofListing? {entries : List (Info × Nat)} {t : Tree}
    (h : ofListing? entries = some t) : (t.sites.map (·.node.key)).Nodup := by
  obtain ⟨later, hforest⟩ := List.head?_eq_some_iff.mp h
  have hinfos := map_info_preorderAll_foldr_graft (numbered entries)
  have hkeys : ((numbered entries).map Prod.fst).map Info.key = List.range entries.length := by
    rw [numbered, List.map_map, List.map_map, List.range_eq_range',
      ← List.zipIdx_map_snd 0 entries]
    rfl
  have hall : (preorderAll (t :: later)).map key = List.range entries.length := by
    rw [← hkeys, ← hinfos, hforest, List.map_map]
    rfl
  have hsites : t.sites.map (·.node.key) = t.preorder.map key := by
    rw [← map_node_sitesUnder [] t, List.map_map]
    rfl
  have hnodup : (t.preorder.map key ++ (preorderAll later).map key).Nodup := by
    rw [← List.map_append, ← preorderAll, hall]
    exact List.nodup_range
  exact hsites ▸ hnodup.of_append_left

end CodeGraph.Tree
