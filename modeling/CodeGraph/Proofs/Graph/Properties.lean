import CodeGraph.Proofs.Graph.Fragments

/-!
What the building operations do to the properties of nodes: setting a property changes the value
under its own key only. A condition that holds for every node of a fragment is carried through
each operation that adds or changes nodes.
-/

namespace CodeGraph

/-! ### Single nodes -/

namespace Properties

theorem get?_cons (k : String) (v : Json) (rest : Properties) (key : String) :
    get? key ((k, v) :: rest) = if key = k then some v else get? key rest := by
  rw [get?, List.lookup_cons, beq_eq_decide]
  by_cases h : key = k <;> simp [h, get?]

theorem get?_set (props : Properties) (key : String) (value : Json) (key' : String) :
    (props.set key value).get? key' = if key' = key then some value else props.get? key' := by
  induction props with
  | nil => rw [set, get?_cons]
  | cons entry rest ih =>
      obtain ⟨k, v⟩ := entry
      rw [set]
      split
      case isTrue hkey =>
        subst hkey
        rw [get?_cons, get?_cons]
        split <;> rfl
      case isFalse hkey =>
        split
        · rw [get?_cons]
        · rw [get?_cons, get?_cons, ih]
          -- The two keys differ, so at most one of the tests succeeds.
          by_cases hk : key' = k
          · rw [if_pos hk, if_neg fun h => hkey (h.symm.trans hk), if_pos hk]
          · rw [if_neg hk, if_neg hk]

def erase (key : String) (props : Properties) : Properties :=
  props.filter (·.1 != key)

theorem get?_eq_none_iff {props : Properties} {key : String} :
    props.get? key = none ↔ ∀ entry ∈ props, entry.1 ≠ key := by
  rw [get?, List.lookup_eq_none_iff]
  simp only [bne_iff_ne, ne_eq]
  exact forall₂_congr fun _ _ => not_congr eq_comm

theorem erase_eq_self {props : Properties} {key : String} (h : props.get? key = none) :
    props.erase key = props := by
  rw [erase, List.filter_eq_self]
  intro entry hentry
  exact bne_iff_ne.mpr (get?_eq_none_iff.mp h entry hentry)

theorem get?_erase_of_ne {key key' : String} (h : key' ≠ key) (props : Properties) :
    (props.erase key).get? key' = props.get? key' := by
  induction props with
  | nil => rfl
  | cons entry rest ih =>
      obtain ⟨k, v⟩ := entry
      rw [get?_cons, ← ih, erase, List.filter_cons]
      by_cases hk : k = key
      · rw [if_neg (by simpa using hk), if_neg fun hk' => h (hk'.trans hk)]
        rfl
      · rw [if_pos (by simpa using hk), get?_cons]
        rfl

/-- What was set last is what is erased. -/
theorem erase_set (props : Properties) (key : String) (value : Json) :
    (props.set key value).erase key = props.erase key := by
  induction props with
  | nil => simp [set, erase]
  | cons entry rest ih =>
      obtain ⟨k, v⟩ := entry
      rw [set]
      split
      case isTrue hkey =>
        subst hkey
        simp [erase]
      case isFalse hkey =>
        split
        · simp [erase]
        · simp only [erase, List.filter_cons] at ih ⊢
          rw [ih]

end Properties

namespace Node

variable {n : Node} {key key' : String} {value : Json}

def erase (n : Node) (key : String) : Node :=
  { n with properties := n.properties.erase key }

theorem erase_eq_self (h : n.get? key = none) : n.erase key = n := by
  rw [erase, Properties.erase_eq_self h]

theorem name?_erase_of_ne (h : key ≠ Key.name) : (n.erase key).name? = n.name? := by
  simp only [name?, get?, erase, Properties.get?_erase_of_ne h.symm]

theorem erase_set (n : Node) (key : String) (value : Json) :
    (n.set key value).erase key = n.erase key := by
  simp only [erase, set, Properties.erase_set]

@[simp] theorem get?_set_self (n : Node) (key : String) (value : Json) :
    (n.set key value).get? key = some value := by
  simp [Node.get?, Node.set, Properties.get?_set]

theorem get?_set_of_ne (h : key' ≠ key) : (n.set key value).get? key' = n.get? key' := by
  simp [Node.get?, Node.set, Properties.get?_set, h]

theorem name?_set_of_ne (h : key ≠ Key.name) : (n.set key value).name? = n.name? := by
  rw [name?, get?_set_of_ne h.symm, name?]

theorem line?_set_of_ne (h : key ≠ Key.line) : (n.set key value).line? = n.line? := by
  rw [line?, get?_set_of_ne h.symm, line?]

variable (id label name file : String) (line : Nat)

theorem name?_definition : (definition id label name file line).name? = some name := by
  rw [definition, name?_set_of_ne (by decide), name?_set_of_ne (by decide), name?, get?_set_self]
  rfl

theorem line?_definition : (definition id label name file line).line? = some line := by
  rw [definition, line?, get?_set_self]
  rfl

end Node

/-! ### All nodes of a fragment -/

namespace Fragment

variable {P : Node → Prop} {f : Fragment}

def Each (P : Node → Prop) (f : Fragment) : Prop :=
  ∀ n ∈ f.nodes, P n

theorem each_empty (P : Node → Prop) : Each P {} := by
  intro n hn
  cases hn

theorem Each.addNode (h : f.Each P) {n : Node} (hn : P n) : (f.addNode n).Each P := by
  intro m hm
  unfold Fragment.addNode at hm
  split at hm
  · exact h m hm
  · rcases List.mem_append.mp hm with hm | hm
    · exact h m hm
    · rw [List.mem_singleton.mp hm]
      exact hn

theorem Each.addEdge (h : f.Each P) (source target relation : String) :
    (f.addEdge source target relation).Each P := by
  rw [Each, nodes_addEdge]
  exact h

theorem Each.addAll (h : f.Each P) (es : List Edge) : (f.addAll es).Each P := by
  rw [Each, nodes_addAll]
  exact h

theorem Each.setProperty (h : f.Each P) {key : String} {value : Json}
    (hset : ∀ n, P n → P (n.set key value)) (id : String) :
    (f.setProperty id key value).Each P := by
  intro m hm
  obtain ⟨n, hn, rfl⟩ := List.mem_map.mp hm
  split
  · exact hset n (h n hn)
  · exact h n hn

end Fragment

end CodeGraph
