import CodeGraph.Scope.Tables
import CodeGraph.Tree.Basic

/-!
The nodes of a tree in pre-order. A tree can be given as the listing of its nodes, each with the
number of its children. Its own listing is that of its sites: a site is a node together with the
nodes around it, so that rules can look outwards as well as inwards.
-/

namespace CodeGraph.Tree

/-- Puts a node over the trees that follow it. -/
def graft (entry : Info × Nat) (later : List Tree) : List Tree :=
  .node entry.1 (later.take entry.2) :: later.drop entry.2

/-- Gives each node its place in the listing as its key. -/
def numbered (entries : List (Info × Nat)) : List (Info × Nat) :=
  entries.zipIdx.map fun ((info, count), i) => ({ info with key := i }, count)

/-- The tree of a listing. -/
def ofListing? (entries : List (Info × Nat)) : Option Tree :=
  ((numbered entries).foldr graft []).head?

/-! ### Sites -/

/-- A node with its strict ancestors, the innermost first. -/
structure Site where
  node : Tree
  above : List Tree := []
  deriving Repr, Inhabited

mutual

def sitesUnder (above : List Tree) : Tree → List Site
  | .node i cs => ⟨.node i cs, above⟩ :: sitesUnderAll (.node i cs :: above) cs

def sitesUnderAll (above : List Tree) : List Tree → List Site
  | [] => []
  | t :: ts => sitesUnder above t ++ sitesUnderAll above ts

end

/-- Every site of a tree in pre-order. -/
def sites (t : Tree) : List Site :=
  sitesUnder [] t

/-- IDs of nodes, by key. -/
abbrev Owners := Bindings Nat String

namespace Site

def kind (s : Site) : String := s.node.kind

def chain : List Tree → List Site
  | [] => []
  | t :: ts => ⟨t, ts⟩ :: chain ts

/-- The sites around this one, the innermost first. -/
def ancestors (s : Site) : List Site :=
  chain s.above

/-- The ID of the innermost registered ancestor. -/
def enclosing? (s : Site) (owners : Owners) : Option String :=
  s.above.findSome? fun t => owners.get? t.key

end Site

end CodeGraph.Tree
