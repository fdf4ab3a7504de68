import CodeGraph.Text.Basic

/-!
Tables of names. In most of them the first binding of a key wins: later bindings of the same key are
ignored, so what is found depends only on the order of the declarations. Among the locals of a
routine a later declaration hides an earlier one.
-/

namespace CodeGraph

structure Bindings (κ : Type) (α : Type) where
  entries : List (κ × α) := []
  deriving Repr

namespace Bindings

variable {κ α : Type} [DecidableEq κ]

def empty : Bindings κ α := {}

def get? (t : Bindings κ α) (key : κ) : Option α :=
  t.entries.lookup key

def contains (t : Bindings κ α) (key : κ) : Bool :=
  (t.get? key).isSome

/-- Binds a key unless it is bound. -/
def bind (t : Bindings κ α) (key : κ) (value : α) : Bindings κ α :=
  if t.contains key then t else ⟨t.entries ++ [(key, value)]⟩

def size (t : Bindings κ α) : Nat :=
  t.entries.length

end Bindings

instance {κ α : Type} : Inhabited (Bindings κ α) := ⟨{}⟩

/-! ### Symbols -/

/-- The names that one file defines, with their IDs. Some languages do not distinguish the case of
letters in names. -/
structure SymbolTable where
  ignoresCase : Bool := false
  bindings : Bindings String String := {}
  deriving Repr, Inhabited

namespace SymbolTable

/-- The form under which a name is stored. -/
def fold (t : SymbolTable) (name : String) : String :=
  if t.ignoresCase then Text.lower name else name

def get? (t : SymbolTable) (name : String) : Option String :=
  t.bindings.get? (t.fold name)

def contains (t : SymbolTable) (name : String) : Bool :=
  (t.get? name).isSome

def insert (t : SymbolTable) (name id : String) : SymbolTable :=
  { t with bindings := t.bindings.bind (t.fold name) id }

def size (t : SymbolTable) : Nat :=
  t.bindings.size

end SymbolTable

/-! ### Locals -/

/-- The parameters and local variables of a routine, with their declared types where these are
written, the latest declaration first. -/
abbrev Locals := List (String × Option String)

namespace Locals

def ofDeclarations (ds : List (String × Option String)) : Locals :=
  ds.reverse

def declares (ls : Locals) (name : String) : Bool :=
  (ls.lookup name).isSome

/-- The declaration of a name: absent, or present with or without a type. -/
def find? (ls : Locals) (name : String) : Option (Option String) :=
  ls.lookup name

end Locals

end CodeGraph
