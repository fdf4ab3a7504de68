import CodeGraph.Text.Bytes

/-!
Buffered writing. A writer collects what it is given and hands it to its sink in blocks, so that a
sink which refuses is noticed only when a block is due. What is refused stays with the writer.
-/

namespace CodeGraph

/-- Where written bytes end up. -/
structure Sink where
  /-- Why every write is refused, if it is. -/
  refuses : Option String := none
  written : Array UInt8 := #[]
  deriving Repr, Inhabited

/-- A sink with the bytes that it has not been given yet. -/
structure Writer where
  sink : Sink := {}
  pending : Array UInt8 := #[]
  deriving Repr, Inhabited

/-- An effect on a writer that can be refused; the writer survives a refusal. -/
abbrev Writing := ExceptT String (StateM Writer)

namespace Writer

/-- The number of bytes that a writer can hold back. -/
def capacity : Nat := 8192

def spare (w : Writer) : Nat :=
  capacity - w.pending.size

def deliver (bytes : Array UInt8) : Writing Unit := do
  let w ← get
  match w.sink.refuses with
  | some reason => throw reason
  | none => set { w with sink := { w.sink with written := w.sink.written ++ bytes } }

/-- Gives to the sink what is held back. -/
def drain : Writing Unit := do
  let w ← get
  if !w.pending.isEmpty then
    deliver w.pending
    modify fun w => { w with pending := #[] }

def hold (bytes : List UInt8) : Writing Unit :=
  modify fun w => { w with pending := w.pending ++ bytes }

/-- Writes one piece: it is held back if there is room for it, after what is held back already
was given to the sink if need be; a piece as large as the whole buffer goes straight on. -/
def put (bytes : List UInt8) : Writing Unit := do
  let size := bytes.length
  if (← get).spare < size then drain
  if capacity ≤ size then deliver bytes.toArray else hold bytes

def putText (s : List Char) : Writing Unit :=
  put (Utf8.encode s)

/-- Ends the writing: what the sink still lacks is given to it, if it takes it. -/
def finish (w : Writer) : Sink :=
  (drain.run.run w).2.sink

end Writer

end CodeGraph
