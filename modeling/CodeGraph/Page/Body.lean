import CodeGraph.Page.Region
import CodeGraph.Text.Seq

/-!
The code of a page as the body of a class. Script bodies are members; runs of blocks between them
become the bodies of a method, and expressions in them are assigned to nothing. Only text without
line breaks is inserted.
-/

namespace CodeGraph.Page

def inlineHead : List UInt8 := "void AspInline() \x7b".toUTF8.toList

def discard : List UInt8 := "_ = ".toUTF8.toList

def brace : UInt8 := 125

def semicolon : UInt8 := 59

/-- A body under construction: its bytes, how much of the page it covers, and whether a method for
blocks is open. -/
structure Draft where
  out : List UInt8 := []
  position : Nat := 0
  inline : Bool := false

def Draft.addCode (d : Draft) (kind : Region.Kind) (code : List UInt8) : Draft :=
  match kind with
  | .members =>
      { d with out := d.out ++ (if d.inline then [brace] else []) ++ code, inline := false }
  | .statements =>
      { d with out := d.out ++ (if d.inline then [] else inlineHead) ++ code, inline := true }
  | .expression =>
      { d with
        out := d.out ++ (if d.inline then [] else inlineHead) ++ discard ++ code ++ [semicolon]
        inline := true }

/-- Adds the markup before a region and its code. A region that starts before the end of the one
before it cannot be added. -/
def Draft.add? (bytes : List UInt8) (d : Draft) (r : Region) : Option Draft :=
  if d.position ≤ r.start then
    let markup := Mask.blank (Seq.slice bytes d.position r.start)
    let d := { d with out := d.out ++ markup }
    some { d.addCode r.kind (Seq.slice bytes r.start r.stop) with position := r.stop }
  else none

def Draft.finish (bytes : List UInt8) (d : Draft) : List UInt8 :=
  d.out ++ Mask.blank (bytes.drop d.position) ++ (if d.inline then [brace] else [])

/-- The class body of a page, unless its regions overlap. -/
def classBody? (bytes : List UInt8) : Option (List UInt8) :=
  ((regions bytes).foldlM (Draft.add? bytes) {}).map (Draft.finish bytes)

end CodeGraph.Page
