import CodeGraph.Path
import CodeGraph.Text.Bytes
import CodeGraph.Text.Pattern

/-!
The server code of a page: `<% %>` blocks and the bodies of server scripts. Directives `<%@ %>`
and comments `<%-- --%>` are not code. The language of the code is the one that a directive names,
or else the one that goes with the extension of the file.
-/

namespace CodeGraph.Page

open Pattern

inductive Region.Kind where
  /-- Statements that run while the page is rendered. -/
  | statements
  /-- One expression whose value is rendered. -/
  | expression
  /-- Members of the page's type. -/
  | members
  deriving DecidableEq, Repr, Inhabited

/-- Server code from byte `start` up to byte `stop`, without its delimiters. -/
structure Region where
  start : Nat
  stop : Nat
  kind : Region.Kind
  deriving DecidableEq, Repr, Inhabited

def Region.holds (r : Region) (offset : Nat) : Bool :=
  r.start ≤ offset && offset < r.stop

/-! ### Scripts -/

def isQuote (c : Char) : Bool :=
  c == '"' || c == '\''

/-- A script element that runs at the server; its body is part 1. -/
def scriptPattern : Pattern :=
  seqs [keyword "<script", edge, most (one (· != '>')), edge, keyword "runat", spaces, char '=',
    spaces, opt (one isQuote), keyword "server", opt (one isQuote), most (one (· != '>')),
    char '>', group 1 (fewest (one fun _ => true)), keyword "</script", spaces, char '>']

/-- The number of bytes before a place that is counted in symbols. -/
def byteOffset (symbols : List Symbol) (place : Nat) : Nat :=
  ((symbols.take place).map Symbol.width).foldr (· + ·) 0

/-- The bodies of the server scripts. -/
def scripts (bytes : List UInt8) : List Region :=
  let symbols := Utf8.decode bytes
  ((scriptPattern.all symbols).filterMap (·.group? 1)).map fun g =>
    ⟨byteOffset symbols g.start, byteOffset symbols g.stop, .members⟩

/-! ### Blocks -/

/-- What begins at an opening `<%`. -/
inductive Block where
  /-- Nothing closes it. -/
  | unclosed
  /-- A comment of `length` bytes, delimiters included. -/
  | comment (length : Nat)
  /-- Code whose body has `body` bytes between `<%` and `%>`. -/
  | code (body : Nat)
  deriving DecidableEq, Repr

def opening : List UInt8 := [60, 37]

def closing : List UInt8 := [37, 62]

def commentOpening : List UInt8 := [45, 45]

def commentClosing : List UInt8 := [45, 45, 37, 62]

/-- Reads the block that starts here. -/
def block? (bytes : List UInt8) : Option Block :=
  match Seq.stripStart? opening bytes with
  | none => none
  | some rest =>
      if Seq.startsWith commentOpening rest then
        match Seq.find? commentClosing rest with
        | some n => some (.comment (2 + n + 4))
        | none => some .unclosed
      else
        match Seq.find? closing rest with
        | some n => some (.code n)
        | none => some .unclosed

/-- The region of a block with a body of `length` bytes that starts with `first`, where the block
opens at `offset`. A directive and an empty body have none. -/
def regionOf? (offset length : Nat) (first : Option UInt8) : Option Region :=
  let stop := offset + 2 + length
  let region (start : Nat) (kind : Region.Kind) : Option Region :=
    if start < stop then some ⟨start, stop, kind⟩ else none
  if first == some 64 then none
  else if first == some 61 || first == some 58 || first == some 35 then
    region (offset + 3) .expression
  else region (offset + 2) .statements

/-- The regions of the blocks from here on, when `skip` bytes still belong to the block before.
Blocks that open inside a script are part of it. -/
def blocksFrom (inScript : Nat → Bool) (offset skip : Nat) : List UInt8 → List Region
  | [] => []
  | b :: s =>
      match skip with
      | skip + 1 => blocksFrom inScript (offset + 1) skip s
      | 0 =>
          match block? (b :: s) with
          | none => blocksFrom inScript (offset + 1) 0 s
          | some .unclosed => []
          | some (.comment n) => blocksFrom inScript (offset + 1) (n - 1) s
          | some (.code n) =>
              let rest := blocksFrom inScript (offset + 1) (n + 3) s
              if inScript offset then rest
              else (regionOf? offset n (s.drop 1).head?).toList ++ rest

/-- The server code of a page in the order in which it starts. -/
def regions (bytes : List UInt8) : List Region :=
  let inScripts := scripts bytes
  let inBlocks := blocksFrom (fun offset => inScripts.any (·.holds offset)) 0 0 bytes
  (inScripts ++ inBlocks).mergeSort fun a b => a.start ≤ b.start

/-- Keeps the server code of a page and blanks all else. -/
def maskMarkup (bytes : List UInt8) : List UInt8 :=
  let code := regions bytes
  bytes.zipIdx.map fun (b, i) => if code.any (·.holds i) then b else Mask.blankByte b

/-! ### The language of the code -/

inductive Language where
  | csharp
  | visualBasic
  deriving DecidableEq, Repr, Inhabited

/-- A directive that names a language, which is part 1. -/
def languagePattern : Pattern :=
  seqs [literal "<%@", spaces,
    opt (alt (seq (keyword "Page") spaces1) (seq (keyword "Control") spaces1)),
    keyword "Language", spaces, char '=', spaces, opt (one isQuote),
    group 1 (some1 (one fun c => !isQuote c && !Text.isSpace c && c != '>'))]

def Language.ofName? (name : String) : Option Language :=
  let n := Text.lower name
  if ["c#", "cs", "csharp"].contains n then some .csharp
  else if ["vb", "vbscript", "vbs", "vb.net"].contains n then some .visualBasic
  else none

/-- The language that the first directive of a page names. -/
def declaredLanguage? (bytes : List UInt8) : Option Language :=
  match languagePattern.first? (Utf8.decode bytes) with
  | none => none
  | some m => (m.group? 1).bind fun g => Language.ofName? g.string

def defaultLanguage (path : String) : Language :=
  match (Path.extension? path).map Text.lower with
  | some ext => if ext == "aspx" || ext == "ascx" then .csharp else .visualBasic
  | none => .visualBasic

def language (path : String) (bytes : List UInt8) : Language :=
  (declaredLanguage? bytes).getD (defaultLanguage path)

end CodeGraph.Page
