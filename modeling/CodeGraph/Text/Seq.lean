/-!
Searching and cutting lists. Everything here works on any list with decidable equality, so that
the same functions serve characters and bytes.
-/

namespace CodeGraph.Seq

variable {α : Type}

/-- The pieces between the members that satisfy `sep`: one more than there are such members. -/
def splitOn (sep : α → Bool) : List α → List (List α)
  | [] => [[]]
  | a :: s =>
      if sep a then [] :: splitOn sep s
      else
        match splitOn sep s with
        | [] => [[a]]
        | piece :: pieces => (a :: piece) :: pieces

/-- The members after the last one that satisfies `sep`, or the whole list. -/
def lastPiece (sep : α → Bool) (s : List α) : List α :=
  ((splitOn sep s).getLast?).getD []

/-- The list before and the list after the last member that satisfies `sep`. -/
def cutLast? (sep : α → Bool) : List α → Option (List α × List α)
  | [] => none
  | a :: s =>
      match cutLast? sep s with
      | some (before, after) => some (a :: before, after)
      | none => if sep a then some ([], s) else none

/-- The part from offset `start` up to offset `stop`. -/
def slice (s : List α) (start stop : Nat) : List α :=
  (s.drop start).take (stop - start)

variable [DecidableEq α]

/-- What follows `lead` in a list that starts with it. -/
def stripStart? : (lead s : List α) → Option (List α)
  | [], s => some s
  | _ :: _, [] => none
  | a :: lead, b :: s => if a = b then stripStart? lead s else none

def startsWith (lead s : List α) : Bool :=
  (stripStart? lead s).isSome

/-- What precedes `tail` in a list that ends with it. -/
def stripEnd? (tail s : List α) : Option (List α) :=
  (stripStart? tail.reverse s.reverse).map List.reverse

def endsWith (tail s : List α) : Bool :=
  (stripEnd? tail s).isSome

/-- The offset of the first occurrence of `needle`. -/
def find? (needle : List α) : List α → Option Nat
  | [] => if needle = [] then some 0 else none
  | a :: s =>
      if startsWith needle (a :: s) then some 0
      else (find? needle s).map (· + 1)

/-- The list before and the list after the first occurrence of `needle`. -/
def cut? (needle : List α) : List α → Option (List α × List α)
  | [] => (stripStart? needle []).map fun after => ([], after)
  | a :: s =>
      match stripStart? needle (a :: s) with
      | some after => some ([], after)
      | none => (cut? needle s).map fun (before, after) => (a :: before, after)

/-- The list after the last occurrence of `needle`. -/
def afterLast? (needle : List α) : List α → Option (List α)
  | [] => stripStart? needle []
  | a :: s => (afterLast? needle s).or (stripStart? needle (a :: s))

/-- The list before and the list after the last occurrence of `needle`. -/
def cutLastOn? (needle : List α) : List α → Option (List α × List α)
  | [] => (stripStart? needle []).map fun after => ([], after)
  | a :: s =>
      match cutLastOn? needle s with
      | some (before, after) => some (a :: before, after)
      | none => (stripStart? needle (a :: s)).map fun after => ([], after)

def contains (needle s : List α) : Bool :=
  (find? needle s).isSome

end CodeGraph.Seq
