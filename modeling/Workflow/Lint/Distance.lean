import Workflow.Graph

/-!
# Edit distance

The least number of insertions, deletions and substitutions of single characters that turn one text
into another, computed row by row: row `i` holds the distances from the first `i` characters of the
one text to every initial part of the other.
-/

namespace Workflow.Lint

/-- The rest of the row below `above`, whose first entry is known to be `left`, for the character
`c`. -/
def rowBelow (c : Char) : (target : List Char) → (above : List Nat) → (left : Nat) → List Nat
  | d :: target, diagonal :: up :: above, left =>
    let cost := if c = d then 0 else 1
    let entry := min (min (diagonal + cost) (up + 1)) (left + 1)
    entry :: rowBelow c target (up :: above) entry
  | _, _, _ => []

def nextRow (target : List Char) (i : Nat) (row : List Nat) (c : Char) : List Nat :=
  (i + 1) :: rowBelow c target row (i + 1)

def lastRow (target : List Char) : (i : Nat) → (row : List Nat) → List Char → List Nat
  | _, row, [] => row
  | i, row, c :: source => lastRow target (i + 1) (nextRow target i row c) source

def editDistance (source target : List Char) : Nat :=
  (lastRow target 0 (List.range (target.length + 1)) source).getLastD 0

/-- The candidate at the least distance from a name, if that is at most two; the first of those that
are equally near. -/
def nearest? (name : String) : List String → Option (String × Nat)
  | [] => none
  | candidate :: candidates =>
    let distance := editDistance name.toList candidate.toList
    let rest := nearest? name candidates
    if distance ≤ 2 && rest.all (distance ≤ ·.2) then some (candidate, distance) else rest

/-- The name that was probably meant: the nearest one that is close enough, and of several the first
in alphabetical order. -/
def closest? (name : String) (names : List String) : Option String :=
  (nearest? name (sortNames names)).map Prod.fst

end Workflow.Lint
